import BlockExports.Text.Decimal

/-!
TOML values, and the rules by which the lines of a document add up to a table.

A table remembers how it came about, because that decides what later lines may still do to it: a
table between braces is closed, a table named by a header is not extended by dotted keys, and a
table that only stood on the way to another may still get a header of its own.
-/

namespace BlockExports.Toml

open Text

inductive Floating where
  | decimal (d : Decimal)
  | infinite (negative : Bool)
  | nan
  deriving DecidableEq, Repr

inductive Origin where
  /-- between braces -/
  | inline
  /-- on the way of a dotted key -/
  | dotted
  /-- on the way of a header -/
  | implied
  /-- by a header of its own, or as the whole document -/
  | header
  deriving DecidableEq, Repr

inductive Value where
  | string (s : String)
  | integer (i : Int)
  | floating (f : Floating)
  | boolean (b : Bool)
  /-- a date, a time or both -/
  | date
  | array (items : List Value)
  | table (origin : Origin) (fields : List (String × Value))
  /-- tables under one repeated header; only the newest may grow -/
  | tables (newest : List (String × Value)) (older : List (List (String × Value)))
  deriving Repr

/-- The fields of a table, each key once. -/
abbrev Table := List (String × Value)

namespace Table

def put (key : String) (value : Value) (t : Table) : Table :=
  t.map fun (k, v) => if k = key then (key, value) else (k, v)

/-- Adds a field; `none` when the key is there already. -/
def add? (key : String) (value : Value) (t : Table) : Option Table :=
  match t.lookup key with
  | none => some (t ++ [(key, value)])
  | some _ => none

/-- Edits the table at the end of a path, making the tables on the way where they are missing.
`byDots` tells a path in a key from a path in a header. -/
def alter? (byDots : Bool) (edit : Origin → Table → Option Table) :
    List String → Origin → Table → Option Table
  | [], origin, t => edit origin t
  | key :: path, _, t =>
    match t.lookup key with
    | none => do
      let origin : Origin := if byDots then .dotted else .implied
      t.add? key (.table origin (← alter? byDots edit path origin []))
    | some (.table origin inner) => do
      if origin = .inline || (byDots && origin = .header) then none
      else t.put key (.table origin (← alter? byDots edit path origin inner))
    | some (.tables newest older) => do
      t.put key (.tables (← alter? byDots edit path .header newest) older)
    | some _ => none

/-- Adds a field under a dotted key. The last table on the way must have come about by dots as
well. -/
def set? (path : List String) (key : String) (value : Value) (t : Table) : Option Table :=
  t.alter? true (fun origin inner =>
    if (origin = .dotted) = (path ≠ []) then inner.add? key value else none) path .header

/-- Gives a table a header. It may have been implied before, but not be there otherwise. -/
def openHeading? (key : String) (t : Table) : Option Table :=
  match t.lookup key with
  | none => t.add? key (.table .header [])
  | some (.table .implied inner) => some (t.put key (.table .header inner))
  | some _ => none

/-- Starts a new table under a repeated header. -/
def openRepeated? (key : String) (t : Table) : Option Table :=
  match t.lookup key with
  | none => t.add? key (.tables [] [])
  | some (.tables newest older) => some (t.put key (.tables [] (newest :: older)))
  | some _ => none

end Table

inductive Line where
  | field (path : List String) (key : String) (value : Value)
  | heading (path : List String) (key : String)
  | repeated (path : List String) (key : String)
  deriving Repr

/-- A document read so far, and the path of the table that fields go to. -/
structure Draft where
  root : Table
  place : List String
  deriving Repr

namespace Draft

/-- Adds a line; `none` when it contradicts the lines before. -/
def extend? (d : Draft) : Line → Option Draft
  | .field path key value => do
    let root ← d.root.alter? false (fun _ t => t.set? path key value) d.place .header
    pure { d with root }
  | .heading path key => do
    let root ← d.root.alter? false (fun _ t => t.openHeading? key) path .header
    pure ⟨root, path ++ [key]⟩
  | .repeated path key => do
    let root ← d.root.alter? false (fun _ t => t.openRepeated? key) path .header
    pure ⟨root, path ++ [key]⟩

end Draft

def assemble? (lines : List Line) : Option Table :=
  (lines.foldlM Draft.extend? ⟨[], []⟩).map (·.root)

end BlockExports.Toml
