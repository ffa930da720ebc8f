import BlockExports.Files
import BlockExports.Toml.Document

/-!
Options, and where they come from.

Options say which blocks hold PHP, and which embedded code is extended. A configuration is a TOML
table with the two options as keys, both of them texts and both of them optional. A file that is there
but is no such table is an error and never the same as no file.
-/

namespace BlockExports

structure Options where
  /-- the tag of the blocks that hold PHP -/
  blockType : String
  /-- what the id of embedded code must start with to be extended -/
  embeddedStart : String
  deriving DecidableEq, Repr

inductive ConfigFault where
  /-- it is no TOML document, or holds a number that is too large to be told -/
  | malformed
  | unknownField (name : String)
  /-- an option has a value of this description in place of a text -/
  | wrongType (found : String)
  deriving DecidableEq, Repr

inductive JsonFault where
  | pathNotText
  deriving DecidableEq, Repr

inductive Error where
  | unreadable (path : RawText) (cause : FileFault)
  | badConfig (path : RawText) (cause : ConfigFault)
  | json (cause : JsonFault)
  deriving DecidableEq

namespace ConfigFault

def message : ConfigFault → String
  | malformed => ""
  | unknownField name =>
    "unknown field `" ++ name ++ "`, expected `block_type` or `embedded_prefix`"
  | wrongType found => "invalid type: " ++ found ++ ", expected a string"

end ConfigFault

def JsonFault.message : JsonFault → String
  | pathNotText => "path contains invalid UTF-8 characters"

namespace Error

def message : Error → String
  | unreadable path cause => "failed to read " ++ path.shown ++ ": " ++ cause.message
  | badConfig path cause => "invalid config " ++ path.shown ++ ": " ++ cause.message
  | json cause => cause.message

/-- The message for a terminal, where the cause of a bad configuration has a heading. -/
def report : Error → String
  | badConfig path cause =>
    "invalid config " ++ path.shown ++ ": TOML parse error\n" ++ cause.message
  | e => e.message

end Error

namespace Toml

/-- Whether an integer fits into a word of so many bits, with a sign or without one. -/
def fitsSigned (bits : Nat) (i : Int) : Bool :=
  -(Nat.pow 2 (bits - 1) : Int) ≤ i && i < Nat.pow 2 (bits - 1)

def fitsUnsigned (bits : Nat) (i : Int) : Bool := 0 ≤ i && i < Nat.pow 2 bits

/-- An integer in the words of a message, which tell when it needs more than 64 bits; `none` when it
needs more than 128. -/
def describeInteger? (i : Int) : Option String :=
  let text := "integer `" ++ toString i ++ "`"
  if fitsSigned 64 i || fitsUnsigned 64 i then some text
  else if fitsSigned 128 i then some (text ++ " as i128")
  else if fitsUnsigned 128 i then some (text ++ " as u128")
  else none

/-- The text of a floating-point number; `none` when it is finite but too large for a float. -/
def Floating.text? : Floating → Option String
  | decimal d => d.floatText?
  | infinite negative => some (if negative then "-inf" else "inf")
  | nan => some "NaN"

/-- What a value is, in the words of a message; `none` for a number that is too large to be told. A
date counts as a map of its parts. -/
def Value.describe? : Value → Option String
  | string _ => some "string"
  | integer i => describeInteger? i
  | floating f => f.text?.map fun text => "floating point `" ++ text ++ "`"
  | boolean b => some ("boolean `" ++ (if b then "true" else "false") ++ "`")
  | array _ | tables _ _ => some "sequence"
  | table _ _ | date => some "map"

end Toml

namespace Options

open Toml

def standard : Options := ⟨"php", "script_"⟩

def blockTypeKey : String := "block_type"

def embeddedStartKey : String := "embedded_prefix"

def fault? (field : String × Value) : Option ConfigFault :=
  if field.1 = blockTypeKey || field.1 = embeddedStartKey then
    match field.2 with
    | .string _ => none
    | value => some (((value.describe?).map .wrongType).getD .malformed)
  else some (.unknownField field.1)

/-- The fault of a table. Of several faults the one under the least key counts. -/
def tableFault? : Table → Option (String × ConfigFault)
  | [] => none
  | field :: fields =>
    match fault? field, tableFault? fields with
    | none, later => later
    | some fault, none => some (field.1, fault)
    | some fault, some later => if later.1 < field.1 then some later else some (field.1, fault)

/-- The text under a key of a table, or else what is standard. -/
def textOf (t : Table) (key standard : String) : String :=
  match t.lookup key with
  | some (.string s) => s
  | _ => standard

def ofTable (t : Table) : Except ConfigFault Options :=
  match tableFault? t with
  | some (_, fault) => .error fault
  | none =>
    .ok ⟨textOf t blockTypeKey standard.blockType, textOf t embeddedStartKey standard.embeddedStart⟩

def ofText (text : String) : Except ConfigFault Options :=
  match Toml.parse? text with
  | none => .error .malformed
  | some t => ofTable t

def ofConfig (path : RawText) (text : String) : Except Error Options :=
  (ofText text).mapError (.badConfig path)

def load (files : Files) (path : RawText) : Except Error Options := do
  let text ← (files.text path).mapError (.unreadable path)
  ofConfig path text

def defaultFile : String := "php-sfc.toml"

/-- The file that options are taken from: the one that is asked for, or else the default file of a
directory if it is a file. -/
def selected? (files : Files) (explicit : Option RawText) (dir : RawText) : Option RawText :=
  match explicit with
  | some path => some path
  | none =>
    let candidate := Files.join dir defaultFile
    if files.isFile candidate then some candidate else none

def discover (files : Files) (explicit : Option RawText) (dir : RawText) : Except Error Options :=
  match selected? files explicit dir with
  | some path => load files path
  | none => .ok standard

end Options

end BlockExports
