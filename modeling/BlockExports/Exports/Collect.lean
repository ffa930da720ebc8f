import BlockExports.Php.Program
import BlockExports.Exports.Category

/-!
The exported variables of a program.

Top-level assignments and bare variables bind names; the first binding of a name wins. A call of
`export` names variables, before or after they are bound. What is bound and exported is the result,
in the order of the bindings.
-/

namespace BlockExports

open Php

/-- The first binding of a variable: its name without the dollar sign, the byte offset of the name
in its fragment, and the type that the binding implies. -/
structure Binding where
  name : String
  offset : UInt32
  type : String
  deriving DecidableEq, Repr

/-- The name of a variable, without the dollar sign that it must start with. -/
def Php.Variable.name? (v : Variable) : Option String :=
  match v.text.toList with
  | '$' :: cs => some (String.ofList cs)
  | _ => none

/-- The byte offset of a variable's name in a fragment that starts at `base`. -/
def Php.Variable.nameOffset (v : Variable) (base : UInt32) : UInt32 :=
  UInt32.ofNat (v.start - base.toNat) + 1

/-- What is known after some statements: the bindings in order, and the exported names. -/
structure Collection where
  bindings : List Binding
  exported : List String
  deriving DecidableEq, Repr

namespace Collection

def empty : Collection := ⟨[], []⟩

/-- The function that marks variables as exported. -/
def marker : String := "export"

/-- Records a binding, unless its variable has one already. -/
def bind (c : Collection) (base : UInt32) (v : Variable) (type : String) : Collection :=
  match v.name? with
  | none => c
  | some name =>
    if name = "" ∨ c.bindings.any (·.name = name) then c
    else { c with bindings := c.bindings ++ [⟨name, v.nameOffset base, type⟩] }

/-- The variable that an argument exports: only one handed over by its place does. -/
def exportedName? : Passing × Expression → Option String
  | (.positional, e) => e.asVariable?.bind (·.name?)
  | _ => none

def visit (base : UInt32) (c : Collection) : Statement → Collection
  | .other => c
  | .expression e =>
    match e.asAssignment? with
    | some (target, value) =>
      match target.asVariable? with
      | some v => c.bind base v value.inferredType
      | none => c
    | none =>
      match e.asVariable? with
      | some v => c.bind base v Expression.unknownType
      | none =>
        match e.asCall? with
        | some (callee, arguments) =>
          if callee.calleeName? = some marker then
            { c with exported := c.exported ++ arguments.filterMap exportedName? }
          else c
        | none => c

def result (c : Collection) : List Binding :=
  c.bindings.filter (fun b => c.exported.contains b.name)

end Collection

/-- The exported variables of a program whose fragment starts at the byte offset `base`. -/
def collect (program : Program) (base : UInt32) : List Binding :=
  (program.foldl (Collection.visit base) .empty).result

/-- What stands before a fragment to make it a PHP text. -/
def prologue : String := "<?php "

def prologueLength : UInt32 := 6

def parseFragment (fragment : String) : Program := Program.parse (prologue ++ fragment)

/-- The exported variables of a fragment; there are none where reading it breaks off. -/
def analyze [Reader] (fragment : String) : List Binding :=
  match Reader.read (prologue ++ fragment) with
  | some program => collect program prologueLength
  | none => []

theorem analyze_eq_collect (fragment : String) :
    analyze fragment = collect (parseFragment fragment) prologueLength := rfl

end BlockExports
