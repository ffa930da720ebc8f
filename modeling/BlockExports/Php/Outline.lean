/-!
The outline of a PHP program: its statements, told apart only as far as an export list needs.

A statement is an expression statement or something else. Of an expression the outline keeps
variables, literals, assignments, calls of functions and parentheses; every other form is only
known not to be one of these.
-/

namespace BlockExports.Php

/-- A variable as it stands in the text, its dollar sign included, and the byte offset of its first
character. -/
structure Variable where
  text : String
  start : Nat
  deriving DecidableEq, Repr

inductive Literal where
  | string | number | boolean | null
  deriving DecidableEq, Repr

/-- How a value is handed to a function: by its place, unpacked from a list, or by a name. -/
inductive Passing where
  | positional | spread | named
  deriving DecidableEq, Repr

inductive Expression where
  | variable (v : Variable)
  | literal (l : Literal)
  | array
  | assignment (target value : Expression)
  /-- a name that stands alone or is called -/
  | name (text : String)
  | call (callee : Expression) (arguments : List (Passing × Expression))
  | parenthesized (inner : Expression)
  /-- an operator applied to operands, the last of which takes in an assignment that follows -/
  | operation
  /-- a place where no expression stands -/
  | missing
  | other
  deriving Repr

namespace Expression

/-- The expression inside all enclosing parentheses. -/
def stripped : Expression → Expression
  | parenthesized inner => inner.stripped
  | e => e

/-- Assigns to an expression that was read already. An operation passes the assignment on to its
last operand and stays an operation. -/
def assign (target value : Expression) : Expression :=
  match target with
  | operation => operation
  | _ => assignment target value

@[simp] theorem stripped_parenthesized (e : Expression) :
    (parenthesized e).stripped = e.stripped := rfl

@[simp] theorem stripped_stripped (e : Expression) : e.stripped.stripped = e.stripped := by
  fun_induction stripped e with
  | case1 inner ih => exact ih
  | case2 e h => exact stripped.eq_2 e h

end Expression

inductive Statement where
  | expression (e : Expression)
  | other
  deriving Repr

/-- The top-level statements of a program, in order. -/
abbrev Program := List Statement

end BlockExports.Php
