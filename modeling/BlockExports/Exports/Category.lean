import BlockExports.Php.Outline

/-!
Which category an expression belongs to, and the type that its category gives a member.

Enclosing parentheses never count. Each category has a test of its own; `category?` asks them in
turn.
-/

namespace BlockExports.Php

/-- The categories that an export list tells apart. -/
inductive Category where
  | assignment | call | variable | string | number | boolean | null | array
  deriving DecidableEq, Repr

namespace Expression

/-- The two sides of an assignment, whatever its operator. -/
def asAssignment? (e : Expression) : Option (Expression × Expression) :=
  match e.stripped with
  | assignment target value => some (target, value)
  | _ => none

def asCall? (e : Expression) : Option (Expression × List (Passing × Expression)) :=
  match e.stripped with
  | call callee arguments => some (callee, arguments)
  | _ => none

def asVariable? (e : Expression) : Option Variable :=
  match e.stripped with
  | .variable v => some v
  | _ => none

def asLiteral? (e : Expression) : Option Literal :=
  match e.stripped with
  | literal l => some l
  | _ => none

def isString (e : Expression) : Bool := e.asLiteral? = some .string

def isNumber (e : Expression) : Bool := e.asLiteral? = some .number

def isBoolean (e : Expression) : Bool := e.asLiteral? = some .boolean

def isNull (e : Expression) : Bool := e.asLiteral? = some .null

def isArray (e : Expression) : Bool :=
  match e.stripped with
  | array => true
  | _ => false

/-- The name that a callee is written as; parentheses around it hide it. -/
def calleeName? : Expression → Option String
  | name text => some text
  | _ => none

def hasCategory (e : Expression) : Category → Bool
  | .assignment => e.asAssignment?.isSome
  | .call => e.asCall?.isSome
  | .variable => e.asVariable?.isSome
  | .string => e.isString
  | .number => e.isNumber
  | .boolean => e.isBoolean
  | .null => e.isNull
  | .array => e.isArray

/-- The category of an expression: the first one whose test holds. -/
def category? (e : Expression) : Option Category :=
  if e.asAssignment?.isSome then some .assignment
  else if e.asCall?.isSome then some .call
  else if e.asVariable?.isSome then some .variable
  else if e.isString then some .string
  else if e.isNumber then some .number
  else if e.isBoolean then some .boolean
  else if e.isNull then some .null
  else if e.isArray then some .array
  else none

/-- The type of anything that is not a literal. -/
def unknownType : String := "unknown"

/-- The type of a member that is initialized by this expression. -/
def inferredType (e : Expression) : String :=
  match e.category? with
  | some .string => "string"
  | some .number => "number"
  | some .boolean => "boolean"
  | some .null => "null"
  | some .array => "unknown[]"
  | _ => unknownType

end Expression

end BlockExports.Php
