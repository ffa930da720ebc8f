import BlockExports.Php.Parser.Basic

/-!
What functions and classes are declared with: arguments, attributes, types, parameters and members.

The outline keeps only the arguments of calls; of everything else it matters where it ends. What a
keyword starts is read from behind the keyword, while parentheses and braces belong to what they
enclose.
-/

namespace BlockExports.Php.Grammar

open Php.Parser

variable (g : Grammar)

/-! ### Arguments -/

/-- One argument where no placeholder may stand. -/
def plainArgument : Parser (Passing × Expression) := do
  match ← nextKind with
  | some .ellipsis =>
    skip
    pure (.spread, ← g.expression .lowest)
  | some kind =>
    if ← isLabel kind then
      skip
      skip
      pure (.named, ← g.expression .lowest)
    else pure (.positional, ← g.expression .lowest)
  | none => failure

/-- One argument of a call; `none` for a placeholder, which leaves the call unfinished. -/
def argument : Parser (Option (Passing × Expression)) := do
  match ← nextKind with
  | some .ellipsis =>
    match ← kindAt 1 with
    | some .comma | some .closeParen | none =>
      skip
      pure none
    | _ => pure (some (← g.plainArgument))
  | some .question =>
    skip
    pure none
  | some kind =>
    if ← isLabel kind then
      skip
      skip
      if ← accept .question then pure none
      else pure (some (.named, ← g.expression .lowest))
    else pure (some (.positional, ← g.expression .lowest))
  | none => failure

def arguments : Parser (List (Option (Passing × Expression))) := do
  expect .openParen
  commaList g.argument .closeParen

def optionalArguments : Parser Unit := do
  if ← accept .openParen then
    let _ ← commaList g.plainArgument .closeParen

def attributes : Parser Unit :=
  untilDone do
    if ← accept .attribute then
      let _ ← commaList (do anyName; g.optionalArguments) .closeBracket
      pure false
    else pure true

/-! ### Types -/

def startsType : Kind → Bool
  | .question | .openParen | .name | .qualified => true
  | .keyword .array | .keyword .callable | .keyword .enum | .keyword .false_ | .keyword .from_
  | .keyword .null | .keyword .parent | .keyword .self_ | .keyword .static
  | .keyword .true_ => true
  | _ => false

/-- A type: names joined by bars and ampersands, some of them in parentheses or behind a question
mark. An ampersand before a variable belongs to the parameter. -/
def type : Nat → Parser Unit
  | 0 => failure
  | limit + 1 => do
    unit limit
    untilDone do
      match ← nextKind with
      | some .bar =>
        skip
        unit limit
        pure false
      | some .ampersand =>
        match ← kindAt 1 with
        | some .variable | some .ellipsis | some .ampersand => pure true
        | _ =>
          skip
          unit limit
          pure false
      | _ => pure true
where
  unit (limit : Nat) : Parser Unit := do
    match ← nextKind with
    | some .question =>
      skip
      type limit
    | some .openParen =>
      skip
      type limit
      expect .closeParen
    | some kind => if startsType kind then skip else failure
    | none => failure

def anyType : Parser Unit := do
  type ((← ahead) + 1)

def optionalReturnType : Parser Unit := do
  if ← accept .colon then anyType

def modifiers : Parser Unit :=
  untilDone do
    match ← nextKind with
    | some kind =>
      if kind.isModifier then
        skip
        pure false
      else pure true
    | none => pure true

def optionalValue : Parser Unit := do
  if ← accept .assign then g.anyExpression

/-! ### Parameters -/

/-- A parameter list that may hold accessors again, told how to read accessors. -/
def parametersWith (accessors : Parser Unit) : Parser Unit := do
  expect .openParen
  let _ ← commaList (parameter accessors) .closeParen
where
  parameter (accessors : Parser Unit) : Parser Unit := do
    g.attributes
    modifiers
    if (← nextKind).any startsType then anyType
    let _ ← accept .ampersand
    let _ ← accept .ellipsis
    expect .variable
    g.optionalValue
    if (← nextKind) = some .openBrace then accessors

def accessors : Nat → Parser Unit
  | 0 => failure
  | limit + 1 => do
    expect .openBrace
    untilDone do
      if ← accept .closeBrace then pure true
      else
        accessor (accessors limit)
        pure false
where
  accessor (inner : Parser Unit) : Parser Unit := do
    g.attributes
    let _ ← accept .ampersand
    modifiers
    word
    if (← nextKind) = some .openParen then g.parametersWith inner
    match ← nextKind with
    | some .openBrace => g.block
    | some .doubleArrow =>
      skip
      g.anyExpression
      expect .semicolon
    | _ => expect .semicolon

def anyAccessors : Parser Unit := do
  g.accessors ((← ahead) + 1)

def parameters : Parser Unit := g.parametersWith g.anyAccessors

/-! ### Classes -/

def constants : Parser Unit := do
  commaSeparatedBefore endsStatement do
    word
    expect .assign
    g.anyExpression
  terminator

/-- A constant of a class, from behind its keyword; a type may stand before the name. -/
def memberConstants : Parser Unit := do
  if (← kindAt 1) ≠ some .assign then anyType
  g.constants

def method : Parser Unit := do
  let _ ← accept .ampersand
  word
  g.parameters
  optionalReturnType
  if (← nextKind) = some .openBrace then g.block else expect .semicolon

def property : Parser Unit := do
  if (← nextKind).any startsType then anyType
  expect .variable
  g.optionalValue
  if (← nextKind) = some .openBrace then g.anyAccessors
  else
    if ← accept .comma then
      commaSeparated do
        expect .variable
        g.optionalValue
    terminator

/-- One rule of a trait use: a method that is preferred or renamed. Only a method with its trait can
be preferred. -/
def adaptation : Parser Unit := do
  if (← kindAt 1) = some .doubleColon then
    anyName
    skip
    word
    if ← accept (.keyword .insteadof) then commaSeparatedBefore endsStatement anyName
    else renamed
  else
    word
    renamed
  terminator
where
  renamed : Parser Unit := do
    expect (.keyword .as_)
    match ← nextKind with
    | some (.keyword .public_) | some (.keyword .protected_) | some (.keyword .private_) => skip
    | _ => pure ()
    if (← nextKind).any Kind.isWord then skip

def traitUse : Parser Unit := do
  commaSeparatedBefore (fun kind => kind = .openBrace || endsStatement kind) anyName
  if ← accept .openBrace then
    untilDone do
      if ← accept .closeBrace then pure true
      else
        adaptation
        pure false
  else terminator

def classMember : Parser Unit := do
  g.attributes
  match ← nextKind with
  | some (.keyword .use_) =>
    skip
    traitUse
  | some (.keyword .case_) =>
    skip
    word
    g.optionalValue
    terminator
  | _ =>
    modifiers
    match ← nextKind with
    | some (.keyword .const) =>
      skip
      g.memberConstants
    | some (.keyword .function) =>
      skip
      g.method
    | some (.keyword .var) =>
      skip
      g.property
    | _ => g.property

/-- Members between braces, each of which may fail. -/
def classBody : Parser Unit := do
  expect .openBrace
  untilDone do
    match ← nextKind with
    | none => failure
    | some .closeBrace =>
      skip
      pure true
    | some _ =>
      let _ ← advancing (recovering g.classMember)
      pure false

def optionalNames (keyword : Keyword) : Parser Unit := do
  if ← accept (.keyword keyword) then commaSeparated anyName

def classTail : Parser Unit := do
  optionalNames .extends_
  optionalNames .implements
  g.classBody

def namedClass : Parser Unit := do
  word
  g.classTail

def interface : Parser Unit := do
  word
  optionalNames .extends_
  g.classBody

def trait : Parser Unit := do
  word
  g.classBody

def enumeration : Parser Unit := do
  word
  optionalReturnType
  optionalNames .implements
  g.classBody

def anonymousClass : Parser Unit := do
  g.optionalArguments
  g.classTail

def function : Parser Unit := do
  let _ ← accept .ampersand
  word
  g.parameters
  optionalReturnType
  g.block

def closure : Parser Unit := do
  let _ ← accept .ampersand
  g.parameters
  if ← accept (.keyword .use_) then
    expect .openParen
    commaSeparatedBefore (· = .closeParen) do
      let _ ← accept .ampersand
      expect .variable
    expect .closeParen
  optionalReturnType
  g.block

def arrowFunction : Parser Unit := do
  let _ ← accept .ampersand
  g.parameters
  optionalReturnType
  expect .doubleArrow
  g.anyExpression

end BlockExports.Php.Grammar
