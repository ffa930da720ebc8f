import BlockExports.Php.Parser.Declaration

/-!
Expressions, by climbing the levels of binding strength.

An expression is an operand followed by whatever continues it and binds no weaker than the level
asked for. Where no operand stands, the reader goes on with a missing one; the token in its place
is passed over unless it looks like the end of a bracket or the start of a statement.
-/

namespace BlockExports.Php.Grammar

open Php.Parser

variable (g : Grammar)

/-! ### Operands -/

/-- A variable whose name is computed: any number of dollar signs before a variable or before an
expression in braces. -/
def computedVariable : Parser Unit := do
  untilDone do
    pure !(← accept .dollar)
  match ← nextKind with
  | some .dollarBrace =>
    skip
    g.anyExpression
    expect .closeBrace
  | _ => expect .variable

/-- The parts of a string up to its closing token, from behind its opening: literal text, expressions
in braces and bare ones. -/
def stringParts (closing : Kind) : Parser Unit :=
  untilDone do
    match ← nextKind with
    | none => failure
    | some .stringPart =>
      skip
      pure false
    | some .openBrace =>
      skip
      inString false g.anyExpression
      expect .closeBrace
      pure false
    | some kind =>
      if kind = closing then
        skip
        pure true
      else
        inString true g.anyExpression
        pure false

/-- An element of an array or a list: unpacked, with a key, plain or left out. -/
def arrayElement : Parser Unit := do
  match ← nextKind with
  | some .comma => pure ()
  | some .ellipsis =>
    skip
    g.anyExpression
  | _ =>
    g.anyExpression
    if ← accept .doubleArrow then g.anyExpression

def arrayElements (closing : Kind) : Parser Unit := do
  let _ ← commaList g.arrayElement closing

def matchArm : Parser Unit := do
  if !(← accept (.keyword .default_)) then
    commaSeparatedBefore (· = .doubleArrow) g.anyExpression
  expect .doubleArrow
  g.anyExpression

/-- Whether a class without a name is made, to judge by the token behind `new`. -/
def startsAnonymousClass (kind : Kind) : Bool :=
  kind = .keyword .class_ || kind = .attribute || (kind.isModifier && kind ≠ .keyword .static)

def instantiation : Parser Unit := do
  if (← nextKind).any startsAnonymousClass then
    g.attributes
    modifiers
    expect (.keyword .class_)
    g.anonymousClass
  else
    let _ ← g.expression .new
    g.optionalArguments

def yielded : Parser Unit := do
  match ← nextKind with
  | some (.keyword .from_) =>
    skip
    let _ ← g.expression .yieldFrom
  | some .semicolon | some .closeTag | some .comma | some .closeParen | some .closeBracket
  | some .closeBrace | none => pure ()
  | _ =>
    let _ ← g.expression .yield
    if ← accept .doubleArrow then
      let _ ← g.expression .yield

/-- A call of `callee`, or what is left of one when an argument is a placeholder. -/
def callOf (callee : Expression) (arguments : List (Option (Passing × Expression))) :
    Expression :=
  if arguments.all Option.isSome then .call callee (arguments.filterMap id) else .other

/-- The arguments of a copy. Unlike those of a call they have to be complete. -/
def copyArguments : Nat → Parser (List (Option (Passing × Expression)))
  | 0 => failure
  | limit + 1 => do
    if ← accept .closeParen then pure []
    else
      let first ← g.argument
      if ← accept .comma then
        let rest ← copyArguments limit
        pure (first :: rest)
      else
        expect .closeParen
        pure [first]

/-- A copy of an object, from behind the keyword; with anything but one argument in parentheses it is
a call. -/
def copy (keyword : Token) : Parser Expression := do
  if ← accept .openParen then
    match ← g.copyArguments ((← ahead) + 1) with
    | [some (.positional, _)] | [some (.named, _)] => pure .other
    | arguments => pure (callOf (.name keyword.text) arguments)
  else
    let _ ← g.expression .clone
    pure .other

/-- Whether a token stands where an expression was looked for and is left in place. -/
def staysInPlace (level : Level) : Kind → Bool
  | .keyword w => w.startsStatement
  | .closeParen | .closeBracket | .closeBrace | .comma => level ≠ .lowest
  | _ => false

def missingOperand (level : Level) (kind : Kind) : Parser Expression := do
  if !staysInPlace level kind then skip
  pure .missing

/-- A word that is a literal, unless what follows makes it a name. -/
def wordLiteral (level : Level) (followed : Option Kind) (literal : Literal) :
    Parser Expression := do
  let t ← take
  match followed with
  | some .openParen => if level = .new then pure (.literal literal) else pure (.name t.text)
  | some .openBracket | some .doubleColon | some .arrow | some .nullsafeArrow =>
    pure (.name t.text)
  | _ => pure (.literal literal)

def operandAt (level : Level) : Parser Expression := do
  skip
  let _ ← g.expression level
  pure .operation

/-- Takes the next token, reads on and keeps nothing. -/
def construct (rest : Parser Unit) : Parser Expression := do
  skip
  rest
  pure .other

def anonymousFunction : Parser Unit := do
  let first ← nextKind
  let second ← kindAt 1
  let isStatic := first = some (.keyword .static)
  match if isStatic then second else first with
  | some (.keyword .fn) =>
    if isStatic then skip
    skip
    g.arrowFunction
  | some (.keyword .function) =>
    if isStatic then skip
    skip
    g.closure
  | _ => failure

/-- A word that starts no expression. In a string without braces it is a name. -/
def strayWord (level : Level) (w : Keyword) : Parser Expression := do
  if (← get).bare then pure (.name (← take).text)
  else missingOperand level (.keyword w)

def wordOperand (level : Level) (followed : Option Kind) (w : Keyword) : Parser Expression := do
  match w with
  | .true_ | .false_ => wordLiteral level followed .boolean
  | .null => wordLiteral level followed .null
  | .array =>
    if followed = some .openParen then
      skip
      skip
      g.arrayElements .closeParen
      pure .array
    else strayWord level w
  | .list =>
    if followed = some .openParen then construct do skip; g.arrayElements .closeParen
    else pure (.name (← take).text)
  | .match_ =>
    if followed = some .openParen then
      construct do
        g.condition
        expect .openBrace
        let _ ← commaList g.matchArm .closeBrace
    else pure (.name (← take).text)
  | .static =>
    match followed with
    | some (.keyword .fn) | some (.keyword .function) =>
      g.anonymousFunction
      pure .other
    | _ => construct (pure ())
  | .fn | .function =>
    if (← get).bare then pure (.name (← take).text)
    else
      g.anonymousFunction
      pure .other
  | .self_ | .parent | .magicConstant => construct (pure ())
  | .enum | .from_ | .readonly => pure (.name (← take).text)
  | .isset =>
    construct do
      expect .openParen
      let _ ← commaList g.anyExpression .closeParen
  | .empty | .eval => construct g.condition
  | .includeFile | .throw_ => construct g.anyExpression
  | .print => construct do let _ ← g.expression .print
  | .exit | .die => construct g.optionalArguments
  | .yield => construct g.yielded
  | .new => construct g.instantiation
  | .clone => g.copy (← take)
  | .unset => failure
  | _ => strayWord level w

/-- The first part of an expression. It is read only when the token behind its first one can be
read, whether that token belongs to it or not. -/
def operand (level : Level) : Parser Expression := do
  match ← peekAt 0 with
  | none => failure
  | some t =>
    let followed ← kindAt 1
    match t.kind with
    | .variable =>
      skip
      pure (.variable ⟨t.text, t.start⟩)
    | .name =>
      skip
      pure (.name t.text)
    | .qualified =>
      skip
      if (← get).bare then failure else pure (.name t.text)
    | .string =>
      skip
      pure (.literal .string)
    | .number =>
      skip
      pure (.literal .number)
    | .openString =>
      skip
      failure
    | .keyword w => g.wordOperand level followed w
    | .dollar | .dollarBrace =>
      g.computedVariable
      pure .other
    | .openParen =>
      skip
      let inner ← g.expression .lowest
      expect .closeParen
      pure (.parenthesized inner)
    | .openBracket =>
      skip
      g.arrayElements .closeBracket
      pure .array
    | .quote => construct (g.stringParts .quote)
    | .backtick => construct (g.stringParts .backtick)
    | .documentStart => construct (g.stringParts .documentEnd)
    | .attribute =>
      g.attributes
      g.anonymousFunction
      pure .other
    | .bang | .tilde | .plus | .minus | .cast => g.operandAt .unary
    | .silencer => g.operandAt .silence
    | .ampersand => g.operandAt .reference
    | .step =>
      skip
      let _ ← g.expression .step
      pure .other
    | kind => missingOperand level kind

/-! ### Continuations -/

/-- A member's name behind an arrow or a double colon; it may be left out. -/
def selector : Parser Unit := do
  match ← nextKind with
  | some .variable | some .dollar | some .dollarBrace => g.computedVariable
  | some .openBrace =>
    skip
    g.anyExpression
    expect .closeBrace
  | some kind => if kind.isWord then skip
  | none => pure ()

/-- The arguments of a method, if they are there. While something stronger than a call is read, they
are left to what is outside. -/
def methodArguments (level : Level) (kind : Kind) : Parser Unit := do
  if level.weaker .call then
    if kind = .nullsafeArrow then g.optionalArguments
    else if (← nextKind) = some .openParen then
      let _ ← g.arguments

/-- Continues an expression by a call, an index, a member or a step, within an expression that binds
no weaker than `level`. -/
def suffixed (level : Level) (left : Expression) (kind : Kind) : Parser Expression := do
  match kind with
  | .openParen => pure (callOf left (← g.arguments))
  | .openBracket =>
    construct do
      if !(← accept .closeBracket) then
        g.anyExpression
        expect .closeBracket
  | .step => construct (pure ())
  | _ =>
    construct do
      g.selector
      g.methodArguments level kind

def joined (left : Expression) (kind : Kind) (level : Level) : Parser Expression := do
  match kind with
  | .assign =>
    skip
    if ← accept .ampersand then
      let _ ← g.expression .reference
      pure (left.assign .operation)
    else
      let value ← g.expression .assignment
      pure (left.assign value)
  | .compoundAssign =>
    skip
    let value ← g.expression .assignment
    pure (left.assign value)
  | .question =>
    if (← kindAt 1) = some .colon then
      skip
      skip
    else
      skip
      g.anyExpression
      expect .colon
    let _ ← g.expression level
    pure .operation
  | _ =>
    skip
    let _ ← g.expression level
    pure (if level = .pipe then .other else .operation)

/-- Continues an expression as long as the next token binds no weaker than `level`. -/
def continued (level : Level) : Nat → Expression → Parser Expression
  | 0, left => pure left
  | limit + 1, left => do
    match ← nextKind with
    | none => pure left
    | some kind =>
      match kind.suffixLevel?, kind.binaryLevel? with
      | some suffix, _ =>
        if suffix.weaker level || (kind = .openParen && left matches .missing) then pure left
        else continued level limit (← g.suffixed level left kind)
      | none, some binary =>
        if binary.stopsAt level then pure left
        else continued level limit (← g.joined left kind binary)
      | none, none => pure left

/-- An expression that binds no weaker than `level`. -/
def expressionAt (level : Level) : Parser Expression :=
  nested do
    let left ← g.operand level
    g.continued level (← ahead) left

end BlockExports.Php.Grammar
