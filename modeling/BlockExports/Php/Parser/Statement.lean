import BlockExports.Php.Parser.Expression

/-!
Statements.

The first token decides what a statement is. Blocks recover from mistakes inside of them; the bodies
of the colon forms, of switches and single-statement bodies do not, so that a mistake there is one of
the outer statement.
-/

namespace BlockExports.Php.Grammar

open Php.Parser

variable (g : Grammar)

def expressionStatement : Parser Statement := do
  let e ← g.expression .lowest
  terminator
  pure (.expression e)

def values : Parser Unit := do
  commaSeparatedBefore endsStatement g.anyExpression
  terminator

def optionalResult : Parser Unit := do
  if !(← nextKind).any endsStatement then g.anyExpression
  terminator

/-! ### Branches and loops -/

def colonBody (closing : Keyword) : Parser Unit := do
  g.statementsBefore (· = .keyword closing)
  expect (.keyword closing)
  terminator

def body (closing : Keyword) : Parser Unit := do
  if ← accept .colon then g.colonBody closing
  else
    let _ ← g.statement

def endsBranch (kind : Kind) : Bool :=
  kind = .keyword .elseif || kind = .keyword .else_ || kind = .keyword .endif

def colonBranches : Parser Unit := do
  g.statementsBefore endsBranch
  untilDone do
    if ← accept (.keyword .elseif) then
      g.condition
      expect .colon
      g.statementsBefore endsBranch
      pure false
    else pure true
  if ← accept (.keyword .else_) then
    expect .colon
    g.statementsBefore (· = .keyword .endif)
  expect (.keyword .endif)
  terminator

def branches : Parser Unit := do
  let _ ← g.statement
  untilDone do
    if ← accept (.keyword .elseif) then
      g.condition
      let _ ← g.statement
      pure false
    else pure true
  if ← accept (.keyword .else_) then
    let _ ← g.statement

def ifStatement : Parser Unit := do
  g.condition
  if ← accept .colon then g.colonBranches else g.branches

def whileStatement : Parser Unit := do
  g.condition
  g.body .endwhile

def doStatement : Parser Unit := do
  let _ ← g.statement
  expect (.keyword .while_)
  g.condition
  terminator

def expressionsUntil (closing : Kind) : Parser Unit := do
  commaSeparatedBefore (· = closing) g.anyExpression
  expect closing

def forStatement : Parser Unit := do
  expect .openParen
  g.expressionsUntil .semicolon
  g.expressionsUntil .semicolon
  g.expressionsUntil .closeParen
  g.body .endfor

def foreachStatement : Parser Unit := do
  expect .openParen
  g.anyExpression
  expect (.keyword .as_)
  g.anyExpression
  if ← accept .doubleArrow then g.anyExpression
  expect .closeParen
  g.body .endforeach

def endsCase (kind : Kind) : Bool :=
  kind = .keyword .case_ || kind = .keyword .default_ || kind = .keyword .endswitch
    || kind = .closeBrace

/-- The colon or semicolon behind a case. Another token is taken all the same. -/
def caseSeparator : Parser Unit :=
  takeWhich (fun kind => kind = .colon || kind = .semicolon)

def cases (closing : Kind) : Parser Unit := do
  if (← nextKind).any endsStatement then terminator
  untilDone do
    match ← nextKind with
    | some (.keyword .case_) =>
      skip
      g.anyExpression
      caseSeparator
      g.statementsBefore endsCase
      pure false
    | some (.keyword .default_) =>
      skip
      caseSeparator
      g.statementsBefore endsCase
      pure false
    | _ => pure true
  expect closing

def switchStatement : Parser Unit := do
  g.condition
  if ← accept .colon then
    g.cases (.keyword .endswitch)
    terminator
  else
    expect .openBrace
    g.cases .closeBrace

def tryStatement : Parser Unit := do
  g.block
  untilDone do
    if ← accept (.keyword .catch_) then
      expect .openParen
      anyType
      let _ ← accept .variable
      expect .closeParen
      g.block
      pure false
    else pure true
  if ← accept (.keyword .finally_) then g.block

/-! ### Declarations -/

def declareStatement : Parser Unit := do
  expect .openParen
  commaSeparatedBefore (· = .closeParen) do
    word
    expect .assign
    g.anyExpression
  expect .closeParen
  g.body .enddeclare

/-- A namespace: a block, or everything up to the next namespace. -/
def namespaceStatement : Parser Unit := do
  match ← nextKind with
  | some .openBrace | some .semicolon | some .closeTag => pure ()
  | _ => anyName
  if (← nextKind) = some .openBrace then g.block
  else
    terminator
    untilDone do
      match ← nextKind with
      | none | some (.keyword .namespace_) => pure true
      | some _ =>
        let _ ← g.tolerantStatement
        pure false

def importedName : Parser Unit := do
  anyName
  if ← accept (.keyword .as_) then word

/-- The words that say whether functions or constants are imported. -/
def isImportKind (kind : Kind) : Bool := kind = .keyword .function || kind = .keyword .const

def importedGroup (item : Parser Unit) : Parser Unit := do
  anyName
  expect .backslash
  expect .openBrace
  commaSeparatedBefore (· = .closeBrace) item
  expect .closeBrace

/-- Imports, from behind the keyword. Whether they are a group is seen by the token behind the first
name. In a group of functions or of constants the names cannot be told apart once more. -/
def useStatement : Parser Unit := do
  let typed := (← nextKind).any isImportKind
  let grouped := (← kindAt (if typed then 2 else 1)) = some .backslash
  if typed then skip
  if !grouped then commaSeparatedBefore endsStatement importedName
  else if typed then importedGroup importedName
  else
    importedGroup do
      if (← nextKind).any isImportKind then skip
      importedName
  terminator

def globalStatement : Parser Unit := do
  commaSeparatedBefore endsStatement g.computedVariable
  terminator

def staticStatement : Parser Unit := do
  commaSeparatedBefore endsStatement do
    expect .variable
    g.optionalValue
  terminator

def unsetStatement : Parser Unit := do
  expect .openParen
  g.expressionsUntil .closeParen
  terminator

def haltStatement : Parser Unit := do
  expect .openParen
  expect .closeParen
  terminator

def qualifiedClass : Parser Unit := do
  modifiers
  expect (.keyword .class_)
  g.namedClass

/-- The tokens behind a modifier that make it the start of an expression. -/
def continuesWord : Kind → Bool
  | .doubleColon | .openParen | .arrow | .nullsafeArrow | .openBracket => true
  | .keyword .fn | .keyword .function => true
  | _ => false

/-- Takes the keyword, reads on and keeps nothing. -/
def statementOf (rest : Parser Unit) : Parser Statement := do
  skip
  rest
  pure .other

/-- A function without a name as a statement of its own, which nothing continues. -/
def anonymousStatement : Parser Statement := do
  g.anonymousFunction
  terminator
  pure (.expression .other)

def functionStatement : Parser Statement := do
  let first ← kindAt 1
  let second ← kindAt 2
  if first = some .openParen || (first = some .ampersand && second = some .openParen) then
    g.anonymousStatement
  else statementOf g.function

def declaration? (w : Keyword) : Option (Parser Statement) :=
  match w with
  | .class_ => some (statementOf g.namedClass)
  | .interface => some (statementOf g.interface)
  | .trait => some (statementOf g.trait)
  | .enum => some (statementOf g.enumeration)
  | .const => some (statementOf g.constants)
  | .function => some g.functionStatement
  | _ => none

/-- A statement behind attributes: only declarations and functions without a name may follow. -/
def attributedStatement : Parser Statement := do
  g.attributes
  let first ← nextKind
  let second ← kindAt 1
  match first with
  | some (.keyword w) =>
    if w = .fn || (w = .static && (second = some (.keyword .fn)
        || second = some (.keyword .function))) then
      g.anonymousStatement
    else
      match g.declaration? w with
      | some declaration => declaration
      | none =>
        if w.isModifier then
          g.qualifiedClass
          pure .other
        else failure
  | _ => failure

/-- A statement that is not told by its first word: a label or an expression. -/
def plainStatement (kind : Kind) : Parser Statement := do
  if ← isLabel kind then statementOf skip
  else g.expressionStatement

def wordStatement (w : Keyword) : Parser Statement := do
  match w with
  | .declare => statementOf g.declareStatement
  | .namespace_ => statementOf g.namespaceStatement
  | .use_ => statementOf useStatement
  | .return_ | .continue_ | .break_ => statementOf g.optionalResult
  | .global_ => statementOf g.globalStatement
  | .haltCompiler => statementOf haltStatement
  | .if_ => statementOf g.ifStatement
  | .switch => statementOf g.switchStatement
  | .foreach => statementOf g.foreachStatement
  | .for_ => statementOf g.forStatement
  | .while_ => statementOf g.whileStatement
  | .do_ => statementOf g.doStatement
  | .unset => statementOf g.unsetStatement
  | .try_ => statementOf g.tryStatement
  | .echo => statementOf g.values
  | .goto => statementOf do word; terminator
  | _ =>
    match g.declaration? w with
    | some declaration => declaration
    | none =>
      if w.isModifier then
        let followed ← kindAt 1
        if w = .static && followed = some .variable then statementOf g.staticStatement
        else if followed.any continuesWord then g.expressionStatement
        else
          g.qualifiedClass
          pure .other
      else g.plainStatement (.keyword w)

def anyStatement : Parser Statement := do
  match ← nextKind with
  | none => failure
  | some .openTag | some .closeTag | some .inlineText | some .semicolon =>
    statementOf (pure ())
  | some .echoTag => statementOf g.values
  | some .attribute => g.attributedStatement
  | some .openBrace =>
    g.block
    pure .other
  | some (.keyword w) => g.wordStatement w
  | some kind => g.plainStatement kind

end BlockExports.Php.Grammar
