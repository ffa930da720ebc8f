import BlockExports.Php.Token.Stream
import BlockExports.Php.Outline

/-!
Reading an outline from a stream of tokens.

A parser moves a `Cursor` along the stream and may fail. Failing does not move the cursor back:
what was taken stays taken, and whoever recovers goes on from there. Everything that is tolerant of
mistakes in this reader rests on that rule, on `recovering`, and on two constructs that may be left
unfinished: the `terminator` of a statement and the end of a `commaList`. Where a list of statements
or members could stop moving, `advancing` passes over a token.
-/

namespace BlockExports.Php

structure Cursor where
  items : List Item
  /-- the size of the whole stream -/
  size : Nat
  /-- the byte offset just behind the last token that was taken -/
  position : Nat
  /-- the number of expressions around this place -/
  depth : Nat
  /-- whether this is an expression that stands in a string without braces -/
  bare : Bool
  deriving DecidableEq, Repr

def Cursor.start (items : List Item) : Cursor := ⟨items, items.length, 0, 0, false⟩

inductive Sight where
  | token (t : Token)
  | ending
  | unreadable
  deriving DecidableEq, Repr

/-- Looks at the token `n` places ahead. Unreadable text and gaps on the way there are noticed once
and then gone from the stream. -/
def look : Nat → List Item → Sight × List Item
  | _, [] => (.ending, [])
  | _, .unreadable :: rest => (.unreadable, rest)
  | _, .gap :: rest => (.ending, rest)
  | 0, .token t :: rest => (.token t, .token t :: rest)
  | n + 1, .token t :: rest => ((look n rest).1, .token t :: (look n rest).2)

/-- A parser keeps the cursor where it got to, also when it fails. -/
abbrev Parser := OptionT (StateM Cursor)

namespace Parser

variable {α : Type}

/-- The token `n` places ahead, if there is one; fails at unreadable text. -/
def peekAt (n : Nat) : Parser (Option Token) := do
  let c ← get
  let (sight, items) := look n c.items
  set { c with items }
  match sight with
  | .token t => pure (some t)
  | .ending => pure none
  | .unreadable => failure

def kindAt (n : Nat) : Parser (Option Kind) := do
  pure ((← peekAt n).map (·.kind))

def nextKind : Parser (Option Kind) := kindAt 0

/-- Whether the next token, of the given kind, is a word with a colon behind it. -/
def isLabel (kind : Kind) : Parser Bool := do
  if kind.isWord then pure ((← kindAt 1) = some .colon) else pure false

/-- Takes the next token; fails when there is none. -/
def take : Parser Token := do
  match ← peekAt 0 with
  | some t =>
    modify fun c => { c with items := c.items.tail, position := t.stop }
    pure t
  | none => failure

def skip : Parser Unit := do
  let _ ← take

/-- Takes a token of the given kind, and fails at any other without taking it. -/
def expect (kind : Kind) : Parser Unit := do
  if (← nextKind) = some kind then skip else failure

/-- Takes a token of the given kind if it is next. -/
def accept (kind : Kind) : Parser Bool := do
  if (← nextKind) = some kind then
    skip
    pure true
  else pure false

/-- Takes the next token and fails unless it has the property. -/
def takeWhich (property : Kind → Bool) : Parser Unit := do
  let t ← take
  if property t.kind then pure () else failure

/-- Carries on after a failure, from the place where it happened. -/
def recovering (p : Parser α) : Parser (Option α) := fun c =>
  let (result, c) := p c
  (some result, c)

/-- Passes over a token when a parser has not moved. A token without text is no move. -/
def advancing (p : Parser α) : Parser α := do
  let before := (← get).position
  let result ← p
  if (← get).position = before then
    let _ ← recovering take
  pure result

/-- An upper bound for the number of tokens ahead. -/
def ahead : Parser Nat := do
  pure (← get).size

/-- Runs a parser again and again, until it says that it is done; fails after `limit` rounds. -/
def loop (round : Parser Bool) : Nat → Parser Unit
  | 0 => failure
  | limit + 1 => do
    if ← round then pure () else loop round limit

/-- Runs a parser until it says that it is done, where every round but the last takes a token. -/
def untilDone (round : Parser Bool) : Parser Unit := do
  loop round ((← ahead) + 1)

/-- Elements with commas between them, ended by any other token. -/
def commaSeparated (element : Parser Unit) : Parser Unit :=
  untilDone do
    element
    pure !(← accept .comma)

/-- Elements with commas between them up to a token that ends the list. The list may be empty, and a
comma may stand before its end. -/
def commaSeparatedBefore (stop : Kind → Bool) (element : Parser Unit) : Parser Unit :=
  untilDone do
    if (← nextKind).any stop then pure true
    else
      element
      pure !(← accept .comma)

/-- The elements of a comma list up to its closing token. An element that fails is left out. After
an element, a token that is neither a comma nor the closing one ends the list as if the closing one
stood before it; the end of the text does not. -/
def commaListFrom (element : Parser α) (closing : Kind) : Nat → Parser (List α)
  | 0 => failure
  | limit + 1 => do
    match ← nextKind with
    | none => failure
    | some kind =>
      if kind = closing then
        skip
        pure []
      else
        let first ← recovering element
        match ← nextKind with
        | none => failure
        | some .comma =>
          skip
          let rest ← commaListFrom element closing limit
          pure (first.toList ++ rest)
        | some kind =>
          if kind = closing then skip
          pure first.toList

def commaList (element : Parser α) (closing : Kind) : Parser (List α) := do
  commaListFrom element closing ((← ahead) + 1)

def endsStatement (kind : Kind) : Bool := kind = .semicolon || kind = .closeTag

/-- The end of a statement: a semicolon, or a closing tag with an opening tag right behind it. Any
other token ends the statement as if a semicolon stood before it; the end of the text does not. -/
def terminator : Parser Unit := do
  match ← nextKind with
  | some .semicolon => skip
  | some .closeTag =>
    skip
    let _ ← accept .openTag
  | some _ => pure ()
  | none => failure

/-- More expressions than these around one another are refused. -/
def depthLimit : Nat := 512

/-- Reads one level deeper, unless that is too deep. -/
def nested (p : Parser α) : Parser α := fun c =>
  if c.depth < depthLimit then
    let (result, c') := p { c with depth := c.depth + 1 }
    (result, { c' with depth := c.depth })
  else (none, c)

/-- Reads an expression of a string, where `bare` tells that no braces are around it. -/
def inString (bare : Bool) (p : Parser α) : Parser α := fun c =>
  let (result, c') := p { c with bare }
  (result, { c' with bare := c.bare })

/-- A plain name or any reserved word. Another token is taken all the same. -/
def word : Parser Unit := takeWhich Kind.isWord

/-- A name, with or without backslashes, or any reserved word. Another token is taken all the same. -/
def anyName : Parser Unit := takeWhich Kind.isName

end Parser

/-- The two parsers that every construct refers back to. -/
structure Grammar where
  expression : Level → Parser Expression
  statement : Parser Statement

namespace Grammar

open Php.Parser

variable (g : Grammar)

/-- Reads an expression of any kind and keeps nothing of it. -/
def anyExpression : Parser Unit := do
  let _ ← g.expression .lowest

def condition : Parser Unit := do
  expect .openParen
  g.anyExpression
  expect .closeParen

def tolerantStatement : Parser (Option Statement) := advancing (recovering g.statement)

/-- Statements between braces, each of which may fail. -/
def block : Parser Unit := do
  expect .openBrace
  untilDone do
    match ← nextKind with
    | none => failure
    | some .closeBrace =>
      skip
      pure true
    | some _ =>
      let _ ← g.tolerantStatement
      pure false

/-- Statements up to a token of one of the given kinds, none of which may fail. -/
def statementsBefore (stop : Kind → Bool) : Parser Unit :=
  untilDone do
    match ← nextKind with
    | none => failure
    | some kind =>
      if stop kind then pure true
      else
        let _ ← advancing g.statement
        pure false

end Grammar

end BlockExports.Php
