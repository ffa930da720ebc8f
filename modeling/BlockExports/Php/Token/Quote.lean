import BlockExports.Text.Basic

/-!
Strings and the expressions embedded in them.

Within quotes a backslash takes the next character with it. A string with double quotes is a plain
literal unless an embedded expression starts in it; the three openings are `$name`, `${` and `{$`.
-/

namespace BlockExports.Php.Quote

open Text

def startsName (c : Char) : Bool := c.isAlpha || c = '_' || 128 ≤ c.toNat

def startsPlainName (c : Char) : Bool := c.isAlpha || c = '_'

def continuesName (c : Char) : Bool := startsName c || c.isDigit

def nameLength (cs : List Char) : Nat := (cs.takeWhile continuesName).length

/-- The distance to just behind the quote that closes a literal, from just behind its opening;
`none` when the text ends first. -/
def closing? (quote : Char) : List Char → Option Nat
  | [] => none
  | '\\' :: _ :: cs => (closing? quote cs).map (· + 2)
  | c :: cs => if c = quote then some 1 else (closing? quote cs).map (· + 1)

/-- Whether an embedded expression starts here, where `starts` tells what a name starts with. -/
def opensWith (starts : Char → Bool) : List Char → Bool
  | '$' :: c :: _ => starts c || c = '\x7b'
  | '\x7b' :: '$' :: _ => true
  | _ => false

def opensEmbedding (cs : List Char) : Bool := opensWith startsName cs

/-- Whether an embedded expression starts before the closing quote. A variable whose name does not
start within ASCII does not count, so that it leaves the string a plain literal. -/
def hasEmbedding (quote : Char) : List Char → Bool
  | [] => false
  | '\\' :: _ :: cs => hasEmbedding quote cs
  | c :: cs => c ≠ quote && (opensWith startsPlainName (c :: cs) || hasEmbedding quote cs)

/-- The length of an index, from behind its opening bracket: brackets nest, and a blank ends it. -/
def indexLength : Nat → List Char → Nat
  | _, [] => 0
  | depth, c :: cs =>
    if c = ']' then
      match depth with
      | 0 => 1
      | d + 1 => 1 + indexLength d cs
    else if c = '[' then 1 + indexLength (depth + 1) cs
    else if isTextBlank c then 0
    else 1 + indexLength depth cs

/-- The length up to and including the brace that closes an embedded expression, from behind its
opening; all of the text when there is none. -/
def bracedLength : Nat → List Char → Nat
  | _, [] => 0
  | depth, c :: cs =>
    if c = '}' then
      match depth with
      | 0 => 1
      | d + 1 => 1 + bracedLength d cs
    else if c = '{' then 1 + bracedLength (depth + 1) cs
    else 1 + bracedLength depth cs

/-- The length of one index or one property name behind an embedded variable. -/
def accessLength : List Char → Nat
  | '[' :: cs => 1 + indexLength 0 cs
  | '-' :: '>' :: c :: cs => if startsPlainName c then 2 + nameLength (c :: cs) else 0
  | '?' :: '-' :: '>' :: c :: cs => if startsPlainName c then 3 + nameLength (c :: cs) else 0
  | _ => 0

/-- The length of the embedded expression that starts here, if one does. -/
def embedding? (cs : List Char) : Option Nat :=
  match cs with
  | '$' :: '{' :: rest | '{' :: '$' :: rest => some (2 + bracedLength 0 rest)
  | '$' :: c :: rest =>
    if startsName c then
      let name := nameLength (c :: rest)
      some (1 + name + accessLength ((c :: rest).drop name))
    else none
  | _ => none

/-- The length of the literal stretch up to the closing quote or the next embedded expression. -/
def partLength (quote : Char) : List Char → Nat
  | [] => 0
  | '\\' :: _ :: cs => 2 + partLength quote cs
  | c :: cs => if c = quote || opensEmbedding (c :: cs) then 0 else 1 + partLength quote cs

/-- The opening of a document: its label and whether it is taken literally, with the length of the
opening up to the end of the line. -/
structure Opening where
  label : List Char
  raw : Bool
  length : Nat
  deriving DecidableEq, Repr

def atLineEnd : List Char → Bool
  | '\n' :: _ => true
  | '\r' :: '\n' :: _ => true
  | _ => false

/-- Reads the opening of a document: three angles, blanks, a label that may be quoted, and the end
of the line. -/
def opening? (cs : List Char) : Option Opening :=
  match cs with
  | '<' :: '<' :: '<' :: rest =>
    let blanks := (rest.takeWhile isTextBlank).length
    let here := rest.drop blanks
    let quote? := here.head?.filter (fun c => c = '\x27' || c = '\x22')
    let margin := if quote?.isSome then 1 else 0
    let inner := here.drop margin
    let size := nameLength inner
    let behind := inner.drop size
    let closed := match quote? with
      | some q => behind.head? = some q
      | none => true
    let lineEnd := behind.drop margin
    if inner.head?.any startsPlainName && closed && atLineEnd lineEnd then
      some ⟨inner.take size, quote? = some '\x27', 3 + blanks + 2 * margin + size
        + if lineEnd.head? = some '\r' then 2 else 1⟩
    else none
  | _ => none

/-- A stretch of a document's text, or its end, with the length. -/
inductive DocumentPart where
  | text (length : Nat)
  | finish (length : Nat)
  deriving DecidableEq, Repr

def DocumentPart.add (n : Nat) : DocumentPart → DocumentPart
  | text m => text (n + m)
  | finish m => finish (n + m)

/-- Whether the closing label stands here: no letter or digit of ASCII may follow it. -/
def closesDocument (label cs : List Char) : Bool :=
  label.isPrefixOf cs && !(cs.drop label.length).head?.any Char.isAlphanum

/-- Reads a document's text up to the end of the line, the next embedded expression or the closing
label. The label counts while only blanks were read (`margin`), and what comes behind a backslash,
blanks apart, opens nothing (`escaped`). -/
def documentPart (label : List Char) (raw : Bool) : Bool → Bool → List Char → DocumentPart
  | _, _, [] => .text 0
  | margin, escaped, c :: cs =>
    if c = '\n' then .text 1
    else if c = '\r' then .text (if cs.head? = some '\n' then 2 else 1)
    else if isTextBlank c then (documentPart label raw margin escaped cs).add 1
    else if !raw && !escaped && opensEmbedding (c :: cs) then .text 0
    else if margin && closesDocument label (c :: cs) then .finish label.length
    else (documentPart label raw false (c = '\\' && !escaped) cs).add 1

end BlockExports.Php.Quote
