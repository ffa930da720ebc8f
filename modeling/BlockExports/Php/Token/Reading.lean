import BlockExports.Php.Token
import BlockExports.Php.Token.Number
import BlockExports.Php.Token.Quote

/-!
Reading one token.

What stands at the start of a text depends on the `Mode` of the reader: text outside of the PHP
tags, script text, the inside of a string or a document, or what is left behind
`__halt_compiler`. A `Reading` says what was found, how many characters it covers and in which mode
the text goes on.
-/

namespace BlockExports.Php

open Text Quote

/-- What kind of text the reader is in. -/
inductive Mode where
  | inline
  | script
  | quoted (delimiter : Char)
  | document (label : List Char) (raw : Bool)
  /-- behind `__halt_compiler`, with so many of its three closing tokens read -/
  | halting (seen : Nat)
  | halted
  deriving DecidableEq, Repr

def Mode.embeds : Mode → Bool
  | quoted _ | document _ false => true
  | _ => false

inductive Shape where
  | token (kind : Kind)
  | blank
  | unreadable
  deriving DecidableEq, Repr

structure Reading where
  shape : Shape
  length : Nat
  next : Mode
  deriving DecidableEq, Repr

namespace Reading

/-- A token after which the mode depends on its kind alone. -/
def ofKind (kind : Kind) (length : Nat) : Reading :=
  let next := match kind with
    | .closeTag => .inline
    | .quote => .quoted '\x22'
    | .backtick => .quoted '\x60'
    | .keyword .haltCompiler => .halting 0
    | _ => .script
  ⟨.token kind, length, next⟩

def ofBlank (length : Nat) : Reading := ⟨.blank, length, .script⟩

def ofUnreadable (length : Nat) : Reading := ⟨.unreadable, length, .script⟩

end Reading

/-- The signs of script text. Where one is the beginning of another, the longer stands first. -/
def signs : List (String × Kind) :=
  [("!==", .binary .equality), ("===", .binary .equality), ("<=>", .binary .equality),
   ("??=", .compoundAssign), ("<<=", .compoundAssign), (">>=", .compoundAssign),
   ("**=", .compoundAssign), ("?->", .nullsafeArrow), ("...", .ellipsis),
   ("!=", .binary .equality), ("==", .binary .equality), ("<>", .binary .equality),
   ("<=", .binary .comparison), (">=", .binary .comparison), ("&&", .binary .booleanAnd),
   ("||", .binary .booleanOr), ("??", .binary .coalesce), ("<<", .binary .shift),
   (">>", .binary .shift), ("**", .binary .power), ("|>", .binary .pipe),
   ("&=", .compoundAssign), (".=", .compoundAssign), ("+=", .compoundAssign),
   ("-=", .compoundAssign), ("*=", .compoundAssign), ("/=", .compoundAssign),
   ("%=", .compoundAssign), ("|=", .compoundAssign), ("^=", .compoundAssign),
   ("?>", .closeTag), ("=>", .doubleArrow), ("->", .arrow), ("::", .doubleColon),
   ("++", .step), ("--", .step), ("#[", .attribute), ("$\x7b", .dollarBrace),
   ("<", .binary .comparison), (">", .binary .comparison), (".", .binary .concat),
   ("*", .binary .multiplicative), ("/", .binary .multiplicative),
   ("%", .binary .multiplicative), ("^", .binary .bitXor), ("|", .bar), ("&", .ampersand),
   ("+", .plus), ("-", .minus), ("!", .bang), ("~", .tilde), ("@", .silencer),
   ("=", .assign), ("?", .question), (":", .colon), (";", .semicolon), (",", .comma),
   ("$", .dollar), ("\\", .backslash), ("(", .openParen), (")", .closeParen),
   ("[", .openBracket), ("]", .closeBracket), ("\x7b", .openBrace), ("\x7d", .closeBrace),
   ("\x60", .backtick)]

def sign? (cs : List Char) : Option (String × Kind) :=
  signs.find? (fun s => s.1.toList.isPrefixOf cs)

def pathLength : List Char → Nat
  | [] => 0
  | c :: cs =>
    if continuesName c || (c = '\\' && cs.head?.any startsName) then 1 + pathLength cs else 0

/-- The words that form one token with `(set)` right behind them. -/
def setter? (word : String) : Option Keyword :=
  [("private", Keyword.privateSet), ("protected", .protectedSet), ("public", .publicSet)].lookup
    word.toLower

def readWord (cs : List Char) : Reading :=
  let length := nameLength cs
  let path := pathLength cs
  let word := String.ofList (cs.take length)
  if length < path then .ofKind .qualified path
  else
    match setter? word with
    | some keyword =>
      if String.toLower (String.ofList ((cs.drop length).take 5)) = "(set)" then
        .ofKind (.keyword keyword) (length + 5)
      else wordReading word length
    | none => wordReading word length
where
  wordReading (word : String) (length : Nat) : Reading :=
    match Keyword.ofWord? word with
    | some keyword => .ofKind (.keyword keyword) length
    | none => .ofKind .name length

/-- A string, from the characters behind its opening quote; `before` counts those up to it. -/
def readString (quote : Char) (before : Nat) (inner : List Char) : Reading :=
  if quote = '\x22' && hasEmbedding quote inner then .ofKind .quote before
  else
    match closing? quote inner with
    | some length => .ofKind .string (before + length)
    | none => .ofKind .openString (before + inner.length)

def readOpening (before : Nat) (o : Opening) : Reading :=
  ⟨.token .documentStart, before + o.length, .document o.label o.raw⟩

/-- The length of a comment that ends with its line or before a closing tag. -/
def lineLength : List Char → Nat
  | [] => 0
  | c :: cs =>
    if c = '\n' || c = '\r' || (c = '?' && cs.head? = some '>') then 0 else 1 + lineLength cs

/-- The distance to just behind the first `*/`. -/
def commentEnd? : List Char → Option Nat
  | '*' :: '/' :: _ => some 2
  | _ :: cs => (commentEnd? cs).map (· + 1)
  | [] => none

def castTypes : List String :=
  ["int", "integer", "double", "float", "real", "bool", "boolean", "string", "binary", "array",
   "object", "unset", "void"]

/-- The length of a cast: a type in parentheses, with blanks anywhere in between. -/
def castLength? (cs : List Char) : Option Nat :=
  match cs with
  | '(' :: rest =>
    let inner := rest.takeWhile (fun c => c.isAlpha || isAsciiBlank c)
    let word := String.ofList (inner.filter (fun c => !isAsciiBlank c))
    if (rest.drop inner.length).head? = some ')' && castTypes.contains word.toLower then
      some (inner.length + 2)
    else none
  | _ => none

def readScript (cs : List Char) : Reading :=
  match cs with
  | [] => .ofBlank 0
  | c :: rest =>
    if isAsciiBlank c then .ofBlank (cs.takeWhile isAsciiBlank).length
    else if (c = 'b' || c = 'B') && rest.head? = some '\x27' then
      readString '\x27' 2 (rest.drop 1)
    else if (c = 'b' || c = 'B') && rest.head? = some '\x22' then
      readString '\x22' 2 (rest.drop 1)
    else if (c = 'b' || c = 'B') && ['<', '<', '<'].isPrefixOf rest then
      match opening? rest with
      | some o => readOpening 1 o
      | none => .ofUnreadable 1
    else if startsName c then readWord cs
    else if c = '$' && rest.head?.any startsName then .ofKind .variable (1 + nameLength rest)
    else if c = '\\' && rest.head?.any startsName then .ofKind .qualified (pathLength cs)
    else if c.isDigit || (c = '.' && rest.head?.any Char.isDigit) then
      match Number.number cs with
      | .valid length => .ofKind .number length
      | .invalid length => .ofUnreadable length
    else if c = '\x27' || c = '\x22' then readString c 1 rest
    else if c = '#' && rest.head? ≠ some '[' then .ofBlank (1 + lineLength rest)
    else if c = '/' && rest.head? = some '/' then .ofBlank (1 + lineLength rest)
    else if c = '/' && rest.head? = some '*' && rest.length ≠ 1 then
      match commentEnd? (rest.drop 1) with
      | some length => .ofBlank (2 + length)
      | none => .ofUnreadable cs.length
    else
      match castLength? cs, opening? cs with
      | some length, _ => .ofKind .cast length
      | none, some o => readOpening 0 o
      | none, none =>
        match sign? cs with
        | some (text, kind) => .ofKind kind text.length
        | none => .ofUnreadable 1

/-- The length of the text before the next opening tag. -/
def inlineLength : List Char → Nat
  | [] => 0
  | c :: cs => if c = '<' && cs.head? = some '?' then 0 else 1 + inlineLength cs

/-- The token at the start of text outside of the tags; a first line that starts with `#!` is one. -/
def readInline (first : Bool) (cs : List Char) : Reading :=
  match cs with
  | '<' :: '?' :: '=' :: _ => .ofKind .echoTag 3
  | '<' :: '?' :: rest =>
    if String.toLower (String.ofList (rest.take 3)) = "php" then .ofKind .openTag 5
    else .ofKind .openTag 2
  | '#' :: '!' :: _ =>
    if first then ⟨.token .inlineText, (cs.takeWhile (· ≠ '\n')).length + 1, .inline⟩
    else ⟨.token .inlineText, inlineLength cs, .inline⟩
  | _ => ⟨.token .inlineText, inlineLength cs, .inline⟩

def readQuoted (delimiter : Char) (cs : List Char) : Reading :=
  match partLength delimiter cs with
  | 0 => ⟨.token (if delimiter = '\x60' then .backtick else .quote), 1, .script⟩
  | n + 1 => ⟨.token .stringPart, n + 1, .quoted delimiter⟩

def readDocument (label : List Char) (raw : Bool) (cs : List Char) : Reading :=
  match documentPart label raw true false cs with
  | .text length => ⟨.token .stringPart, length, .document label raw⟩
  | .finish length => ⟨.token .documentEnd, length, .script⟩

/-- The token behind `__halt_compiler`: parentheses and a terminator, with blanks around them. -/
def readHalting (seen : Nat) (cs : List Char) : Reading :=
  match seen, cs with
  | 0, '(' :: _ => ⟨.token .openParen, 1, .halting 1⟩
  | 1, ')' :: _ => ⟨.token .closeParen, 1, .halting 2⟩
  | 2, ';' :: _ => ⟨.token .semicolon, 1, .halted⟩
  | 2, '?' :: '>' :: _ => ⟨.token .closeTag, 2, .halted⟩
  | _, c :: _ => ⟨if isAsciiBlank c then .blank else .unreadable, 1, .halting seen⟩
  | _, [] => ⟨.blank, 0, .halting seen⟩

/-- The token at the start of a text in a given mode; `first` says that the text stands at the very
beginning. -/
def read (mode : Mode) (first : Bool) (cs : List Char) : Reading :=
  match mode with
  | .inline => readInline first cs
  | .script => readScript cs
  | .quoted delimiter => readQuoted delimiter cs
  | .document label raw => readDocument label raw cs
  | .halting seen => readHalting seen cs
  | .halted => ⟨.token .inlineText, cs.length, .halted⟩

end BlockExports.Php
