/-!
Quoted text in TOML.

Text between double quotes has escapes, text between single quotes stands for itself. Tripled quotes
let a text run over several lines; a line break right behind the opening quotes does not count, and
up to two quotes may stand right before the closing ones. Control characters are never text, apart
from the tabulator and, in text of several lines, line breaks.
-/

namespace BlockExports.Toml

/-- The characters that no text and no comment may hold. -/
def isControl (c : Char) : Bool := (c.toNat < 32 && c ≠ '\t') || c.toNat = 127

def isGap (c : Char) : Bool := c = ' ' || c = '\t'

/-- A line break at the start of a text, and what is behind it. -/
def lineBreak? : List Char → Option (List Char × List Char)
  | '\n' :: cs => some (['\n'], cs)
  | '\r' :: '\n' :: cs => some (['\r', '\n'], cs)
  | _ => none

def afterBreak (cs : List Char) : List Char :=
  match lineBreak? cs with
  | some (_, rest) => rest
  | none => cs

def hexDigit? (c : Char) : Option Nat :=
  if c.isDigit then some (c.toNat - 48)
  else if 'a' ≤ c && c ≤ 'f' then some (c.toNat - 87)
  else if 'A' ≤ c && c ≤ 'F' then some (c.toNat - 55)
  else none

/-- The character with a hexadecimal number, unless that number is none of a character. -/
def charOfHex? (digits : List Char) : Option Char := do
  let values ← digits.mapM hexDigit?
  let n := values.foldl (fun n d => 16 * n + d) 0
  if n < 0xD800 || (0xDFFF < n && n < 0x110000) then some (Char.ofNat n) else none

def shortEscape? : Char → Option Char
  | 'b' => some '\x08'
  | 't' => some '\t'
  | 'n' => some '\n'
  | 'f' => some '\x0c'
  | 'r' => some '\r'
  | 'e' => some '\x1b'
  | '\x22' => some '\x22'
  | '\\' => some '\\'
  | _ => none

/-- How many hexadecimal digits follow an escape. -/
def escapeWidth : Char → Nat
  | 'x' => 2
  | 'u' => 4
  | 'U' => 8
  | _ => 0

/-- What is behind a backslash: the character that is meant, and the number of characters that the
escape takes. -/
def escape? : List Char → Option (Char × Nat)
  | [] => none
  | c :: cs =>
    match escapeWidth c with
    | 0 => (shortEscape? c).map (·, 1)
    | width =>
      if cs.length < width then none else (charOfHex? (cs.take width)).map (·, width + 1)

def prepend (cs : List Char) : List Char × List Char → List Char × List Char
  | (text, rest) => (cs ++ text, rest)

/-- The text up to a single quote. -/
def literal? : List Char → Option (List Char × List Char)
  | [] => none
  | c :: cs =>
    if c = '\x27' then some ([], cs)
    else if isControl c then none
    else (literal? cs).map (prepend [c])

/-- The text up to a double quote; `skip` characters were dealt with already. -/
def basic? : Nat → List Char → Option (List Char × List Char)
  | _, [] => none
  | skip + 1, _ :: cs => basic? skip cs
  | 0, c :: cs =>
    if c = '\x22' then some ([], cs)
    else if c = '\\' then
      match escape? cs with
      | none => none
      | some (d, length) => (basic? length cs).map (prepend [d])
    else if isControl c then none
    else (basic? 0 cs).map (prepend [c])

/-- How many of the first characters are the given quote, counted up to five. -/
def quoteRun (quote : Char) (cs : List Char) : Nat := ((cs.take 5).takeWhile (· = quote)).length

def literalLines? : List Char → Option (List Char × List Char)
  | [] => none
  | c :: cs =>
    let run := quoteRun '\x27' (c :: cs)
    if 3 ≤ run then some (List.replicate (run - 3) '\x27', (c :: cs).drop run)
    else if c = '\n' || (c = '\r' && cs.head? = some '\n') || !isControl c then
      (literalLines? cs).map (prepend [c])
    else none

/-- What a backslash at the end of a line swallows: the rest of the line and all blank text behind
it. Nothing when the line goes on. -/
def swallowed (cs : List Char) : Nat :=
  match lineBreak? (cs.dropWhile isGap) with
  | some _ => (cs.takeWhile (fun c => isGap c || c = '\n' || c = '\r')).length
  | none => 0

/-- Whether every carriage return in blank text belongs to a line break. -/
def breaksPaired : List Char → Bool
  | [] => true
  | '\r' :: cs => cs.head? = some '\n' && breaksPaired cs
  | _ :: cs => breaksPaired cs

def basicLines? : Nat → List Char → Option (List Char × List Char)
  | _, [] => none
  | skip + 1, _ :: cs => basicLines? skip cs
  | 0, c :: cs =>
    let run := quoteRun '\x22' (c :: cs)
    if 3 ≤ run then some (List.replicate (run - 3) '\x22', (c :: cs).drop run)
    else if c = '\\' then
      match swallowed cs with
      | 0 =>
        match escape? cs with
        | none => none
        | some (d, length) => (basicLines? length cs).map (prepend [d])
      | length => if breaksPaired (cs.take length) then basicLines? length cs else none
    else if c = '\n' || (c = '\r' && cs.head? = some '\n') || !isControl c then
      (basicLines? 0 cs).map (prepend [c])
    else none

/-- Quoted text on one line, as keys have it. -/
def quotedLine? : List Char → Option (List Char × List Char)
  | '\x22' :: cs => basic? 0 cs
  | '\x27' :: cs => literal? cs
  | _ => none

def quoted? : List Char → Option (List Char × List Char)
  | '\x22' :: '\x22' :: '\x22' :: cs => basicLines? 0 (afterBreak cs)
  | '\x27' :: '\x27' :: '\x27' :: cs => literalLines? (afterBreak cs)
  | cs => quotedLine? cs

end BlockExports.Toml
