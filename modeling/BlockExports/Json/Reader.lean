import BlockExports.Json

/-!
Reading JSON.

A reader takes a value from the front of a text and hands on what is behind it. Lists of items and of
fields are read with a limit on their depth and length; the length of the whole text is always enough.
-/

namespace BlockExports.Json

def isBlank (c : Char) : Bool := c = ' ' || c = '\t' || c = '\n' || c = '\r'

def skipBlank (cs : List Char) : List Char := cs.dropWhile isBlank

/-! ### Strings -/

def hexValue? (c : Char) : Option Nat :=
  if c.isDigit then some (c.toNat - 48)
  else if 'a' ≤ c && c ≤ 'f' then some (c.toNat - 87)
  else if 'A' ≤ c && c ≤ 'F' then some (c.toNat - 55)
  else none

/-- The number that four hexadecimal digits write. -/
def unit? (a b c d : Char) : Option Nat := do
  pure ((((← hexValue? a) * 16 + (← hexValue? b)) * 16 + (← hexValue? c)) * 16 + (← hexValue? d))

def unescape? : Char → Option Char
  | '\x22' => some '\x22'
  | '\\' => some '\\'
  | '/' => some '/'
  | 'b' => some '\x08'
  | 'f' => some '\x0c'
  | 'n' => some '\n'
  | 'r' => some '\r'
  | 't' => some '\t'
  | _ => none

/-- Reads the rest of a string, up to the closing quote. A character beyond the first 65536 may be
written as two numbers, the surrogates. -/
def readString (seen : List Char) : List Char → Option (String × List Char)
  | '\x22' :: rest => some (String.ofList seen.reverse, rest)
  | '\\' :: 'u' :: a :: b :: c :: d :: rest =>
    match unit? a b c d with
    | none => none
    | some high =>
      if high < 0xD800 || 0xDFFF < high then readString (Char.ofNat high :: seen) rest
      else
        match rest with
        | '\\' :: 'u' :: a :: b :: c :: d :: rest =>
          match unit? a b c d with
          | none => none
          | some low =>
            if high < 0xDC00 && 0xDC00 ≤ low && low ≤ 0xDFFF then
              readString
                (Char.ofNat (0x10000 + (high - 0xD800) * 1024 + (low - 0xDC00)) :: seen) rest
            else none
        | _ => none
  | '\\' :: c :: rest =>
    match unescape? c with
    | some c => readString (c :: seen) rest
    | none => none
  | c :: rest => if c = '\\' || c.toNat < 32 then none else readString (c :: seen) rest
  | [] => none

/-! ### Numbers -/

def readDigits (cs : List Char) : Option (List Char × List Char) :=
  match cs.takeWhile Char.isDigit with
  | [] => none
  | digits => some (digits, cs.dropWhile Char.isDigit)

def natOf (digits : List Char) : Nat := Nat.ofDigitChars 10 digits 0

def readFraction : List Char → Option (Option (List Char) × List Char)
  | '.' :: rest => (readDigits rest).map fun (digits, rest) => (some digits, rest)
  | rest => some (none, rest)

def readExponent : List Char → Option (Option Int × List Char)
  | [] => some (none, [])
  | c :: rest =>
    if c = 'e' || c = 'E' then
      match rest with
      | '-' :: rest => (readDigits rest).map fun (digits, rest) => (some (-natOf digits), rest)
      | '+' :: rest => (readDigits rest).map fun (digits, rest) => (some (natOf digits), rest)
      | rest => (readDigits rest).map fun (digits, rest) => (some (natOf digits), rest)
    else some (none, c :: rest)

/-- The number of its parts. Only a number without fraction and exponent is an integer, and a zero
with a sign is none. -/
def number (negative : Bool) (whole : List Char) :
    Option (List Char) → Option Int → Json
  | none, none =>
    if negative && natOf whole = 0 then decimal ⟨true, 0, 0⟩
    else integer (if negative then -natOf whole else natOf whole)
  | fraction, exponent =>
    let fraction := fraction.getD []
    decimal ⟨negative, natOf (whole ++ fraction), exponent.getD 0 - fraction.length⟩

def readUnsigned (negative : Bool) (cs : List Char) : Option (Json × List Char) := do
  let (whole, cs) ← readDigits cs
  if whole.head? = some '0' && whole.length ≠ 1 then none
  else
    let (fraction, cs) ← readFraction cs
    let (exponent, cs) ← readExponent cs
    pure (number negative whole fraction exponent, cs)

/-! ### Values -/

mutual

def readValue : Nat → List Char → Option (Json × List Char)
  | 0, _ => none
  | limit + 1, cs =>
    match skipBlank cs with
    | 'n' :: 'u' :: 'l' :: 'l' :: rest => some (null, rest)
    | 't' :: 'r' :: 'u' :: 'e' :: rest => some (boolean true, rest)
    | 'f' :: 'a' :: 'l' :: 's' :: 'e' :: rest => some (boolean false, rest)
    | '\x22' :: rest => (readString [] rest).map fun (s, rest) => (string s, rest)
    | '[' :: rest =>
      match skipBlank rest with
      | ']' :: rest => some (array [], rest)
      | rest => (readItems limit rest).map fun (items, rest) => (array items, rest)
    | '\x7b' :: rest =>
      match skipBlank rest with
      | '\x7d' :: rest => some (object [], rest)
      | rest => (readFields limit rest).map fun (fields, rest) => (object fields, rest)
    | '-' :: rest => readUnsigned true rest
    | rest => readUnsigned false rest

/-- Reads the items of an array, from the first one up to the bracket behind the last. -/
def readItems : Nat → List Char → Option (List Json × List Char)
  | 0, _ => none
  | limit + 1, cs =>
    match readValue limit cs with
    | none => none
    | some (item, rest) =>
      match skipBlank rest with
      | ',' :: rest => (readItems limit rest).map fun (items, rest) => (item :: items, rest)
      | ']' :: rest => some ([item], rest)
      | _ => none

/-- Reads the fields of an object, from the first one up to the brace behind the last. -/
def readFields : Nat → List Char → Option (List (String × Json) × List Char)
  | 0, _ => none
  | limit + 1, cs =>
    match skipBlank cs with
    | '\x22' :: rest =>
      match readString [] rest with
      | none => none
      | some (name, rest) =>
        match skipBlank rest with
        | ':' :: rest =>
          match readValue limit rest with
          | none => none
          | some (value, rest) =>
            match skipBlank rest with
            | ',' :: rest =>
              (readFields limit rest).map fun (fields, rest) => ((name, value) :: fields, rest)
            | '\x7d' :: rest => some ([(name, value)], rest)
            | _ => none
        | _ => none
    | _ => none

end

def read? (text : String) : Option Json :=
  match readValue (text.length + 1) text.toList with
  | some (value, rest) => if rest.all isBlank then some value else none
  | none => none

end BlockExports.Json
