import BlockExports.Toml.Value
import BlockExports.Toml.Quoted

/-!
Values that are written without quotes: numbers, truth values, dates and times.
-/

namespace BlockExports.Toml

open Text

/-! ### Numbers -/

/-- Digits with single underscores between them, given without the underscores. -/
def ungroup? (isDigit : Char → Bool) : List Char → Option (List Char)
  | [] => none
  | [c] => if isDigit c then some [c] else none
  | c :: '_' :: cs => if isDigit c then (ungroup? isDigit cs).map (c :: ·) else none
  | c :: cs => if isDigit c then (ungroup? isDigit cs).map (c :: ·) else none

/-- The number with these digits. Characters that are no digits count as zero. -/
def numeral (base : Nat) (digits : List Char) : Nat :=
  digits.foldl (fun n c => base * n + (hexDigit? c).getD 0) 0

/-- Decimal digits that do not start with a needless zero. -/
def plainDigits? (cs : List Char) : Option (List Char) :=
  match ungroup? Char.isDigit cs with
  | some ('0' :: _ :: _) => none
  | digits => digits

def isOctal (c : Char) : Bool := '0' ≤ c && c ≤ '7'

def isBinary (c : Char) : Bool := c = '0' || c = '1'

def signOf : List Char → Bool × List Char
  | '-' :: cs => (true, cs)
  | '+' :: cs => (false, cs)
  | cs => (false, cs)

def negateIf (negative : Bool) (n : Nat) : Int := if negative then - (n : Int) else n

def integer? : List Char → Option Int
  | '0' :: 'x' :: cs => (ungroup? (fun c => (hexDigit? c).isSome) cs).map (numeral 16 ·)
  | '0' :: 'o' :: cs => (ungroup? isOctal cs).map (numeral 8 ·)
  | '0' :: 'b' :: cs => (ungroup? isBinary cs).map (numeral 2 ·)
  | cs =>
    let (negative, cs) := signOf cs
    (plainDigits? cs).map fun digits => negateIf negative (numeral 10 digits)

/-- An exponent with its mark; nothing at all stands for zero. -/
def power? : List Char → Option Int
  | [] => some 0
  | c :: cs =>
    if c = 'e' || c = 'E' then
      let (negative, cs) := signOf cs
      (ungroup? Char.isDigit cs).map fun digits => negateIf negative (numeral 10 digits)
    else none

def isGrouped (c : Char) : Bool := c.isDigit || c = '_'

/-- A decimal number with a fraction, an exponent or both. -/
def decimal? (cs : List Char) : Option Decimal := do
  let (negative, cs) := signOf cs
  let whole ← plainDigits? (cs.takeWhile isGrouped)
  match cs.dropWhile isGrouped with
  | [] => none
  | '.' :: cs =>
    let fraction ← ungroup? Char.isDigit (cs.takeWhile isGrouped)
    let power ← power? (cs.dropWhile isGrouped)
    pure ⟨negative, numeral 10 (whole ++ fraction), power - fraction.length⟩
  | cs =>
    let power ← power? cs
    pure ⟨negative, numeral 10 whole, power⟩

def floating? (cs : List Char) : Option Floating :=
  let (negative, body) := signOf cs
  if body = ['i', 'n', 'f'] then some (.infinite negative)
  else if body = ['n', 'a', 'n'] then some .nan
  else (decimal? cs).map .decimal

/-! ### Dates and times -/

def twoDigits? : List Char → Option (Nat × List Char)
  | a :: b :: cs => if a.isDigit && b.isDigit then some (numeral 10 [a, b], cs) else none
  | _ => none

/-- The text behind a character that must stand here. -/
def after? (c : Char) : List Char → Option (List Char)
  | d :: cs => if d = c then some cs else none
  | [] => none

def isLeap (year : Nat) : Bool := year % 4 = 0 && (year % 100 ≠ 0 || year % 400 = 0)

def daysIn (year month : Nat) : Nat :=
  if month = 2 then (if isLeap year then 29 else 28)
  else if month = 4 || month = 6 || month = 9 || month = 11 then 30
  else 31

/-- The text behind a calendar date. -/
def afterDay? (cs : List Char) : Option (List Char) := do
  let (century, cs) ← twoDigits? cs
  let (year, cs) ← twoDigits? cs
  let (month, cs) ← twoDigits? (← after? '-' cs)
  let (day, cs) ← twoDigits? (← after? '-' cs)
  if 1 ≤ month && month ≤ 12 && 1 ≤ day && day ≤ daysIn (100 * century + year) month then some cs
  else none

/-- The text behind the seconds of a time, with their fraction. They may be left out. -/
def afterSeconds? : List Char → Option (List Char)
  | ':' :: cs => do
    let (seconds, cs) ← twoDigits? cs
    if 60 < seconds then none
    else
      match cs with
      | '.' :: cs => if cs.head?.any Char.isDigit then some (cs.dropWhile Char.isDigit) else none
      | cs => some cs
  | cs => some cs

def afterMinutes? (cs : List Char) : Option (List Char) := do
  let (hours, cs) ← twoDigits? cs
  let (minutes, cs) ← twoDigits? (← after? ':' cs)
  if hours ≤ 23 && minutes ≤ 59 then some cs else none

def afterTime? (cs : List Char) : Option (List Char) := do afterSeconds? (← afterMinutes? cs)

/-- Whether a text is the offset of a time zone, or empty. -/
def isZone : List Char → Bool
  | [] => true
  | ['Z'] | ['z'] => true
  | c :: cs => (c = '+' || c = '-') && afterMinutes? cs = some []

def isTimeMark (c : Char) : Bool := c = 'T' || c = 't' || c = ' '

/-- Whether a text is a date, a time, or a date with a time. -/
def isDate (cs : List Char) : Bool :=
  match afterDay? cs with
  | some [] => true
  | some (c :: rest) => isTimeMark c && (afterTime? rest).any isZone
  | none => afterTime? cs = some []

/-! ### Words -/

def endsWord (c : Char) : Bool :=
  isGap c || c = '\n' || c = '\r' || c = '#' || c = ',' || c = '=' || c = '[' || c = ']'
    || c = '\x7b' || c = '\x7d'

/-- The unquoted word at the start of a text, and the text behind it. A date may go on behind one
space with a time. -/
def word (cs : List Char) : List Char × List Char :=
  let first := cs.takeWhile (fun c => !endsWord c)
  match cs.drop first.length with
  | ' ' :: rest =>
    if afterDay? first = some [] && rest.head?.any Char.isDigit then
      let second := rest.takeWhile (fun c => !endsWord c)
      (first ++ ' ' :: second, rest.drop second.length)
    else (first, ' ' :: rest)
  | rest => (first, rest)

def scalar? (cs : List Char) : Option Value :=
  if cs = "true".toList then some (.boolean true)
  else if cs = "false".toList then some (.boolean false)
  else if isDate cs then some .date
  else
    match integer? cs with
    | some i => some (.integer i)
    | none => (floating? cs).map .floating

end BlockExports.Toml
