/-!
Number literals.

Digits may be separated by single underscores. `number` measures the longest number at the start of
a text; a number that starts with zero is octal, so a digit above seven in it is a mistake unless
the number turns out to be a float.
-/

namespace BlockExports.Php.Number

def isBinary (c : Char) : Bool := c = '0' || c = '1'

def isOctal (c : Char) : Bool := '0' ≤ c && c ≤ '7'

def isHexadecimal (c : Char) : Bool :=
  c.isDigit || ('a' ≤ c && c ≤ 'f') || ('A' ≤ c && c ≤ 'F')

/-- The length of the run of digits at the start of a text; an underscore counts when a digit
follows it. -/
def digits (isDigit : Char → Bool) : List Char → Nat
  | [] => 0
  | c :: cs =>
    if isDigit c then 1 + digits isDigit cs
    else if c = '_' then
      match cs with
      | [] => 0
      | d :: _ => if isDigit d then 1 + digits isDigit cs else 0
    else 0

/-- The length of a decimal point with the digits behind it, zero when there is no point. -/
def fraction : List Char → Nat
  | '.' :: cs => 1 + digits Char.isDigit cs
  | _ => 0

/-- The length of a decimal exponent, zero when there is none. A digit comes right behind the sign,
but behind a point (`behindPoint`) an underscore may come first. -/
def exponent (behindPoint : Bool) : List Char → Nat
  | [] => 0
  | e :: cs =>
    if e = 'e' || e = 'E' then
      let sign := if cs.head?.any (fun c => c = '+' || c = '-') then 1 else 0
      let power := cs.drop sign
      let length := digits Char.isDigit power
      if 0 < length && (behindPoint || power.head?.any Char.isDigit) then 1 + sign + length
      else 0
    else 0

/-- What stands at the start of a text that begins like a number, with its length. -/
inductive Extent where
  | valid (length : Nat)
  | invalid (length : Nat)
  deriving DecidableEq, Repr

def decimal (cs : List Char) : Extent :=
  let whole := digits Char.isDigit cs
  let point := fraction (cs.drop whole)
  let power := exponent (0 < point) (cs.drop (whole + point))
  let octal := cs.head? = some '0' && 1 < whole
  if point = 0 && power = 0 && octal && (cs.take whole).any (fun c => c = '8' || c = '9') then
    .invalid whole
  else .valid (whole + point + power)

/-- The number at the start of a text that begins with a digit, or with a point and a digit. -/
def number : List Char → Extent
  | '0' :: x :: d :: cs =>
    if (x = 'x' || x = 'X') && isHexadecimal d then .valid (2 + digits isHexadecimal (d :: cs))
    else if (x = 'o' || x = 'O') && isOctal d then .valid (2 + digits isOctal (d :: cs))
    else if (x = 'b' || x = 'B') && isBinary d then .valid (2 + digits isBinary (d :: cs))
    else decimal ('0' :: x :: d :: cs)
  | cs => decimal cs

end BlockExports.Php.Number
