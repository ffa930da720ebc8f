/-!
Decimal numbers and the floats nearest to them.

A float is written with the fewest digits that read back as the same float, and never with an
exponent. Everything is computed on whole numbers, so nothing depends on how a machine rounds.
-/

namespace BlockExports.Text

/-- The number `± digits * 10 ^ exponent`, as it was written. -/
structure Decimal where
  negative : Bool
  digits : Nat
  exponent : Int
  deriving DecidableEq, Repr

/-- The positive float `mantissa * 2 ^ exponent`, or zero. -/
structure Magnitude where
  mantissa : Nat
  exponent : Int
  deriving DecidableEq, Repr

/-- The quotient rounded to the nearest whole number, a half going to the even neighbour. -/
def roundQuotient (numerator denominator : Nat) : Nat :=
  let q := numerator / denominator
  let r := 2 * (numerator % denominator)
  if r < denominator || (r = denominator && q % 2 = 0) then q else q + 1

/-- `numerator / denominator * base ^ power` as a fraction of whole numbers. -/
def scale (numerator denominator base : Nat) (power : Int) : Nat × Nat :=
  match power with
  | .ofNat n => (numerator * base.pow n, denominator)
  | .negSucc n => (numerator, denominator * base.pow (n + 1))

namespace Magnitude

def precision : Nat := 53

def leastExponent : Int := -1074

def greatestExponent : Int := 971

/-- The float nearest to a fraction; `none` when it is too large for any. -/
def ofFraction? (numerator denominator : Nat) : Option Magnitude :=
  if numerator = 0 then some ⟨0, leastExponent⟩
  else
    let guess := (numerator.log2 : Int) - denominator.log2 - precision
    let exponents := [guess, guess + 1, guess + 2].map (max leastExponent)
    let rounded := exponents.map fun e =>
      let (n, d) := scale numerator denominator 2 (-e)
      (⟨roundQuotient n d, e⟩ : Magnitude)
    match rounded.find? (·.mantissa < Nat.pow 2 precision) with
    | some m => if m.exponent ≤ greatestExponent then some m else none
    | none => none

/-- The float nearest to `digits * 10 ^ exponent`. Powers far beyond the reach of floats are not
computed. -/
def ofDecimal? (digits : Nat) (exponent : Int) : Option Magnitude :=
  let size := (digits.log2 : Int) * 3 / 10 + exponent
  if digits = 0 || size < -400 then some ⟨0, leastExponent⟩
  else if 400 < size then none
  else
    let (n, d) := scale digits 1 10 exponent
    ofFraction? n d

def fraction (m : Magnitude) : Nat × Nat := scale m.mantissa 1 2 m.exponent

/-- The decimals next to a float, below and above, with `count` digits, that read back as it; the
nearer one first. -/
def decimals (m : Magnitude) (count : Nat) : List (Nat × Int) :=
  let (n, d) := m.fraction
  let guess := ((n.log2 : Int) - d.log2) * 3 / 10 - count - 1
  (List.range 6).flatMap fun shift =>
    let exponent : Int := guess + (shift : Nat)
    let (n, d) := scale n d 10 (-exponent)
    let below := n / d
    if Nat.pow 10 count / 10 ≤ below && below < Nat.pow 10 count then
      let order := if 2 * (n % d) ≤ d then [below, below + 1] else [below + 1, below]
      (order.filter (fun c => ofDecimal? c exponent = some m)).map (·, exponent)
    else []

/-- The fewest digits that read back as a float, with their exponent. -/
def shortest (m : Magnitude) : Nat × Int :=
  ((List.range 17).flatMap fun count => m.decimals (count + 1)).headD (m.fraction.1, 0)

/-- Writes `digits * 10 ^ exponent` without an exponent, with a point. -/
def positional (digits : Nat) (exponent : Int) : String :=
  let text := toString digits
  match exponent with
  | .ofNat n => text ++ String.ofList (List.replicate n '0') ++ ".0"
  | .negSucc n =>
    let places := n + 1
    let padded := List.replicate (places + 1 - text.length) '0' ++ text.toList
    String.ofList (padded.take (padded.length - places)) ++ "."
      ++ String.ofList (padded.drop (padded.length - places))

/-- Trailing zeros moved from the digits into the exponent. -/
def withoutZeros : Nat → Nat → Int → Nat × Int
  | 0, digits, exponent => (digits, exponent)
  | limit + 1, digits, exponent =>
    if digits ≠ 0 && digits % 10 = 0 then withoutZeros limit (digits / 10) (exponent + 1)
    else (digits, exponent)

def text (m : Magnitude) : String :=
  if m.mantissa = 0 then "0.0"
  else
    let (digits, exponent) := m.shortest
    let (digits, exponent) := withoutZeros 20 digits exponent
    positional digits exponent

end Magnitude

def Decimal.floatText? (d : Decimal) : Option String :=
  (Magnitude.ofDecimal? d.digits d.exponent).map fun m =>
    (if d.negative then "-" else "") ++ m.text

example : (Decimal.mk false 25 (-1)).floatText? = some "2.5" := by decide

example : (Decimal.mk true 1 (-7)).floatText? = some "-0.0000001" := by decide +kernel

example : (Decimal.mk false 1 23).floatText? = some "100000000000000000000000.0" := by
  decide

end BlockExports.Text
