import BinaryLayout.FloatingPoint.Double

/-!
# Decimal text of numbers

A double is written with the fewest decimal digits that read back as the same number, and of those
with the nearest; an exact tie goes up. The digits stand at their places, without an exponent, and a
whole number has no point.

The reals that round to a number with significand `m` form an interval around it, half a unit to
each side; below a power of two the lower half is half as wide. Its ends belong to it exactly when
`m` is even.

## Main definitions

* `Decimal`: digits and a power of ten.
* `Decimal.shortest`: the fewest digits that read back.
* `Double.text`: the written form.
-/

namespace BinaryLayout

/-- The number `digits * pow10 exponent`. -/
structure Decimal where
  digits : Nat
  exponent : Int
  deriving DecidableEq, Repr

namespace Decimal

/-- A closed or open interval of positive fractions over one denominator, around `value`. -/
structure Interval where
  low : Nat
  value : Nat
  high : Nat
  denominator : Nat
  closed : Bool

/-- The reals that round to `significand * pow2 exponent` in double precision. -/
def Interval.around (significand : Nat) (exponent : Int) : Interval :=
  -- A quarter of a unit is the measure, so that both halves are whole.
  let below := if significand = pow2 52 ∧ exponent > FloatFormat.double.leastExponent then 1 else 2
  let scale := pow2 (exponent - 2).toNat
  { low := (4 * significand - below) * scale
    value := 4 * significand * scale
    high := (4 * significand + 2) * scale
    denominator := pow2 (2 - exponent).toNat
    closed := significand % 2 == 0 }

/-- The fraction `numerator / denominator` lies in the interval. -/
def Interval.has (i : Interval) (numerator denominator : Nat) : Bool :=
  let x := numerator * i.denominator
  if i.closed then decide (i.low * denominator ≤ x ∧ x ≤ i.high * denominator)
  else decide (i.low * denominator < x ∧ x < i.high * denominator)

/-- A point `digits * pow10 exponent` lies in the interval. -/
def Interval.hasDecimal (i : Interval) (d : Decimal) : Bool :=
  i.has (d.digits * pow10 d.exponent.toNat) (pow10 (-d.exponent).toNat)

/-- The power of ten that the value's leading digit counts, for a value of at least 1. -/
def leadingPower (i : Interval) : Nat := (Nat.toDigits 10 (i.value / i.denominator)).length - 1

/-- How many places below the units the leading digit stands, for a value below 1. -/
def leadingPlace (i : Interval) : Nat → Nat → Nat
  | 0, place => place
  | fuel + 1, place =>
    if i.value * pow10 place ≥ i.denominator then place else leadingPlace i fuel (place + 1)

/-- The power of ten of the value's leading digit. -/
def leading (i : Interval) : Int :=
  if i.value ≥ i.denominator then leadingPower i else -(leadingPlace i 400 1 : Nat)

/-- The point of the grid of multiples of `pow10 exponent` that lies in the interval, if there is
one: of the value's two neighbours the nearer, the upper one on a tie. -/
def onGrid (i : Interval) (exponent : Int) : Option Decimal :=
  let numerator := i.value * pow10 (-exponent).toNat
  let denominator := i.denominator * pow10 exponent.toNat
  let lower : Decimal := ⟨numerator / denominator, exponent⟩
  let upper : Decimal := ⟨numerator / denominator + 1, exponent⟩
  let upperIsNear := decide (2 * (numerator % denominator) ≥ denominator)
  match i.hasDecimal lower, i.hasDecimal upper with
  | true, true => some (if upperIsNear then upper else lower)
  | true, false => some lower
  | false, true => some upper
  | false, false => none

/-- The first grid, from `count` digits on, that has a point in the interval. -/
def firstGrid (i : Interval) : Nat → Int → Decimal
  | 0, exponent =>
    ⟨i.value * pow10 (-exponent).toNat / (i.denominator * pow10 exponent.toNat), exponent⟩
  | fuel + 1, exponent => (onGrid i exponent).getD (firstGrid i fuel (exponent - 1))

/-- The decimal of fewest digits that reads back as `significand * pow2 exponent`. -/
def shortest (significand : Nat) (exponent : Int) : Decimal :=
  let i := Interval.around significand exponent
  firstGrid i 20 (leading i)

/-- The digits at their places: zeros fill the gap to the point, and none are left at the end of a
fraction. -/
def positional (d : Decimal) : String :=
  let digits := Nat.toDigits 10 d.digits
  if 0 ≤ d.exponent then String.ofList (digits ++ List.replicate d.exponent.toNat '0')
  else
    let places := (-d.exponent).toNat
    let padded := digits.leftpad (places + 1) '0'
    let whole := padded.take (padded.length - places)
    let fraction := (padded.drop (padded.length - places)).reverse.dropWhile (· = '0')
    if fraction.isEmpty then String.ofList whole
    else String.ofList (whole ++ '.' :: fraction.reverse)

end Decimal

def Double.text (x : Double) : String :=
  match x.datum with
  | .nan .. => "NaN"
  | .infinite negative => if negative then "-inf" else "inf"
  | .finite negative significand exponent =>
    (if negative then "-" else "")
      ++ (if significand = 0 then "0" else (Decimal.shortest significand exponent).positional)

end BinaryLayout
