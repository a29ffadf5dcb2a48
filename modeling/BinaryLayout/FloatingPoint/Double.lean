import BinaryLayout.FloatingPoint.Format

/-!
# Double-precision numbers

A number of the 64-bit format, held as its bit pattern. Conversions from integers and from the
narrower formats round to nearest, ties to even, and scaling by a power of two is exact wherever the
result is representable.

## Main definitions

* `Double`: a 64-bit pattern.
* `Double.ofInt`, `Double.ofSingle`, `Double.toSingle`, `Double.ofHalf`, `Double.toHalf`.
* `Double.equal`: equality of numbers, where a NaN differs from itself and the zeros are equal.
* `Double.fixedPoint`, `Double.ofFixedPoint`: the nearest fixed-point integer, and back.
-/

namespace BinaryLayout

/-- A double-precision number, as its bit pattern. -/
structure Double where
  bits : UInt64
  deriving DecidableEq, Repr, Inhabited

namespace Double

def ofPattern (pattern : Nat) : Double := ⟨UInt64.ofNat pattern⟩

def pattern (x : Double) : Nat := x.bits.toNat

def datum (x : Double) : FloatFormat.Datum := FloatFormat.double.decode x.pattern

/-- The quiet NaN without a payload. -/
def nan : Double := ofPattern 0x7ff8000000000000

/-- The number nearest to `significand * pow2 exponent`. -/
def ofScaled (negative : Bool) (significand : Nat) (exponent : Int) : Double :=
  ofPattern (FloatFormat.double.encode 52 (.finite negative significand exponent))

def ofInt (n : Int) : Double := ofScaled (decide (n < 0)) n.natAbs 0

/-- A pattern holds a NaN. -/
def isNaN (x : Double) : Bool :=
  match x.datum with
  | .nan .. => true
  | _ => false

/-- Equality of numbers: no NaN equals anything, and the two zeros are equal. -/
def equal (x y : Double) : Bool :=
  !x.isNaN && !y.isNaN
    && (x.bits == y.bits || (x.pattern % pow2 63 == 0 && y.pattern % pow2 63 == 0))

/-- The double with the value of a single-precision pattern. -/
def ofSingle (pattern : Nat) : Double :=
  ofPattern (FloatFormat.single.convert .double pattern)

/-- The single-precision pattern nearest to a number. -/
def toSingle (x : Double) : Nat := FloatFormat.double.convert .single x.pattern

/-- The double with the value of a half-precision pattern. Every NaN becomes the plain one. -/
def ofHalf (pattern : Nat) : Double :=
  match FloatFormat.half.decode pattern with
  | .nan .. => nan
  | datum => ofPattern (FloatFormat.double.encode 10 datum)

/-- The half-precision pattern of a single-precision one. The bits that a subnormal result shifts
out of its significand are dropped before the rounding, which goes to nearest, ties to even. -/
def halfOfSingle (pattern : Nat) : Nat :=
  let sign := pattern / pow2 31 % 2 * pow2 15
  let field := pattern / pow2 23 % pow2 8
  let fraction := pattern % pow2 23
  if field = 255 then sign + 0x7c00 + (if fraction = 0 then 0 else 0x200)
  else if field ≥ 143 then sign + 0x7c00
  else if field < 102 then sign
  else if field ≤ 112 then sign + roundShift ((pow2 23 + fraction) / pow2 (113 - field)) 13
  else sign + roundShift ((field - 112) * pow2 23 + fraction) 13

/-- The half-precision pattern of a number, by way of single precision. -/
def toHalf (x : Double) : Nat := halfOfSingle x.toSingle

/-- The integer nearest to `x * pow2 fraction`, ties to even; `none` when `x` is not finite or the
integer's magnitude is `2 ^ 127` or more. -/
def fixedPoint (x : Double) (fraction : Nat) : Option Int :=
  match x.datum with
  | .finite negative significand exponent =>
    let shift := exponent + fraction
    let magnitude :=
      if 0 ≤ shift then significand * pow2 shift.toNat else roundShift significand (-shift).toNat
    if magnitude < pow2 127 then some (if negative then -magnitude else magnitude) else none
  | _ => none

/-- The number `n / pow2 fraction`, with `n` first rounded to double precision. -/
def ofFixedPoint (n : Int) (fraction : Nat) : Double :=
  match (ofInt n).datum with
  | .finite negative significand exponent => ofScaled negative significand (exponent - fraction)
  | _ => ofInt n

end Double

end BinaryLayout
