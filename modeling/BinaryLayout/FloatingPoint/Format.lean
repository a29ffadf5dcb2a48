import BinaryLayout.Power

/-!
# Binary floating-point formats

The interchange formats of IEEE 754 as bit patterns. A finite pattern stands for a significand times
a power of two; `round` goes the other way, to the pattern nearest to an exact number, with ties to
the even significand. All arithmetic is on integers, so every value is exact.

## Main definitions

* `FloatFormat`: the widths of the exponent and fraction fields, with `half`, `single` and `double`.
* `FloatFormat.Datum`: what a pattern stands for.
* `FloatFormat.decode`, `FloatFormat.encode`: a pattern's datum, and the nearest pattern of a datum.
* `roundShift`: division by a power of two, rounded to nearest, ties to even.
-/

namespace BinaryLayout

/-- `m / 2 ^ k`, rounded to the nearest integer; a tie goes to the even one. -/
def roundShift (m k : Nat) : Nat :=
  let quotient := m / pow2 k
  let rest := 2 * (m % pow2 k)
  if rest > pow2 k ∨ (rest = pow2 k ∧ quotient % 2 = 1) then quotient + 1 else quotient

/-- An IEEE 754 binary interchange format. -/
structure FloatFormat where
  exponentBits : Nat
  fractionBits : Nat
  deriving DecidableEq, Repr

namespace FloatFormat

def half : FloatFormat := ⟨5, 10⟩

def single : FloatFormat := ⟨8, 23⟩

def double : FloatFormat := ⟨11, 52⟩

/-- What a bit pattern stands for. The magnitude of a finite one is `significand * pow2 exponent`.
-/
inductive Datum where
  | nan (negative : Bool) (payload : Nat)
  | infinite (negative : Bool)
  | finite (negative : Bool) (significand : Nat) (exponent : Int)
  deriving DecidableEq, Repr

variable (f : FloatFormat)

def signBit : Nat := pow2 (f.exponentBits + f.fractionBits)

/-- The largest value of the exponent field, which marks infinities and NaNs. -/
def maxField : Nat := pow2 f.exponentBits - 1

def infinity : Nat := f.maxField * pow2 f.fractionBits

/-- The fraction's top bit, which marks a quiet NaN. -/
def quietBit : Nat := pow2 (f.fractionBits - 1)

/-- The exponent of the least positive number. -/
def leastExponent : Int := 2 - pow2 (f.exponentBits - 1) - f.fractionBits

/-- The number, infinity or NaN that a pattern stands for. -/
def decode (pattern : Nat) : Datum :=
  let negative := decide (pattern / f.signBit % 2 = 1)
  let field := pattern / pow2 f.fractionBits % pow2 f.exponentBits
  let fraction := pattern % pow2 f.fractionBits
  if field = f.maxField then
    if fraction = 0 then .infinite negative else .nan negative fraction
  else if field = 0 then .finite negative fraction f.leastExponent
  else .finite negative (pow2 f.fractionBits + fraction) (f.leastExponent + (field - 1))

/-- The pattern, without a sign, nearest to `significand * pow2 exponent`. -/
def round (significand : Nat) (exponent : Int) : Nat :=
  if significand = 0 then 0
  else
    let length := significand.log2 + 1
    -- The unit in the last place of the result, as a power of two.
    let unit := max (exponent + length - (f.fractionBits + 1)) f.leastExponent
    let units :=
      if unit ≤ exponent then significand * pow2 (exponent - unit).toNat
      else roundShift significand (unit - exponent).toNat
    -- A carry out of the significand moves into the exponent field by itself.
    min ((unit - f.leastExponent).toNat * pow2 f.fractionBits + units) f.infinity

/-- The pattern nearest to a datum. A NaN becomes quiet and keeps the part of its payload that
fits, the most significant bits first, when it comes from a format with `fractionBits`. -/
def encode (fractionBits : Nat) : Datum → Nat
  | .nan negative payload =>
    let moved := payload * pow2 f.fractionBits / pow2 fractionBits
    (if negative then f.signBit else 0) + f.infinity + f.quietBit + moved % f.quietBit
  | .infinite negative => (if negative then f.signBit else 0) + f.infinity
  | .finite negative significand exponent =>
    (if negative then f.signBit else 0) + f.round significand exponent

/-- A pattern of format `f` converted to format `g`, rounded to nearest, ties to even. -/
def convert (f g : FloatFormat) (pattern : Nat) : Nat :=
  g.encode f.fractionBits (f.decode pattern)

end FloatFormat

end BinaryLayout
