import BinaryLayout.Bitmap.Slice

/-!
# Looking for bits

Above the highest bit that is set all bits are clear, so no search goes further than that, however
wide the bitmap is.

## Main definitions

* `Bitmap.count`: how many bits have a value.
* `Bitmap.scan`, `Bitmap.scanReverse`: the next bit of a value, upward or downward.
* `Bitmap.run`, `Bitmap.runs`: stretches of equal bits.
-/

namespace BinaryLayout.Bitmap

def ones (b : Bitmap) : Nat := (bitsOfNat b.bitLength b.value).count true

def count (b : Bitmap) (value : Bool) : Nat := if value then b.ones else b.width - b.ones

/-- The least of `count` indices from `start` on whose bit equals `value`. -/
def scanUp (number : Nat) (value : Bool) : Nat → Nat → Option Nat
  | 0, _ => none
  | count + 1, start =>
    if number.testBit start = value then some start else scanUp number value count (start + 1)

/-- The greatest index below `stop` whose bit equals `value`. -/
def scanDown (number : Nat) (value : Bool) : Nat → Option Nat
  | 0 => none
  | stop + 1 => if number.testBit stop = value then some stop else scanDown number value stop

/-- The least index from `start` on whose bit equals `value`. -/
def scan (b : Bitmap) (value : Bool) (start : Nat) : Option Nat :=
  match scanUp b.value value (b.bitLength - start) start with
  | some i => some i
  | none =>
    let top := max start b.bitLength
    if !value ∧ top < b.width then some top else none

/-- The greatest index up to `start` whose bit equals `value`. -/
def scanReverse (b : Bitmap) (value : Bool) (start : Nat) : Option Nat :=
  let stop := min (start + 1) b.width
  if !value ∧ b.bitLength < stop then some (stop - 1)
  else scanDown b.value value (min stop b.bitLength)

/-- The bit at `start` and how many bits from there on equal it. -/
def run (b : Bitmap) (start : Nat) : Option (Bool × Nat) :=
  if start < b.width then
    some (b.bit start, (b.scan (!b.bit start) start).getD b.width - start)
  else none

/-- The runs from `start` on, at most `fuel` of them. -/
def runsFrom (b : Bitmap) : Nat → Nat → List Bitmap
  | 0, _ => []
  | fuel + 1, start =>
    match b.run start with
    | some (_, length) => b.get start length :: runsFrom b fuel (start + length)
    | none => []

/-- The runs of equal bits, least significant first. -/
def runs (b : Bitmap) : List Bitmap := b.runsFrom b.width 0

end BinaryLayout.Bitmap
