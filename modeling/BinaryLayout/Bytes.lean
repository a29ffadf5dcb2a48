import BinaryLayout.Power

/-!
# Bytes and byte order

A byte string is a list of octets. A non-negative number is stored positionally in base 256, its
least significant digit first in little-endian order and last in big-endian order, so the big-endian
reader and writer are the little-endian ones on the reversed string.

## Main definitions

* `ByteOrder`: which end of a stored number comes first.
* `ByteOrder.readNat`, `ByteOrder.writeNat`: the number stored in a byte string, and back.
* `signExtend`: the two's complement reading of the low bits of a number.

## Main statements

* `ByteOrder.readNat_writeNat`: a stored number reads back modulo the range of its width.
-/

namespace BinaryLayout

abbrev Bytes := List UInt8

/-- Which end of a stored number, or of a packed byte, comes first. -/
inductive ByteOrder where
  | big
  | little
  deriving DecidableEq, Repr, Inhabited

namespace ByteOrder

/-- The ending that names of ordered types carry. -/
def suffix : ByteOrder → String
  | big => "be"
  | little => "le"

/-- The number whose base-256 digits are `bytes`, least significant first. -/
def natOfDigits : Bytes → Nat
  | [] => 0
  | b :: bs => b.toNat + 256 * natOfDigits bs

/-- The `width` low base-256 digits of a number, least significant first. -/
def digitsOfNat : Nat → Nat → Bytes
  | 0, _ => []
  | width + 1, n => UInt8.ofNat n :: digitsOfNat width (n / 256)

/-- The non-negative number stored in `bytes`. -/
def readNat (order : ByteOrder) (bytes : Bytes) : Nat :=
  match order with
  | little => natOfDigits bytes
  | big => natOfDigits bytes.reverse

/-- The low `width` bytes of `n`, in the given order. -/
def writeNat (order : ByteOrder) (width n : Nat) : Bytes :=
  match order with
  | little => digitsOfNat width n
  | big => (digitsOfNat width n).reverse

@[simp] theorem length_digitsOfNat (width n : Nat) : (digitsOfNat width n).length = width := by
  induction width generalizing n with
  | zero => rfl
  | succ width ih => simp [digitsOfNat, ih]

@[simp] theorem length_writeNat (order : ByteOrder) (width n : Nat) :
    (order.writeNat width n).length = width := by
  cases order <;> simp [writeNat]

/-- Writing keeps exactly what fits in the width. -/
theorem natOfDigits_digitsOfNat (width n : Nat) :
    natOfDigits (digitsOfNat width n) = n % pow2 (8 * width) := by
  induction width generalizing n with
  | zero => simp [digitsOfNat, natOfDigits, Nat.mod_one]
  | succ width ih =>
    simp only [digitsOfNat, natOfDigits, ih]
    rw [show 8 * (width + 1) = 8 + 8 * width by omega, pow2_add, show pow2 8 = 256 from rfl,
      Nat.mod_mul]
    simp

/-- Reading back what was written gives the number modulo the width's range. -/
theorem readNat_writeNat (order : ByteOrder) (width n : Nat) :
    order.readNat (order.writeNat width n) = n % pow2 (8 * width) := by
  cases order <;> simp [readNat, writeNat, natOfDigits_digitsOfNat]

end ByteOrder

/-- The integer that the low `bits` bits of `value` stand for in two's complement. A width of 0, or
of 128 and more, reads the value as a 128-bit integer. -/
def signExtend (value bits : Nat) : Int :=
  if bits = 0 ∨ bits ≥ 128 then Int.bmod value (pow2 128) else Int.bmod value (pow2 bits)

end BinaryLayout
