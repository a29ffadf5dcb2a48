import BinaryLayout.Power

/-!
# Bitmaps

A bitmap is a string of bits of a given width, held as the number whose binary digits they are. The
sign flag says how the number reads: a signed bitmap holds two's complement, and the flag changes
neither the width nor the bits.

## Main definitions

* `Bitmap`: a number below `2 ^ width`, with a sign flag.
* `Bitmap.bits`, `Bitmap.ofBits`: the list of bits, least significant first, and back.
* `wrap`: an integer modulo a power of two.
* `Bitmap.ofNat`, `Bitmap.ofInt`, `Bitmap.withLength`: the low bits of a number.
* `Bitmap.toInt`: the number that the bits stand for under the sign flag.
* `Bitmap.binary`, `Bitmap.hex`, `Bitmap.text`: written forms.

## Main statements

* `bitsOfNat_eq`, `natByHalves_eq`: taking a number apart, or putting it together, by halves is the
  same as digit by digit.
* `wrap_eq`: the number left of an integer is its remainder.
* `Bitmap.bits_eq`: the list of bits holds each bit at its index.
* `Bitmap.value_lt_bitLength`: no bit is set from the bit length on.
-/

namespace BinaryLayout

/-- A string of `width` bits. -/
structure Bitmap where
  value : Nat
  width : Nat
  signed : Bool
  value_lt : value < pow2 width
  deriving DecidableEq

/-- The number whose binary digits are `bits`, least significant first. -/
def natOfBits : List Bool → Nat
  | [] => 0
  | b :: bs => b.toNat + 2 * natOfBits bs

theorem natOfBits_lt (bits : List Bool) : natOfBits bits < pow2 bits.length := by
  induction bits with
  | nil => simp [natOfBits]
  | cons b bs ih =>
    have hb : b.toNat ≤ 1 := Bool.toNat_le b
    simp only [natOfBits, List.length_cons, pow2_succ]
    omega

/-- The lower digits come first. -/
theorem natOfBits_append (low high : List Bool) :
    natOfBits (low ++ high) = natOfBits low + pow2 low.length * natOfBits high := by
  induction low with
  | nil => simp [natOfBits]
  | cons b bs ih =>
    simp only [List.cons_append, natOfBits, List.length_cons, pow2_succ, ih, Nat.mul_add,
      Nat.mul_assoc, Nat.add_assoc]

/-- The number of the first `count` digits, put together from two halves and these from theirs,
`depth` times. -/
def natByHalves : Nat → Nat → List Bool → Nat
  | 0, count, bits => natOfBits (bits.take count)
  | depth + 1, count, bits =>
    natByHalves depth (count / 2) bits
      + natByHalves depth (count - count / 2) (bits.drop (count / 2)) <<< (count / 2)

/-- Halves that are all there make the same number. -/
theorem natByHalves_eq (depth count : Nat) (bits : List Bool) (h : count ≤ bits.length) :
    natByHalves depth count bits = natOfBits (bits.take count) := by
  induction depth generalizing count bits with
  | zero => rfl
  | succ depth ih =>
    have hHalf : count / 2 ≤ bits.length := by omega
    rw [natByHalves, ih _ _ hHalf, ih _ _ (by rw [List.length_drop]; omega), shiftLeft_eq]
    have hCut : count = count / 2 + (count - count / 2) := by omega
    conv => rhs; rw [hCut, List.take_add, natOfBits_append, List.length_take, Nat.min_eq_left hHalf]

/-- The lowest `count` digits of a number, least significant first, from its two halves and these
from theirs, `depth` times. -/
def bitsByHalves : Nat → Nat → Nat → List Bool
  | 0, count, value => (List.range count).map value.testBit
  | depth + 1, count, value =>
    bitsByHalves depth (count / 2) (lowBits (count / 2) value)
      ++ bitsByHalves depth (count - count / 2) (value >>> (count / 2))

/-- How often a number of so many bits is halved. -/
def halvings (count : Nat) : Nat := count.log2 - 5

/-- The lowest `count` digits of a number, least significant first. -/
def bitsOfNat (count value : Nat) : List Bool := bitsByHalves (halvings count) count value

/-- Each digit is a bit of the number. -/
theorem bitsByHalves_eq (depth count value : Nat) :
    bitsByHalves depth count value = (List.range count).map value.testBit := by
  induction depth generalizing count value with
  | zero => rfl
  | succ depth ih =>
    rw [bitsByHalves, ih, ih]
    have hCut : count = count / 2 + (count - count / 2) := by omega
    conv => rhs; rw [hCut, List.range_add, List.map_append, List.map_map]
    congr 1
    · apply List.map_congr_left
      intro i hi
      rw [lowBits_eq]
      exact (Nat.testBit_mod_two_pow value (count / 2) i).trans
        (by simp [List.mem_range.1 hi])
    · apply List.map_congr_left
      intro i _
      simp [Nat.testBit_shiftRight]

/-- Each digit is a bit of the number. -/
theorem bitsOfNat_eq (count value : Nat) :
    bitsOfNat count value = (List.range count).map value.testBit :=
  bitsByHalves_eq (halvings count) count value

@[simp] theorem length_bitsOfNat (count value : Nat) : (bitsOfNat count value).length = count := by
  simp [bitsOfNat_eq]

/-- An integer reduced modulo `2 ^ bits`. The first remainder has the sign of the integer, and the
second one, of a sum that is not negative, has none. -/
def wrap (value : Int) (bits : Nat) : Nat :=
  ((value.tmod (pow2 bits) + pow2 bits).tmod (pow2 bits)).toNat

/-- The two remainders are the one that is never negative. -/
theorem wrap_eq (value : Int) (bits : Nat) : (wrap value bits : Int) = value % pow2 bits := by
  have hpos : (0 : Int) < pow2 bits := Int.ofNat_lt.2 (pow2_pos bits)
  have hlow : -(pow2 bits : Int) < value.tmod (pow2 bits) := Int.lt_tmod_of_pos value hpos
  have hsame : value.tmod (pow2 bits) % pow2 bits = value % pow2 bits := by
    conv => rhs; rw [← Int.mul_tdiv_add_tmod value (pow2 bits)]
    rw [Int.add_comm, Int.add_mul_emod_self_left]
  have hsum : (value.tmod (pow2 bits) + pow2 bits).tmod (pow2 bits) = value % pow2 bits := by
    rw [Int.tmod_eq_emod_of_nonneg (by omega), Int.add_emod_right, hsame]
  rw [wrap, hsum, Int.toNat_of_nonneg (Int.emod_nonneg value (by omega))]

theorem wrap_lt (value : Int) (bits : Nat) : wrap value bits < pow2 bits := by
  have hpos : (0 : Int) < pow2 bits := Int.ofNat_lt.2 (pow2_pos bits)
  have h := Int.emod_lt_of_pos value hpos
  rw [← wrap_eq] at h
  omega

namespace Bitmap

/-- The low `width` bits of a number. -/
def ofNat (value width : Nat) (signed : Bool) : Bitmap :=
  ⟨lowBits width value, width, signed, lowBits_lt width value⟩

/-- The low `width` bits of an integer's two's complement. -/
def ofInt (value : Int) (width : Nat) (signed : Bool) : Bitmap :=
  ⟨wrap value width, width, signed, wrap_lt value width⟩

def empty : Bitmap := ofNat 0 0 false

instance : Inhabited Bitmap := ⟨empty⟩

/-- A bitmap of `|length|` bits, signed when `length` is negative. -/
def withLength (value length : Int) : Bitmap :=
  ofInt value length.natAbs (decide (length < 0))

/-- The bitmap of a list of bits, least significant first. -/
def ofBits (bits : List Bool) (signed : Bool) : Bitmap :=
  ⟨natByHalves (halvings bits.length) bits.length bits, bits.length, signed, by
    rw [natByHalves_eq _ _ _ (Nat.le_refl _), List.take_length]
    exact natOfBits_lt bits⟩

/-- The bit at `index`, counted from the least significant. -/
def bit (b : Bitmap) (index : Nat) : Bool := b.value.testBit index

def bits (b : Bitmap) : List Bool := bitsOfNat b.width b.value

/-- How many bits there are up to the highest one that is set. -/
def bitLength (b : Bitmap) : Nat := if b.value = 0 then 0 else b.value.log2 + 1

/-- The same bits under another sign flag. -/
def withSign (b : Bitmap) (signed : Bool) : Bitmap := { b with signed }

/-- The width, negative for a signed bitmap. -/
def length (b : Bitmap) : Int := if b.signed then -b.width else b.width

/-- The number that the bits stand for: two's complement when signed. -/
def toInt (b : Bitmap) : Int :=
  if b.signed ∧ 0 < b.width ∧ b.bit (b.width - 1) then b.value - pow2 b.width else b.value

/-- The value, when it is below `2 ^ size`. -/
def toNat? (b : Bitmap) (size : Nat) : Option Nat :=
  if b.value < pow2 size then some b.value else none

/-- The number that the bits stand for, when 128 bits of two's complement hold it. -/
def toInt128? (b : Bitmap) : Option Int :=
  if -pow2 127 ≤ b.toInt ∧ b.toInt < pow2 127 then some b.toInt else none

/-- The binary digits of the whole width, one at least. -/
def binary (b : Bitmap) : String :=
  String.ofList ((bitsOfNat (max 1 b.width) b.value).reverse.map fun bit =>
    if bit then '1' else '0')

/-- The hexadecimal digit of each four bits, least significant first. -/
def hexDigits : List Bool → List Char
  | a :: b :: c :: d :: rest => Nat.digitChar (natOfBits [a, b, c, d]) :: hexDigits rest
  | [] => []
  | bits => [Nat.digitChar (natOfBits bits)]

/-- The hexadecimal digits of the whole width, one at least. -/
def hex (b : Bitmap) : String :=
  String.ofList (hexDigits (bitsOfNat (max 1 b.width) b.value)).reverse

def text (b : Bitmap) : String := s!"({b.toInt}, {b.length})"

@[simp] theorem width_ofNat (value width : Nat) (signed : Bool) :
    (ofNat value width signed).width = width := rfl

@[simp] theorem value_ofNat (value width : Nat) (signed : Bool) :
    (ofNat value width signed).value = value % pow2 width := lowBits_eq width value

@[simp] theorem width_ofInt (value : Int) (width : Nat) (signed : Bool) :
    (ofInt value width signed).width = width := rfl

@[simp] theorem signed_ofInt (value : Int) (width : Nat) (signed : Bool) :
    (ofInt value width signed).signed = signed := rfl

/-- The magnitude is the remainder of the integer. -/
theorem value_ofInt (value : Int) (width : Nat) (signed : Bool) :
    ((ofInt value width signed).value : Int) = value % pow2 width := wrap_eq value width

@[simp] theorem width_withSign (b : Bitmap) (signed : Bool) :
    (b.withSign signed).width = b.width := rfl

@[simp] theorem width_ofBits (bits : List Bool) (signed : Bool) :
    (ofBits bits signed).width = bits.length := rfl

@[simp] theorem value_ofBits (bits : List Bool) (signed : Bool) :
    (ofBits bits signed).value = natOfBits bits :=
  (natByHalves_eq _ _ _ (Nat.le_refl _)).trans (by rw [List.take_length])

@[simp] theorem length_bits (b : Bitmap) : b.bits.length = b.width := length_bitsOfNat _ _

/-- The list of bits holds each of them at its index. -/
theorem bits_eq (b : Bitmap) : b.bits = (List.range b.width).map b.bit :=
  bitsOfNat_eq b.width b.value

/-- No bit is set from the bit length on. -/
theorem value_lt_bitLength (b : Bitmap) : b.value < pow2 b.bitLength := by
  unfold bitLength
  split
  · rename_i h
    rw [h]
    exact pow2_pos 0
  · exact lt_pow2_of_log2_lt (Nat.lt_succ_self _)

/-- The highest bit that is set lies within the width. -/
theorem bitLength_le (b : Bitmap) : b.bitLength ≤ b.width := by
  unfold bitLength
  split
  · exact Nat.zero_le _
  · rename_i h
    exact (Nat.log2_lt h).2 b.value_lt

end Bitmap

end BinaryLayout
