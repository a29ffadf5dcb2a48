import BinaryLayout.Bitmap.Scan
import BinaryLayout.Proofs.Bitmap.Stream
import BinaryLayout.Proofs.Codec.Integer
import Mathlib.Data.Bool.Count
import Mathlib.Data.List.Rotate
import Mathlib.Data.Nat.Find
import Mathlib.Order.Bounds.Basic

/-!
# Bitmaps as lists of bits

Each operation on bitmaps is computed with shifts and remainders of one number. Here it is told by
the list of the bits, least significant first, and no bit is left above the width. A stretch of a
stream is kept by the field that it is read into, in either order, and the bytes of a stream are those
that it was made of.

## Main definitions

* `Bitmap.Consists`: the bits of a bitmap and its sign flag.
* `Bitmap.OperatesOnBits`: what each operation makes of the list of the bits.

## Main statements

* `Bitmap.stream_ofStream`: the stretch of a field that was read from a stretch.
* `BitStream.pack_flatMap`: the bytes of the bits of bytes.
* `Bitmap.eq_of_bits`: the bits and the sign flag are all there is to a bitmap.
* `Bitmap.operatesOnBits`: every bitmap is operated on bit by bit.
-/

namespace BinaryLayout

/-! ## Fields -/

theorem testBit_natOfBits (bits : List Bool) (i : Nat) :
    (natOfBits bits).testBit i = bits[i]?.getD false := by
  induction bits generalizing i with
  | nil => exact Nat.zero_testBit i
  | cons b bits ih =>
    have hb := Bool.toNat_lt b
    rw [natOfBits]
    cases i with
    | zero =>
      rw [Nat.testBit_zero, List.getElem?_cons_zero, Option.getD_some]
      cases b <;> simp
    | succ i =>
      have hhalf : (b.toNat + 2 * natOfBits bits) / 2 = natOfBits bits := by omega
      rw [Nat.testBit_succ, hhalf, ih, List.getElem?_cons_succ]

/-- The digits of the number of given digits. -/
theorem bitsOfNat_natOfBits (bits : List Bool) : bitsOfNat bits.length (natOfBits bits) = bits := by
  refine List.ext_getElem (length_bitsOfNat _ _) fun i _ hi => ?_
  simp only [bitsOfNat_eq, List.getElem_map, List.getElem_range, testBit_natOfBits,
    List.getElem?_eq_getElem hi, Option.getD_some]

/-- The number of the digits of a number. -/
theorem natOfBits_bitsOfNat (count value : Nat) :
    natOfBits (bitsOfNat count value) = value % pow2 count := by
  refine Nat.eq_of_testBit_eq fun i => ?_
  rw [testBit_natOfBits, bitsOfNat_eq]
  refine Eq.trans ?_ (Nat.testBit_mod_two_pow value count i).symm
  by_cases hi : i < count
  · simp [hi]
  · simp [hi]

namespace Bitmap

theorem bits_ofBits (bits : List Bool) (signed : Bool) : (ofBits bits signed).bits = bits := by
  rw [Bitmap.bits, value_ofBits, width_ofBits, bitsOfNat_natOfBits]

/-- A field keeps the stretch of a stream that it was read from. -/
@[simp] theorem stream_ofStream (order : ByteOrder) (bits : List Bool) :
    (ofStream order bits).stream order = bits := by
  cases order with
  | big => rw [ofStream, stream, bits_ofBits, List.reverse_reverse]
  | little => rw [ofStream, stream, bits_ofBits]

/-- The sign flag changes no bit. -/
@[simp] theorem stream_withSign (order : ByteOrder) (b : Bitmap) (signed : Bool) :
    (b.withSign signed).stream order = b.stream order := by
  cases order <;> rfl

theorem natOfBits_bits (b : Bitmap) : natOfBits b.bits = b.value := by
  rw [Bitmap.bits, natOfBits_bitsOfNat, Nat.mod_eq_of_lt b.value_lt]

/-- The number read from a stretch is that of the field which the stretch carries. -/
theorem value_ofStream_stream (order : ByteOrder) (b : Bitmap) :
    (ofStream order (b.stream order)).value = b.value := by
  cases order with
  | big => rw [stream, ofStream, List.reverse_reverse, value_ofBits, natOfBits_bits]
  | little => rw [stream, ofStream, value_ofBits, natOfBits_bits]

end Bitmap

/-! ## Bytes -/

namespace BitStream

@[simp] theorem length_ofByte (order : ByteOrder) (b : UInt8) : (ofByte order b).length = 8 := by
  rw [ofByte, Bitmap.length_stream, Bitmap.width_ofNat]

theorem length_flatMap_ofByte (order : ByteOrder) (bytes : Bytes) :
    (bytes.flatMap (ofByte order)).length = 8 * bytes.length := by
  induction bytes with
  | nil => rfl
  | cons b bytes ih =>
    rw [List.flatMap_cons, List.length_append, length_ofByte, ih, List.length_cons]
    omega

/-- The byte of the bits of a byte. -/
theorem toByte_ofByte (order : ByteOrder) (b : UInt8) : toByte order (ofByte order b) = b := by
  have hlt : b.toNat < pow2 8 := b.toNat_lt
  rw [toByte, length_ofByte, Nat.sub_self, List.replicate_zero, List.append_nil, ofByte,
    Bitmap.value_ofStream_stream, Bitmap.value_ofNat, Nat.mod_eq_of_lt hlt, UInt8.ofNat_toNat]

theorem pack_append (order : ByteOrder) {byte : List Bool} (h : byte.length = 8) (rest : List Bool) :
    pack order (byte ++ rest) = toByte order byte :: pack order rest := by
  match byte, h with
  | [_, _, _, _, _, _, _, _], _ => rfl

/-- The bytes of the bits of bytes. -/
theorem pack_flatMap (order : ByteOrder) (bytes : Bytes) :
    pack order (bytes.flatMap (ofByte order)) = bytes := by
  induction bytes with
  | nil => rfl
  | cons b bytes ih =>
    rw [List.flatMap_cons, pack_append order (length_ofByte order b), toByte_ofByte, ih]

end BitStream

end BinaryLayout

namespace BinaryLayout.Bitmap

variable {b c : Bitmap} {bits : List Bool} {signed v : Bool} {i n start : Nat}

/-! ## Bits by their index -/

theorem bit_eq_false (h : b.width ≤ i) : b.bit i = false :=
  Nat.testBit_lt_two_pow (Nat.lt_of_lt_of_le b.value_lt (pow2_le_pow2 h))

theorem getElem?_bits : b.bits[i]? = if i < b.width then some (b.bit i) else none := by
  by_cases hi : i < b.width
  · simp [bits_eq, hi]
  · simp [bits_eq, hi]

theorem getElem?_bits_eq_some : b.bits[i]? = some v ↔ i < b.width ∧ b.bit i = v := by
  simp [getElem?_bits]

@[simp] theorem getElem_bits (h : i < b.bits.length) : b.bits[i] = b.bit i := by
  simp [bits_eq]

/-- A list of bits is known by its length and by each bit at its index. -/
theorem bits_eq_of_bit (hwidth : b.width = bits.length)
    (hbit : ∀ i (hi : i < bits.length), b.bit i = bits[i]) : b.bits = bits := by
  apply List.ext_getElem
  · simp [hwidth]
  · intro i _ hi
    simp [bits_eq, hbit i hi]

/-- A list of bits is known by its length and by the number that it makes. -/
theorem bits_eq_of_natOfBits (hwidth : bits.length = b.width) (hvalue : natOfBits bits = b.value) :
    b.bits = bits := by
  rw [Bitmap.bits, ← hwidth, ← hvalue, bitsOfNat_natOfBits]

/-- The bits and the sign flag are all there is to a bitmap. -/
theorem eq_of_bits (hbits : b.bits = c.bits) (hsigned : b.signed = c.signed) : b = c := by
  have hwidth : b.width = c.width := by simpa using congrArg List.length hbits
  have hvalue : b.value = c.value := by rw [← natOfBits_bits b, hbits, natOfBits_bits c]
  exact ext_value hvalue hwidth hsigned

theorem bits_eq_nil (h : b.width = 0) : b.bits = [] :=
  List.eq_nil_of_length_eq_zero (by simp [h])

@[simp] theorem bits_withSign : (b.withSign signed).bits = b.bits := rfl

@[simp] theorem signed_withSign : (b.withSign signed).signed = signed := rfl

@[simp] theorem bits_empty : empty.bits = [] := rfl

theorem testBit_lowBits (n value i : Nat) :
    (lowBits n value).testBit i = (decide (i < n) && value.testBit i) := by
  rw [lowBits_eq]
  exact Nat.testBit_mod_two_pow value n i

theorem testBit_mask (n i : Nat) : (mask n).testBit i = decide (i < n) :=
  Nat.testBit_two_pow_sub_one n i

theorem bit_ofNat (value width : Nat) :
    (ofNat value width signed).bit i = (decide (i < width) && value.testBit i) :=
  testBit_lowBits width value i

/-! ## Joining and cutting -/

@[simp] theorem bits_push : (b.push c).bits = c.bits ++ b.bits := by
  apply bits_eq_of_natOfBits
  · simp [Nat.add_comm]
  · simp [natOfBits_append, natOfBits_bits, push, shiftLeft_or c.value_lt, Nat.add_comm]

/-- Putting a bitmap above is putting the other one below, but for the sign flag. -/
theorem bits_append_eq_push : (b.append c).bits = (c.push b).bits := by
  rw [Bitmap.bits, Bitmap.bits, width_append, width_push, Nat.add_comm]
  rfl

@[simp] theorem bits_append : (b.append c).bits = b.bits ++ c.bits := by
  rw [bits_append_eq_push, bits_push]

@[simp] theorem bits_low (b : Bitmap) (n : Nat) : (b.low n).bits = b.bits.take n := by
  apply bits_eq_of_bit
  · simp [low]
  · intro i hi
    have hin : i < n ∧ i < b.width := by simpa using hi
    rw [low, bit_ofNat]
    simp [hin, bit]

@[simp] theorem bits_high (b : Bitmap) (n : Nat) : (b.high n).bits = b.bits.drop n := by
  apply bits_eq_of_bit
  · simp [high]
    omega
  · intro i hi
    have hn : min n b.width = n := by
      simp at hi
      omega
    simp [high, hn, bit]

@[simp] theorem bits_grow (b : Bitmap) (n : Nat) :
    (b.grow n).bits = b.bits ++ List.replicate n false := by
  apply bits_eq_of_bit
  · simp [grow]
  · intro i hi
    rw [List.getElem_append]
    by_cases h : i < b.width
    · simp [grow, h, bit]
    · have hfalse : b.value.testBit i = false := bit_eq_false (Nat.le_of_not_lt h)
      simp [grow, h, bit, hfalse]

@[simp] theorem bits_shrink (b : Bitmap) (n : Nat) :
    (b.shrink n).bits = b.bits.take (b.width - n) := by
  rw [← bits_low, low, shrink, Nat.min_eq_left (Nat.sub_le b.width n)]

/-! ## Fields -/

theorem bits_get (b : Bitmap) (index count : Nat) :
    (b.get index count).bits = (List.range count).map fun i => b.bits[index + i]?.getD false := by
  apply bits_eq_of_bit
  · simp [get]
  · intro i hi
    have hin : i < count := by simpa using hi
    rw [List.getElem_map, List.getElem_range, getElem?_bits, get, bit_ofNat, Nat.testBit_shiftRight]
    by_cases h : index + i < b.width
    · simp [hin, h, bit]
    · have hfalse : b.value.testBit (index + i) = false := bit_eq_false (Nat.le_of_not_lt h)
      simp [h, hfalse]

/-- The bit is taken from the value inside the field, and from the bitmap outside of it. -/
theorem bit_set (b : Bitmap) (index value count i : Nat) (hi : i < b.width) :
    (b.set index value count).bit i
      = if index ≤ i ∧ i < index + count then value.testBit (i - index) else b.bit i := by
  rw [set, bit_ofNat]
  simp only [Nat.testBit_or, Nat.testBit_and, Nat.testBit_xor, Nat.testBit_shiftLeft, testBit_mask,
    hi, decide_true, Bool.true_and]
  by_cases hbelow : index ≤ i
  · by_cases hwithin : i < index + count
    · have hplace : i - index < count := by omega
      simp [hbelow, hwithin, hplace]
    · have hplace : ¬ i - index < count := by omega
      simp [hwithin, hplace, bit]
  · simp [hbelow, bit]

theorem bits_set (b : Bitmap) (index value count : Nat) :
    (b.set index value count).bits
      = b.bits.mapIdx fun i old =>
          if index ≤ i ∧ i < index + count then value.testBit (i - index) else old := by
  apply bits_eq_of_bit
  · simp [set]
  · intro i hi
    have hin : i < b.width := by simpa using hi
    simp [bit_set _ _ _ _ _ hin]

/-! ## Turning -/

/-- Bits turned round the width, by the place that each of them comes from. -/
theorem rotate_bits_eq (b : Bitmap) (n : Nat) :
    b.bits.rotate n
      = (List.range b.width).map fun i => b.bits[(i + n) % b.width]?.getD false := by
  apply List.ext_getElem
  · simp
  · intro i hi _
    have hin : i < b.width := by simpa using hi
    have hlt : (i + n) % b.width < b.width := Nat.mod_lt _ (by omega)
    simp [List.getElem_rotate, hlt]

/-- Bits that are moved up and those that come in at the bottom are two stretches cut apart and joined
the other way round. -/
theorem rotateLeft_eq (b : Bitmap) (n : Nat) (hwidth : b.width ≠ 0) :
    b.rotateLeft n = (b.shift (n % b.width)).1.push (b.shift (n % b.width)).2 := by
  have hlt : n % b.width < b.width := Nat.mod_lt n (Nat.pos_of_ne_zero hwidth)
  have hle : b.width - n % b.width ≤ b.width := by omega
  have hrest : b.width - (b.width - n % b.width) = n % b.width := by omega
  rw [rotateLeft, if_neg hwidth]
  refine ext_value ?_ ?_ rfl
  · simp only [push, shift, low, high, ofNat, Nat.min_eq_left hle, hrest]
    apply Nat.eq_of_testBit_eq
    intro i
    simp only [Nat.testBit_or, Nat.testBit_and, Nat.testBit_shiftLeft, Nat.testBit_shiftRight,
      testBit_mask, testBit_lowBits]
    by_cases hi : i < b.width
    · by_cases hbelow : n % b.width ≤ i
      · have hplace : i - n % b.width < b.width - n % b.width := by omega
        simp [hi, hbelow, hplace]
      · simp [hi, hbelow]
    · have hpast : b.value.testBit (b.width - n % b.width + i) = false := bit_eq_false (by omega)
      have hplace : ¬ i - n % b.width < b.width - n % b.width := by omega
      simp [hi, hpast, hplace]
  · simp [shift, low, high, hrest]
    omega

/-- The bits that go over the top are the first ones of the list. -/
theorem bits_rotateLeft_eq_rotate (b : Bitmap) (n : Nat) :
    (b.rotateLeft n).bits = b.bits.rotate (b.width - n % b.width) := by
  by_cases hwidth : b.width = 0
  · simp [rotateLeft, hwidth, bits_eq_nil hwidth]
  · rw [rotateLeft_eq b n hwidth, List.rotate_eq_drop_append_take (by simp)]
    simp [shift]

theorem bits_rotateLeft (b : Bitmap) (n : Nat) :
    (b.rotateLeft n).bits = (List.range b.width).map fun (i : Nat) =>
      b.bits[(((i : Int) - n) % b.width).toNat]?.getD false := by
  rw [bits_rotateLeft_eq_rotate, rotate_bits_eq]
  apply List.map_congr_left
  intro i hi
  have hpos : 0 < b.width := by
    have := List.mem_range.1 hi
    omega
  have hlt : n % b.width < b.width := Nat.mod_lt n hpos
  have hplace : ((i : Int) - n) % b.width = ((i + (b.width - n % b.width)) % b.width : Nat) := by
    have hrounds : (i : Int) - n
        = (i + (b.width - n % b.width) : Nat) + b.width * (-(n / b.width : Nat) - 1) := by
      have hn : (n : Int) = b.width * (n / b.width : Nat) + (n % b.width : Nat) :=
        congrArg Nat.cast (Nat.div_add_mod n b.width).symm
      rw [Int.mul_sub, Int.mul_neg]
      omega
    rw [hrounds, Int.add_mul_emod_self_left]
    exact Int.natCast_emod _ _
  rw [hplace, Int.toNat_natCast]

theorem bits_rotateRight (b : Bitmap) (n : Nat) :
    (b.rotateRight n).bits
      = (List.range b.width).map fun i => b.bits[(i + n) % b.width]?.getD false := by
  rw [← rotate_bits_eq]
  by_cases hwidth : b.width = 0
  · simp [rotateRight, hwidth, bits_eq_nil hwidth]
  · have hlt : n % b.width < b.width := Nat.mod_lt n (Nat.pos_of_ne_zero hwidth)
    rw [rotateRight, if_neg hwidth, bits_rotateLeft_eq_rotate, ← List.rotate_mod,
      ← List.rotate_mod b.bits n, length_bits]
    congr 1
    by_cases hzero : n % b.width = 0
    · simp [hzero]
    · have : (b.width - n % b.width) % b.width = b.width - n % b.width := Nat.mod_eq_of_lt (by omega)
      rw [this, Nat.sub_sub_self hlt.le, Nat.mod_mod]

@[simp] theorem signed_rotateLeft (b : Bitmap) (n : Nat) : (b.rotateLeft n).signed = b.signed := by
  by_cases hwidth : b.width = 0
  · simp [rotateLeft, hwidth]
  · simp [rotateLeft, hwidth]

@[simp] theorem signed_rotateRight (b : Bitmap) (n : Nat) :
    (b.rotateRight n).signed = b.signed := by
  by_cases hwidth : b.width = 0
  · simp [rotateRight, hwidth]
  · simp [rotateRight, hwidth]

theorem natOfBits_replicate_false (n : Nat) : natOfBits (List.replicate n false) = 0 := by
  induction n with
  | zero => rfl
  | succ n ih => simp [List.replicate_succ, natOfBits, ih]

/-- Above the highest bit that is set there are zeros. -/
theorem bits_eq_append_replicate (b : Bitmap) :
    b.bits = bitsOfNat b.bitLength b.value ++ List.replicate (b.width - b.bitLength) false := by
  have hle : b.bitLength ≤ b.width := bitLength_le b
  apply bits_eq_of_natOfBits
  · simp [hle]
  · rw [natOfBits_append, natOfBits_replicate_false, natOfBits_bitsOfNat,
      Nat.mod_eq_of_lt b.value_lt_bitLength, Nat.mul_zero, Nat.add_zero]

theorem bits_reverse (b : Bitmap) : b.reverse.bits = b.bits.reverse := by
  apply bits_eq_of_bit
  · simp [reverse]
  · intro i hi
    have hin : i < b.width := by simpa using hi
    have hplace : b.width - 1 - i < b.width := by omega
    rw [bit, reverse, testBit_reversed (Nat.le_refl _)]
    simp [hin, hplace]

/-! ## Looking for bits -/

theorem count_eq (b : Bitmap) (v : Bool) : b.count v = b.bits.count v := by
  have hones : b.ones = b.bits.count true := by
    rw [ones, bits_eq_append_replicate, List.count_append]
    simp [List.count_replicate]
  cases v with
  | true => simp [count, hones]
  | false =>
    have hall := List.count_false_add_count_true b.bits
    rw [length_bits] at hall
    simp [count, hones]
    omega

/-- A search upward stands at the first bit of the value. -/
theorem isLeast_of_scanUp {number count : Nat} (h : scanUp number v count start = some i) :
    IsLeast {j | start ≤ j ∧ number.testBit j = v} i ∧ i < start + count := by
  induction count generalizing start with
  | zero => simp [scanUp] at h
  | succ count ih =>
    by_cases hbit : number.testBit start = v
    · simp only [scanUp, hbit, if_true, Option.some.injEq] at h
      subst h
      exact ⟨⟨⟨Nat.le_refl _, hbit⟩, fun j hj => hj.1⟩, by omega⟩
    · simp only [scanUp, hbit, if_false] at h
      have ⟨⟨⟨hle, hi⟩, hleast⟩, hlt⟩ := ih h
      refine ⟨⟨⟨by omega, hi⟩, ?_⟩, by omega⟩
      intro j hj
      have hne : j ≠ start := fun heq => hbit (heq ▸ hj.2)
      exact hleast ⟨by have := hj.1; omega, hj.2⟩

/-- A search upward that finds nothing has passed no bit of the value. -/
theorem le_of_scanUp_eq_none {number count j : Nat} (h : scanUp number v count start = none)
    (hstart : start ≤ j) (hbit : number.testBit j = v) : start + count ≤ j := by
  induction count generalizing start with
  | zero => exact hstart
  | succ count ih =>
    by_cases hfirst : number.testBit start = v
    · simp [scanUp, hfirst] at h
    · simp only [scanUp, hfirst, if_false] at h
      have hne : j ≠ start := fun heq => hfirst (heq ▸ hbit)
      have := ih h (by omega)
      omega

/-- A search downward stands at the last bit of the value. -/
theorem isGreatest_of_scanDown {number stop : Nat} (h : scanDown number v stop = some i) :
    IsGreatest {j | j < stop ∧ number.testBit j = v} i := by
  induction stop with
  | zero => simp [scanDown] at h
  | succ stop ih =>
    by_cases hbit : number.testBit stop = v
    · simp only [scanDown, hbit, if_true, Option.some.injEq] at h
      subst h
      exact ⟨⟨Nat.lt_succ_self _, hbit⟩, fun j hj => Nat.le_of_lt_succ hj.1⟩
    · simp only [scanDown, hbit, if_false] at h
      have ⟨⟨hlt, hi⟩, hgreatest⟩ := ih h
      refine ⟨⟨by omega, hi⟩, ?_⟩
      intro j hj
      have hne : j ≠ stop := fun heq => hbit (heq ▸ hj.2)
      exact hgreatest ⟨by have := hj.1; omega, hj.2⟩

/-- A search downward that finds nothing has passed no bit of the value. -/
theorem le_of_scanDown_eq_none {number stop j : Nat} (h : scanDown number v stop = none)
    (hbit : number.testBit j = v) : stop ≤ j := by
  induction stop with
  | zero => exact Nat.zero_le j
  | succ stop ih =>
    by_cases hlast : number.testBit stop = v
    · simp [scanDown, hlast] at h
    · simp only [scanDown, hlast, if_false] at h
      have hne : j ≠ stop := fun heq => hlast (heq ▸ hbit)
      have := ih h
      omega

theorem bit_eq_false_of_bitLength_le (h : b.bitLength ≤ i) : b.bit i = false :=
  Nat.testBit_lt_two_pow (Nat.lt_of_lt_of_le b.value_lt_bitLength (pow2_le_pow2 h))

/-- The least index from `start` on at which the list of the bits holds the value. -/
theorem scan_eq_some_iff (b : Bitmap) (v : Bool) (start i : Nat) :
    b.scan v start = some i ↔ IsLeast {j | start ≤ j ∧ b.bits[j]? = some v} i := by
  have hle : b.bitLength ≤ b.width := bitLength_le b
  simp only [getElem?_bits_eq_some]
  rw [scan]
  cases hfound : scanUp b.value v (b.bitLength - start) start with
  | some k =>
    have ⟨⟨⟨hk, hbit⟩, hleast⟩, hlt⟩ := isLeast_of_scanUp hfound
    have hfirst : IsLeast {j | start ≤ j ∧ j < b.width ∧ b.bit j = v} k :=
      ⟨⟨hk, by omega, hbit⟩, fun j hj => hleast ⟨hj.1, hj.2.2⟩⟩
    simp [hfirst.isLeast_iff_eq]
  | none =>
    have hpast : ∀ j, start ≤ j → b.bit j = v → max start b.bitLength ≤ j := by
      intro j hj hbit
      have := le_of_scanUp_eq_none hfound hj hbit
      omega
    by_cases hclear : v = false ∧ max start b.bitLength < b.width
    · have hbit : b.bit (max start b.bitLength) = v :=
        hclear.1 ▸ bit_eq_false_of_bitLength_le (Nat.le_max_right _ _)
      have hfirst : IsLeast {j | start ≤ j ∧ j < b.width ∧ b.bit j = v} (max start b.bitLength) :=
        ⟨⟨Nat.le_max_left _ _, hclear.2, hbit⟩, fun j hj => hpast j hj.1 hj.2.2⟩
      rw [hfirst.isLeast_iff_eq]
      simp [hclear]
    · have hnone : ¬ IsLeast {j | start ≤ j ∧ j < b.width ∧ b.bit j = v} i := by
        intro h
        have hend := hpast i h.1.1 h.1.2.2
        have hbit : b.bit i = false := bit_eq_false_of_bitLength_le (by omega)
        exact hclear ⟨h.1.2.2 ▸ hbit, Nat.lt_of_le_of_lt hend h.1.2.1⟩
      have hnot : ¬ ((!v) = true ∧ max start b.bitLength < b.width) := by simpa using hclear
      simp only [hnot, if_false, hnone, reduceCtorEq]

/-- The greatest index up to `start` at which the list of the bits holds the value. -/
theorem scanReverse_eq_some_iff (b : Bitmap) (v : Bool) (start i : Nat) :
    b.scanReverse v start = some i ↔ IsGreatest {j | j ≤ start ∧ b.bits[j]? = some v} i := by
  have hle : b.bitLength ≤ b.width := bitLength_le b
  simp only [getElem?_bits_eq_some]
  rw [scanReverse]
  by_cases hclear : (!v) = true ∧ b.bitLength < min (start + 1) b.width
  · have hv : v = false := by simpa using hclear.1
    have hlast : IsGreatest {j | j ≤ start ∧ j < b.width ∧ b.bit j = v}
        (min (start + 1) b.width - 1) := by
      refine ⟨⟨by omega, by omega, ?_⟩, ?_⟩
      · rw [hv]
        exact bit_eq_false_of_bitLength_le (by omega)
      · intro j hj
        have := hj.1
        have := hj.2.1
        omega
    rw [hlast.isGreatest_iff_eq]
    simp [hclear]
  · simp only [hclear, if_false]
    -- A set bit lies below the bit length, and a search for a clear one ends there as well.
    have hstop : ∀ j, j ≤ start → j < b.width → b.bit j = v →
        j < min (min (start + 1) b.width) b.bitLength := by
      intro j hj hwidth hbit
      by_contra hnot
      have hfalse : b.bit j = false := bit_eq_false_of_bitLength_le (by omega)
      exact hclear ⟨by simp [← hbit, hfalse], by omega⟩
    have hset : {j | j < min (min (start + 1) b.width) b.bitLength ∧ b.value.testBit j = v}
        = {j | j ≤ start ∧ j < b.width ∧ b.bit j = v} := by
      ext j
      constructor
      · intro hj
        have := hj.1
        exact ⟨by omega, by omega, hj.2⟩
      · intro hj
        exact ⟨hstop j hj.1 hj.2.1 hj.2.2, hj.2.2⟩
    cases hfound : scanDown b.value v (min (min (start + 1) b.width) b.bitLength) with
    | some k =>
      have hlast := isGreatest_of_scanDown hfound
      rw [hset] at hlast
      rw [hlast.isGreatest_iff_eq]
      simp
    | none =>
      have hnone : ¬ IsGreatest {j | j ≤ start ∧ j < b.width ∧ b.bit j = v} i := by
        intro h
        have := le_of_scanDown_eq_none hfound h.1.2.2
        have := hstop i h.1.1 h.1.2.1 h.1.2.2
        omega
      simp [hnone]

/-- A stretch of `n` equal bits from `start` on, as long as it can be. -/
structure IsRun (bits : List Bool) (start : Nat) (v : Bool) (n : Nat) : Prop where
  pos : 0 < n
  constant : ∀ j < n, bits[start + j]? = some v
  ends : bits[start + n]? ≠ some v

/-- From each index on there is one such stretch at most. -/
theorem IsRun.unique {w : Bool} {m : Nat} (h : IsRun bits start v n) (h' : IsRun bits start w m) :
    v = w ∧ n = m := by
  have hv : v = w := by
    have := (h.constant 0 h.pos).symm.trans (h'.constant 0 h'.pos)
    simpa using this
  subst hv
  have hle : ¬ n < m := fun hlt => h.ends (h'.constant n hlt)
  have hge : ¬ m < n := fun hlt => h'.ends (h.constant m hlt)
  exact ⟨rfl, by omega⟩

theorem isRun_of_stop {stop : Nat} (hstart : start < stop) (hstop : stop ≤ b.width)
    (hequal : ∀ j, start ≤ j → j < stop → b.bits[j]? ≠ some (!b.bit start))
    (hends : b.bits[stop]? ≠ some (b.bit start)) :
    IsRun b.bits start (b.bit start) (stop - start) := by
  constructor
  · omega
  · intro j hj
    have hne := hequal (start + j) (by omega) (by omega)
    have hwidth : start + j < b.width := by omega
    simpa [getElem?_bits, hwidth] using hne
  · have hsum : start + (stop - start) = stop := by omega
    rwa [hsum]

/-- The bits up to the next opposite one, or to the end where there is none, are a stretch. -/
theorem isRun_of_lt (h : start < b.width) :
    IsRun b.bits start (b.bit start) ((b.scan (!b.bit start) start).getD b.width - start) := by
  have hself : b.bits[start]? ≠ some (!b.bit start) := by simp [h]
  cases hscan : b.scan (!b.bit start) start with
  | some stop =>
    have ⟨⟨hle, hopposite⟩, hleast⟩ := (scan_eq_some_iff b _ start stop).1 hscan
    have hne : stop ≠ start := fun heq => hself (heq ▸ hopposite)
    apply isRun_of_stop
    · simp
      omega
    · exact Nat.le_of_lt (getElem?_bits_eq_some.1 hopposite).1
    · intro j hj hlt hbit
      have : stop ≤ j := hleast ⟨hj, hbit⟩
      simp at hlt
      omega
    · simp [hopposite]
  | none =>
    have hne : ∀ j, start ≤ j → b.bits[j]? ≠ some (!b.bit start) := by
      intro j hj hbit
      have hmem : ∃ k, start ≤ k ∧ b.bits[k]? = some (!b.bit start) := ⟨j, hj, hbit⟩
      classical
      have hleast := (scan_eq_some_iff b _ start (Nat.find hmem)).2
        ⟨Nat.find_spec hmem, fun k hk => Nat.find_min' hmem hk⟩
      simp [hscan] at hleast
    apply isRun_of_stop
    · exact h
    · exact Nat.le_refl _
    · intro j hj _
      exact hne j hj
    · simp

/-- The stretch of equal bits from `start` on. -/
theorem run_eq_some_iff (b : Bitmap) (start : Nat) (v : Bool) (n : Nat) :
    b.run start = some (v, n) ↔ IsRun b.bits start v n := by
  by_cases hstart : start < b.width
  · have hrun := isRun_of_lt hstart
    rw [run, if_pos hstart]
    constructor
    · intro h
      cases h
      exact hrun
    · intro h
      have hsame := hrun.unique h
      exact congrArg some (Prod.ext hsame.1 hsame.2)
  · have hnone : ¬ IsRun b.bits start v n := by
      intro h
      have := (getElem?_bits_eq_some.1 (h.constant 0 h.pos)).1
      omega
    simp [run, hstart, hnone]

/-! ## All operations -/

/-- The bits that a bitmap consists of, its sign flag, and that nothing is left above them. -/
structure Consists (b : Bitmap) (bits : List Bool) (signed : Bool) : Prop where
  bits_eq : b.bits = bits
  signed_eq : b.signed = signed
  value_lt : b.value < pow2 bits.length

theorem consists (hbits : b.bits = bits) (hsigned : b.signed = signed) :
    b.Consists bits signed := by
  refine ⟨hbits, hsigned, ?_⟩
  rw [← hbits, length_bits]
  exact b.value_lt

/-- What each operation makes of the list of the bits, least significant first. -/
structure OperatesOnBits (b : Bitmap) : Prop where
  /-- The other bitmap comes below. -/
  push : ∀ c, (b.push c).Consists (c.bits ++ b.bits) b.signed
  /-- The other bitmap comes above. -/
  append : ∀ c, (b.append c).Consists (b.bits ++ c.bits) b.signed
  /-- The top bits are cut off. -/
  shift : ∀ n, (b.shift n).1.Consists (b.bits.take (b.width - n)) b.signed
    ∧ (b.shift n).2.Consists (b.bits.drop (b.width - n)) b.signed
  /-- The lowest bits are cut off. -/
  consume : ∀ n, (b.consume n).1.Consists (b.bits.drop n) b.signed
    ∧ (b.consume n).2.Consists (b.bits.take n) b.signed
  /-- A field that reaches past the width reads zeros there. -/
  get : ∀ index count, (b.get index count).Consists
    ((List.range count).map fun i => b.bits[index + i]?.getD false) false
  /-- Inside the field each bit is one of the value, outside of it the old one. -/
  set : ∀ index value count, (b.set index value count).Consists
    (b.bits.mapIdx fun i old =>
      if index ≤ i ∧ i < index + count then value.testBit (i - index) else old) b.signed
  grow : ∀ n, (b.grow n).Consists (b.bits ++ List.replicate n false) b.signed
  shrink : ∀ n, (b.shrink n).Consists (b.bits.take (b.width - n)) b.signed
  /-- Each bit comes from `n` places below, round the width. -/
  rotateLeft : ∀ n, (b.rotateLeft n).Consists ((List.range b.width).map fun (i : Nat) =>
    b.bits[(((i : Int) - n) % b.width).toNat]?.getD false) b.signed
  /-- Each bit comes from `n` places above, round the width. -/
  rotateRight : ∀ n, (b.rotateRight n).Consists ((List.range b.width).map fun i =>
    b.bits[(i + n) % b.width]?.getD false) b.signed
  reverse : b.reverse.Consists b.bits.reverse b.signed
  count : ∀ v, b.count v = b.bits.count v
  /-- The first index from `start` on at which the bit has the value, when there is one. -/
  scan : ∀ v start i, b.scan v start = some i ↔ IsLeast {j | start ≤ j ∧ b.bits[j]? = some v} i
  /-- The last index up to `start` at which the bit has the value, when there is one. -/
  scanReverse : ∀ v start i,
    b.scanReverse v start = some i ↔ IsGreatest {j | j ≤ start ∧ b.bits[j]? = some v} i
  /-- As many bits from `start` on as are equal. -/
  run : ∀ start v n, b.run start = some (v, n) ↔ IsRun b.bits start v n

/-- **Operations on bitmaps are operations on the lists of their bits**, for every width and every
argument: fields that reach past the width, turns by more than the width and bitmaps without bits
included. -/
theorem operatesOnBits (b : Bitmap) : b.OperatesOnBits where
  push _ := consists bits_push rfl
  append _ := consists bits_append rfl
  shift _ := ⟨consists (bits_low b _) rfl, consists (bits_high b _) rfl⟩
  consume n := ⟨consists (bits_high b n) rfl, consists (bits_low b n) rfl⟩
  get index count := consists (bits_get b index count) rfl
  set index value count := consists (bits_set b index value count) rfl
  grow n := consists (bits_grow b n) rfl
  shrink n := consists (bits_shrink b n) rfl
  rotateLeft n := consists (bits_rotateLeft b n) (signed_rotateLeft b n)
  rotateRight n := consists (bits_rotateRight b n) (signed_rotateRight b n)
  reverse := consists (bits_reverse b) rfl
  count := count_eq b
  scan := scan_eq_some_iff b
  scanReverse := scanReverse_eq_some_iff b
  run := run_eq_some_iff b

end BinaryLayout.Bitmap
