import BinaryLayout.Layout.Scalar

/-!
# Numbers that were read are written again

The bytes of a stored integer are those of its value, in every format, and the bits of an integer of
bits are those of its value as long as there are at most 127 of them. A number of 128 bits cannot
always be given: the range check of unsigned fields works on 128 bits of two's complement.

## Main statements

* `ByteOrder.writeNat_readNat`: the bytes of the number that bytes hold.
* `IntFormat.encode_toValue`: the bytes of the value of an integer.
* `encodeBits_toValue`: the bits of the value of an integer of bits.
-/

namespace BinaryLayout

/-! ## Digits -/

namespace ByteOrder

theorem digitsOfNat_natOfDigits (bytes : Bytes) : digitsOfNat bytes.length (natOfDigits bytes) = bytes := by
  induction bytes with
  | nil => rfl
  | cons b bytes ih =>
    have hb : b.toNat < 256 := b.toNat_lt
    have hfirst : UInt8.ofNat (b.toNat + 256 * natOfDigits bytes) = b := by
      apply UInt8.toNat_inj.1
      rw [UInt8.toNat_ofNat']
      omega
    have hrest : (b.toNat + 256 * natOfDigits bytes) / 256 = natOfDigits bytes := by omega
    rw [List.length_cons, natOfDigits, digitsOfNat, hfirst, hrest, ih]

theorem natOfDigits_lt (bytes : Bytes) : natOfDigits bytes < pow2 (8 * bytes.length) := by
  have hmod := natOfDigits_digitsOfNat bytes.length (natOfDigits bytes)
  rw [digitsOfNat_natOfDigits] at hmod
  rw [hmod]
  exact Nat.mod_lt _ (pow2_pos _)

/-- A number that was read is written as the bytes that it was read from. -/
theorem writeNat_readNat (order : ByteOrder) {bytes : Bytes} {width : Nat} (h : bytes.length = width) :
    order.writeNat width (order.readNat bytes) = bytes := by
  subst h
  cases order with
  | little => exact digitsOfNat_natOfDigits bytes
  | big =>
    have hdigits := digitsOfNat_natOfDigits bytes.reverse
    rw [List.length_reverse] at hdigits
    rw [writeNat, readNat, hdigits, List.reverse_reverse]

theorem readNat_lt (order : ByteOrder) {bytes : Bytes} {width : Nat} (h : bytes.length = width) :
    order.readNat bytes < pow2 (8 * width) := by
  subst h
  cases order with
  | little => exact natOfDigits_lt bytes
  | big =>
    have hlt := natOfDigits_lt bytes.reverse
    rwa [List.length_reverse] at hlt

end ByteOrder

/-! ## Two's complement -/

/-- Below 128 bits, and with 128, the sign is that of the width. -/
theorem signExtend_eq {bits : Nat} (hpos : 0 < bits) (hle : bits ≤ 128) (value : Nat) :
    signExtend value bits = Int.bmod value (pow2 bits) := by
  rw [signExtend]
  split
  · obtain rfl : bits = 128 := by omega
    rfl
  · rfl

theorem bmod_range {bits : Nat} (hpos : 0 < bits) (value : Int) :
    -(pow2 (bits - 1) : Int) ≤ Int.bmod value (pow2 bits) ∧
      Int.bmod value (pow2 bits) < (pow2 (bits - 1) : Int) := by
  obtain ⟨less, rfl⟩ : ∃ less, bits = less + 1 := ⟨bits - 1, by omega⟩
  have hlow := Int.le_bmod (x := value) (pow2_pos (less + 1))
  have hhigh := Int.bmod_lt (x := value) (pow2_pos (less + 1))
  rw [pow2_succ] at hlow hhigh ⊢
  rw [Nat.add_sub_cancel]
  omega

theorem toNat_emod_bmod {value modulus : Nat} (h : value < modulus) :
    (Int.bmod value modulus % modulus).toNat = value := by
  rw [Int.bmod_emod, Int.emod_eq_of_lt (by omega) (by omega), Int.toNat_natCast]

/-! ## Integers of bytes -/

theorem Codec.writeInt_of_range {order : ByteOrder} {width : Nat} {signed : Bool} {value : Int} {bytes : Bytes}
    (hrange : InRange signed width value) (hlength : bytes.length = width)
    (hvalue : (value % pow2 (8 * width)).toNat = order.readNat bytes) :
    writeInt order width signed value = .ok bytes := by
  rw [writeInt, if_pos hrange, wrapInt, hvalue, order.writeNat_readNat hlength]

/-- A number that was read without a sign. -/
theorem Codec.writeNat_readNat (order : ByteOrder) {width : Nat} {bytes : Bytes} (h : bytes.length = width) :
    writeNat order width (order.readNat bytes) = .ok bytes := by
  have hlt := order.readNat_lt h
  refine writeInt_of_range ?_ h ?_
  · rw [InRange, if_neg Bool.false_ne_true]
    omega
  · rw [← Int.natCast_emod, Nat.mod_eq_of_lt hlt, Int.toNat_natCast]

/-- The value of an integer is written as the bytes that it was read from. -/
theorem IntFormat.encode_toValue (format : IntFormat) {bytes : Bytes} (h : bytes.length = format.width) :
    format.encode (format.toValue bytes) = .ok bytes := by
  have hwidth := format.width_mem
  have hlt := format.order.readNat_lt h
  rw [toValue]
  split
  · rename_i hsigned
    have hread : format.read bytes = Int.bmod (format.order.readNat bytes) (pow2 (8 * format.width)) := by
      rw [read, if_pos hsigned, Codec.readInt, h, signExtend_eq (by omega) (by omega)]
    have hpos : 0 < 8 * format.width := by omega
    have hrange := bmod_range hpos (format.order.readNat bytes)
    show format.write (format.read bytes) = .ok bytes
    rw [hread]
    refine Codec.writeInt_of_range ?_ h (toNat_emod_bmod hlt)
    rw [Codec.InRange, if_pos hsigned]
    exact hrange
  · rename_i hsigned
    have hle : pow2 (8 * format.width) ≤ pow2 128 := pow2_le_pow2 (by omega)
    have hread : (format.read bytes % pow2 128).toNat = format.order.readNat bytes := by
      rw [read, if_neg hsigned]
      exact toNat_emod_bmod (Nat.lt_of_lt_of_le hlt hle)
    have hunsigned : format.signed = false := by simpa using hsigned
    rw [hread]
    show (if format.signed = true ∧ pow2 127 ≤ format.order.readNat bytes then _
      else format.write (format.order.readNat bytes)) = _
    rw [if_neg (by simp [hunsigned]), write, hunsigned]
    exact Codec.writeNat_readNat format.order h

/-! ## Integers of bits -/

namespace Bitmap

theorem ext_value {b c : Bitmap} (hvalue : b.value = c.value) (hwidth : b.width = c.width)
    (hsigned : b.signed = c.signed) : b = c := by
  obtain ⟨value, width, signed, hb⟩ := b
  obtain ⟨value', width', signed', hc⟩ := c
  cases hvalue
  cases hwidth
  cases hsigned
  rfl

theorem ofNat_value (b : Bitmap) (signed : Bool) : ofNat b.value b.width signed = b.withSign signed := by
  refine ext_value ?_ rfl rfl
  show lowBits b.width b.value = b.value
  rw [lowBits_eq, Nat.mod_eq_of_lt b.value_lt]

/-- Two's complement, by the bit of the sign. -/
theorem toInt_cases (b : Bitmap) :
    b.toInt = b.value ∧ (b.signed = true → b.value < pow2 (max b.width 1 - 1)) ∨
      b.toInt = b.value - pow2 b.width ∧ pow2 (b.width - 1) ≤ b.value ∧ 0 < b.width := by
  rw [toInt]
  split
  · rename_i h
    obtain ⟨-, hpos, hbit⟩ := h
    refine .inr ⟨rfl, ?_, hpos⟩
    exact Nat.ge_two_pow_of_testBit hbit
  · rename_i h
    refine .inl ⟨rfl, fun hsigned => ?_⟩
    have hlt := b.value_lt
    by_cases hpos : 0 < b.width
    · obtain ⟨less, hless⟩ : ∃ less, b.width = less + 1 := ⟨b.width - 1, by omega⟩
      have hbit : b.value.testBit less = false := by
        rw [hsigned, hless, bit] at h
        simpa [hless] using h
      rw [hless] at hlt ⊢
      rw [Nat.max_eq_left (by omega), Nat.add_sub_cancel]
      refine Nat.lt_of_not_le fun hle => ?_
      rw [Nat.testBit_of_two_pow_le_and_two_pow_add_one_gt hle hlt] at hbit
      cases hbit
    · have hzero : b.width = 0 := by omega
      rw [hzero] at hlt ⊢
      exact hlt

/-- The bits of the number that bits stand for. -/
theorem ofInt_toInt (b : Bitmap) (signed : Bool) : ofInt b.toInt b.width signed = b.withSign signed := by
  have hvalue := value_ofInt b.toInt b.width signed
  have hremainder : b.toInt % pow2 b.width = b.value := by
    have hlt := b.value_lt
    rcases b.toInt_cases with ⟨hint, -⟩ | ⟨hint, -, -⟩
    · rw [hint]
      exact Int.emod_eq_of_lt (by omega) (by omega)
    · rw [hint, Int.sub_emod_right]
      exact Int.emod_eq_of_lt (by omega) (by omega)
  refine ext_value ?_ rfl rfl
  show (ofInt b.toInt b.width signed).value = b.value
  omega

end Bitmap

/-- The number that signed bits stand for fits into as many bits. -/
theorem fitsBits_toInt (b : Bitmap) (hsigned : b.signed = true) : fitsBits b.toInt b.width true = true := by
  have hlt := b.value_lt
  rw [fitsBits]
  split
  · rfl
  · rw [if_pos rfl]
    refine decide_eq_true ?_
    rcases b.toInt_cases with ⟨hint, hpos⟩ | ⟨hint, hneg, hwidth⟩
    · have := hpos hsigned
      omega
    · obtain ⟨less, hless⟩ : ∃ less, b.width = less + 1 := ⟨b.width - 1, by omega⟩
      rw [hless] at hlt hint hneg ⊢
      rw [pow2_succ] at hlt hint
      rw [Nat.max_eq_left (by omega)]
      rw [Nat.add_sub_cancel] at hneg ⊢
      omega

/-- Unsigned bits as a number fit into as many bits. -/
theorem fitsBits_value (b : Bitmap) : fitsBits (b.value : Int) b.width false = true := by
  have hlt := b.value_lt
  rw [fitsBits]
  split
  · rw [Bool.false_or]
    exact decide_eq_true (Int.natCast_nonneg _)
  · rw [if_neg Bool.false_ne_true]
    exact decide_eq_true (by omega)

theorem Bitmap.toInt128?_eq {b : Bitmap} (h : b.width ≤ 127) : b.toInt128? = some b.toInt := by
  have hlt := b.value_lt
  have hle : pow2 b.width ≤ pow2 127 := pow2_le_pow2 h
  rw [toInt128?, if_pos]
  rcases b.toInt_cases with ⟨hint, -⟩ | ⟨hint, -, -⟩ <;> omega

/-- The value of an integer of bits is written as the bits that it was read from. -/
theorem encodeBits_toValue (value : Bitmap) (h : value.width ≤ 127) :
    encodeBits value.width value.signed value.toValue = .ok value := by
  rw [Bitmap.toValue]
  split
  · rename_i hsigned
    have hback : Bitmap.ofInt value.toInt value.width true = value := by
      rw [Bitmap.ofInt_toInt, ← hsigned]
      rfl
    rw [Bitmap.toInt128?_eq h, hsigned]
    show (checkBits value.toInt value.width true).map _ = _
    rw [checkBits, fitsBits_toInt value hsigned, if_pos rfl]
    exact congrArg Except.ok hback
  · rename_i hsigned
    have hunsigned : value.signed = false := by simpa using hsigned
    have hsmall : value.value < pow2 127 := Nat.lt_of_lt_of_le value.value_lt (pow2_le_pow2 h)
    have hword : pow2 127 < pow2 128 := by decide
    have hshort : value.width < pow2 31 := Nat.lt_of_le_of_lt h (by decide)
    have hint : (Value.unsigned value.value).toInt? = some (value.value : Int) := if_pos hsmall
    have hlength : bitsLength value.width false = value.width := bitsLength_of_lt hshort false
    have hback : Bitmap.withLength value.value value.width = value := by
      have hremainder := Bitmap.value_ofInt value.value value.width false
      have hlt := value.value_lt
      rw [Int.emod_eq_of_lt (by omega) (by omega)] at hremainder
      rw [Bitmap.withLength, Int.natAbs_natCast, decide_eq_false (by omega)]
      exact Bitmap.ext_value (by omega) rfl hunsigned.symm
    rw [Bitmap.toNat?, if_pos (Nat.lt_trans hsmall hword), hunsigned]
    dsimp only [encodeBits]
    rw [hint]
    dsimp only
    rw [checkBits, fitsBits_value, if_pos rfl, hlength]
    exact congrArg Except.ok hback

end BinaryLayout
