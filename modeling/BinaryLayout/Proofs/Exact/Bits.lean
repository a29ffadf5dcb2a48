import BinaryLayout.Proofs.Codec.Integer

/-!
# Integers as exact codecs

A stored integer has as many bytes as its width, each of them the digit of two's complement that its order
gives it, and it takes every number of its range and no other. The number that was written is the one that
is read, also when sixteen unsigned bytes are read as 128 bits of two's complement on the way.

The range check of integers of bits works on 128 bits of two's complement whatever the width is, and there are
three places where it is not that of the width: it takes -1 for no bits at all, it takes every number for 127
signed bits, and the numbers from `2 ^ 127` on, which are given without a sign, are refused for every width. A
number that is taken goes into bits whose width and sign are those of a length of 32 bits, unless it is a signed
number for signed bits; from `2 ^ 31` bits on that is not the width, and the number is lost where the bits of
the length do not hold it. Everywhere else exactly the numbers of the width are taken, and the number that was
given is the one that is there.

## Main definitions

* `Value.number?`: the number that an integer or a truth value stands for.
* `Codec.Positional`: the digits of an integer in two's complement.
* `Bitmap.InRange`: the integers that so many bits hold.
* `Value.IsWide`: the integers that can be given.
* `Bitmap.Misjudged`: the numbers for which the range check or the length is wrong.

## Main statements

* `Codec.positional_wrapInt`: the bytes of an integer are its digits.
* `IntFormat.encode_of_range`, `IntFormat.encode_of_not_range`: the numbers of the range are taken.
* `IntFormat.number?_toValue_wrapInt`: the number that was written is read.
* `encodeBits_iff`: the numbers that bits take.
* `Bitmap.inRange_toInt`: the number that the bits stand for is one that they hold.
* `encodeBits_exact_iff`: the number that was given is read, or refused, except for misjudged numbers.
-/

namespace BinaryLayout

section Integers

/-- The number that an integer or a truth value stands for. -/
def Value.number? : Value → Option Int
  | unsigned n => some n
  | signed n => some n
  | bool b => some b.toNat
  | _ => none

namespace ByteOrder

/-- The bytes of a stored number, the least significant first. -/
def fromLeast : ByteOrder → Bytes → Bytes
  | little, bytes => bytes
  | big, bytes => bytes.reverse

theorem fromLeast_writeNat (order : ByteOrder) (width n : Nat) :
    order.fromLeast (order.writeNat width n) = digitsOfNat width n := by
  cases order with
  | little => rfl
  | big => exact List.reverse_reverse _

/-- Each byte is the digit of its power of 256. -/
theorem getElem?_digitsOfNat {width i : Nat} (h : i < width) (n : Nat) :
    (digitsOfNat width n)[i]?.map UInt8.toNat = some (n / pow2 (8 * i) % 256) := by
  induction width generalizing i n with
  | zero => cases h
  | succ width ih =>
    cases i with
    | zero =>
      rw [Nat.mul_zero, pow2_zero, Nat.div_one, ← UInt8.toNat_ofNat']
      rfl
    | succ i =>
      rw [digitsOfNat, List.getElem?_cons_succ, ih (Nat.lt_of_succ_lt_succ h), Nat.div_div_eq_div_mul,
        Nat.mul_succ, Nat.add_comm (8 * i), pow2_add]
      rfl

end ByteOrder

namespace Codec

/-- The bytes are an integer in two's complement: as many as the width, and each one the digit of the power
of 256 at which its order puts it. -/
structure Positional (order : ByteOrder) (width : Nat) (value : Int) (bytes : Bytes) : Prop where
  length : bytes.length = width
  digit : ∀ i < width,
    (order.fromLeast bytes)[i]?.map UInt8.toNat = some (value / pow2 (8 * i) % 256).toNat

theorem emod_pow2_nonneg (value : Int) (bits : Nat) : 0 ≤ value % pow2 bits :=
  Int.emod_nonneg _ (by have := pow2_pos bits; omega)

theorem emod_pow2_lt (value : Int) (bits : Nat) : value % pow2 bits < pow2 bits :=
  Int.emod_lt_of_pos _ (by have := pow2_pos bits; omega)

/-- The digits of an integer are those of its remainder, as far as this has them. -/
theorem digit_emod {width i : Nat} (h : i < width) (value : Int) :
    value % pow2 (8 * width) / pow2 (8 * i) % 256 = value / pow2 (8 * i) % 256 := by
  obtain ⟨more, rfl⟩ : ∃ more, width = i + (1 + more) := ⟨width - i - 1, by omega⟩
  have hwidth : (pow2 (8 * (i + (1 + more))) : Int) = pow2 (8 * i) * (256 * pow2 (8 * more)) := by
    rw [Nat.mul_add, Nat.mul_add, pow2_add, pow2_add]
    exact Int.natCast_mul _ _
  have hpos : (pow2 (8 * i) : Int) ≠ 0 := by have := pow2_pos (8 * i); omega
  have hsplit := Int.emod_add_mul_ediv value (pow2 (8 * (i + (1 + more))))
  conv =>
    rhs
    rw [← hsplit, hwidth, Int.mul_assoc, Int.add_mul_ediv_left _ _ hpos, Int.mul_assoc,
      Int.add_mul_emod_self_left]
  rw [hwidth]

/-- The bytes of an integer are its digits. -/
theorem positional_wrapInt (order : ByteOrder) (width : Nat) (value : Int) :
    Positional order width value (wrapInt order width value) where
  length := order.length_writeNat width _
  digit i hi := by
    obtain ⟨n, hn⟩ := Int.eq_ofNat_of_zero_le (emod_pow2_nonneg value (8 * width))
    rw [wrapInt, order.fromLeast_writeNat, ByteOrder.getElem?_digitsOfNat hi, ← digit_emod hi value, hn]
    rfl

/-- The number that the bytes of an integer hold. -/
theorem readNat_wrapInt (order : ByteOrder) (width : Nat) (value : Int) :
    (order.readNat (wrapInt order width value) : Int) = value % pow2 (8 * width) := by
  have hnonneg := emod_pow2_nonneg value (8 * width)
  have hlt := emod_pow2_lt value (8 * width)
  rw [wrapInt, order.readNat_writeNat, Nat.mod_eq_of_lt (by omega), Int.toNat_of_nonneg hnonneg]

end Codec

namespace IntFormat

variable {v : Value} {n : Int}

/-- A number of the range is taken. -/
theorem encode_of_range (format : IntFormat) (hv : v.number? = some n)
    (h : Codec.InRange format.signed format.width n) :
    format.encode v = .ok (Codec.wrapInt format.order format.width n) := by
  have hwrite : format.write n = .ok (Codec.wrapInt format.order format.width n) := if_pos h
  -- The check for signed formats refuses nothing that is in range.
  have hnat (m : Nat) (hm : (m : Int) = n) : ¬ (format.signed = true ∧ pow2 127 ≤ m) := by
    rintro ⟨hsigned, hle⟩
    rw [Codec.InRange, if_pos hsigned] at h
    have hwidth : pow2 (8 * format.width - 1) ≤ pow2 127 := pow2_le_pow2 (by have := format.width_mem; omega)
    omega
  rw [encode.eq_def]
  cases v with
  | signed m =>
    cases hv
    exact hwrite
  | unsigned m =>
    cases hv
    exact (if_neg (hnat m rfl)).trans hwrite
  | bool b =>
    cases hv
    exact (if_neg (hnat b.toNat rfl)).trans hwrite
  | float | text | bytes | bits | fields | items => cases hv

/-- No other number is taken. -/
theorem encode_of_not_range (format : IntFormat) (hv : v.number? = some n)
    (h : ¬ Codec.InRange format.signed format.width n) :
    ∃ fault, format.encode v = .error (.value fault) := by
  have hwrite : format.write n = .error (.value (.integerRange n format.signed format.width)) := if_neg h
  have hnat (m : Nat) (hm : (m : Int) = n) : ∃ fault, (if format.signed = true ∧ pow2 127 ≤ m
      then .error (.value (.outOfRange (toString m))) else format.write m) = .error (.value fault) := by
    split
    · exact ⟨_, rfl⟩
    · exact ⟨_, hm ▸ hwrite⟩
  rw [encode.eq_def]
  cases v with
  | signed m =>
    cases hv
    exact ⟨_, hwrite⟩
  | unsigned m =>
    cases hv
    exact hnat m rfl
  | bool b =>
    cases hv
    exact hnat b.toNat rfl
  | float | text | bytes | bits | fields | items => cases hv

/-- The number that was written is read. -/
theorem number?_toValue_wrapInt (format : IntFormat) (h : Codec.InRange format.signed format.width n) :
    (format.toValue (Codec.wrapInt format.order format.width n)).number? = some n := by
  have hwidth := format.width_mem
  have hread := Codec.readNat_wrapInt format.order format.width n
  have hlength : (Codec.wrapInt format.order format.width n).length = format.width :=
    format.order.length_writeNat format.width _
  rw [Codec.InRange] at h
  rw [toValue, read]
  cases hsigned : format.signed with
  | true =>
    rw [hsigned, if_pos rfl] at h
    rw [if_pos rfl, if_pos rfl, Codec.readInt, hlength, signExtend_eq (by omega) (by omega), hread,
      Int.emod_bmod]
    obtain ⟨less, hless⟩ : ∃ less, 8 * format.width = less + 1 := ⟨8 * format.width - 1, by omega⟩
    rw [hless, Nat.add_sub_cancel] at h
    have hbmod : Int.bmod n (pow2 (less + 1)) = n :=
      Int.bmod_eq_of_le (by rw [pow2_succ]; omega) (by rw [pow2_succ]; omega)
    rw [hless, hbmod]
    rfl
  | false =>
    rw [hsigned, if_neg Bool.false_ne_true] at h
    rw [if_neg Bool.false_ne_true, if_neg Bool.false_ne_true]
    have hle : pow2 (8 * format.width) ≤ pow2 128 := pow2_le_pow2 (by omega)
    have hsame : (format.order.readNat (Codec.wrapInt format.order format.width n) : Int) = n := by
      rw [hread, Int.emod_eq_of_lt h.1 h.2]
    rw [toNat_emod_bmod (by omega)]
    exact congrArg some hsame

end IntFormat

/-- A number is given to an integer as such, and not as bytes. -/
theorem Layout.encode_int {κ : Type} {v : Value} {n : Int} (format : IntFormat) (hv : v.number? = some n) :
    (Layout.int (κ := κ) format).encode v = format.encode v := by
  cases v with
  | unsigned | signed | bool => rfl
  | float | text | bytes | bits | fields | items => cases hv

end Integers

/-- The bits of a number are made from the length, unless it is a signed number for signed bits. -/
def Value.goesByLength : Value → Bool → Bool
  | signed _, true => false
  | _, _ => true

namespace Bitmap

/-- The integers that so many bits hold, in two's complement if they are signed. -/
def InRange (signed : Bool) (bits : Nat) (n : Int) : Prop :=
  if signed then -pow2 bits ≤ 2 * n ∧ 2 * n < pow2 bits else 0 ≤ n ∧ n < pow2 bits

instance (signed : Bool) (bits : Nat) (n : Int) : Decidable (InRange signed bits n) := by
  unfold InRange; infer_instance

/-- A number is not in the range of the bits that the length stands for. -/
def Displaced (signed : Bool) (bits : Nat) (n : Int) : Prop :=
  ¬ InRange (decide (bitsLength bits signed < 0)) (bitsLength bits signed).natAbs n

/-- These numbers are not treated as the bits would have it. The range check takes some that no bits, or 127
signed ones, do not hold, and refuses large ones that more bits do hold; and a number that is taken by way of
the length is lost where its bits do not hold it. -/
def Misjudged (signed : Bool) (bits : Nat) (v : Value) (n : Int) : Prop :=
  signed = true ∧ (bits = 0 ∧ n = -1 ∨ bits = 127 ∧ n < pow2 127 ∧ ¬ InRange signed bits n)
    ∨ InRange signed bits n ∧ (pow2 127 ≤ n ∨ v.goesByLength signed = true ∧ Displaced signed bits n)

instance (signed : Bool) (bits : Nat) (v : Value) (n : Int) : Decidable (Misjudged signed bits v n) := by
  unfold Misjudged Displaced; infer_instance

end Bitmap

/-- An integer that can be given has 128 bits. -/
def Value.IsWide : Value → Prop
  | unsigned n => n < pow2 128
  | signed n => -pow2 127 ≤ n ∧ n < pow2 127
  | _ => True

instance : ∀ v : Value, Decidable v.IsWide
  | .unsigned n => inferInstanceAs (Decidable (n < pow2 128))
  | .signed n => inferInstanceAs (Decidable (-pow2 127 ≤ n ∧ n < pow2 127))
  | .bool _ | .float _ | .text _ | .bytes _ | .bits _ | .fields _ | .items _ => .isTrue trivial

/-! ## Range checks -/

/-- What the range check takes of the numbers that it can be given. -/
theorem fitsBits_iff {n : Int} (hlow : -pow2 127 ≤ n) (hhigh : n < pow2 127) (bits : Nat) (signed : Bool) :
    fitsBits n bits signed = true ↔
      Bitmap.InRange signed bits n ∨ signed = true ∧ (bits = 0 ∧ n = -1 ∨ bits = 127) := by
  rw [fitsBits, Bitmap.InRange]
  by_cases hlarge : 127 ≤ bits
  · have hle : pow2 127 ≤ pow2 bits := pow2_le_pow2 hlarge
    rw [if_pos hlarge]
    cases signed with
    | false =>
      simp only [Bool.false_or, decide_eq_true_eq, Bool.false_eq_true, if_false, false_and, or_false]
      omega
    | true =>
      simp only [Bool.true_or, if_true, true_and, true_iff]
      by_cases heq : bits = 127
      · exact .inr (.inr heq)
      · have hmore : pow2 128 ≤ pow2 bits := pow2_le_pow2 (by omega)
        rw [pow2_succ] at hmore
        omega
  · rw [if_neg hlarge]
    cases signed with
    | false =>
      simp only [Bool.false_eq_true, if_false, false_and, or_false, decide_eq_true_eq]
    | true =>
      simp only [if_true, true_and, decide_eq_true_eq]
      cases bits with
      | zero =>
        have hone : pow2 (max 0 1 - 1) = 1 := rfl
        rw [hone, pow2_zero]
        omega
      | succ less =>
        rw [Nat.max_eq_left (by omega), Nat.add_sub_cancel, pow2_succ]
        omega

namespace Bitmap

/-! ## Bits of an integer -/

/-- The number that the bits stand for is one that they hold. -/
theorem inRange_toInt (b : Bitmap) : InRange b.signed b.width b.toInt := by
  have hlt := b.value_lt
  rw [InRange]
  rcases b.toInt_cases with ⟨hint, hlow⟩ | ⟨hint, hhigh, hpos⟩
  · cases hsigned : b.signed with
    | false =>
      rw [if_neg Bool.false_ne_true]
      omega
    | true =>
      have hlow := hlow hsigned
      rw [if_pos rfl]
      cases hwidth : b.width with
      | zero =>
        rw [hwidth, pow2_zero] at hlt
        rw [pow2_zero]
        omega
      | succ less =>
        rw [hwidth, Nat.max_eq_left (by omega), Nat.add_sub_cancel] at hlow
        rw [pow2_succ]
        omega
  · -- Only the number of signed bits is less than their magnitude.
    have hsigned : b.signed = true := by
      cases hflag : b.signed with
      | true => rfl
      | false =>
        have hvalue : b.toInt = b.value := if_neg fun h => by simp [hflag] at h
        have := pow2_pos b.width
        omega
    obtain ⟨less, hless⟩ : ∃ less, b.width = less + 1 := ⟨b.width - 1, by omega⟩
    rw [hsigned, if_pos rfl]
    rw [hless, Nat.add_sub_cancel] at hhigh
    rw [hless, pow2_succ] at hlt hint
    rw [hless, pow2_succ]
    omega

/-- Signed bits stand for the integer that they were made of. -/
theorem toInt_ofInt {n : Int} {width : Nat} (h : InRange true width n) :
    (ofInt n width true).toInt = n := by
  rw [InRange, if_pos rfl] at h
  have hvalue := value_ofInt n width true
  have hlt := (ofInt n width true).value_lt
  have hcases := (ofInt n width true).toInt_cases
  rw [width_ofInt] at hlt hcases
  have hremainder : n % pow2 width = n ∨ n % pow2 width = n + pow2 width := by
    by_cases hneg : 0 ≤ n
    · exact .inl (Int.emod_eq_of_lt hneg (by omega))
    · rw [← Int.add_emod_right]
      exact .inr (Int.emod_eq_of_lt (by omega) (by omega))
  rw [← hvalue] at hremainder
  cases width with
  | zero =>
    rw [pow2_zero] at h hlt hremainder
    rcases hcases with ⟨hint, -⟩ | ⟨-, -, hpos⟩
    · omega
    · exact absurd hpos (Nat.lt_irrefl 0)
  | succ less =>
    rw [Nat.max_eq_left (by omega), Nat.add_sub_cancel] at hcases
    rw [pow2_succ] at h hlt hremainder hcases
    rcases hcases with ⟨hint, hlow⟩ | ⟨hint, hhigh, -⟩
    · have hlow := hlow (by cases n <;> rfl)
      omega
    · omega

/-- The number that was given is read. -/
theorem number?_toValue_ofInt {n : Int} {width : Nat} {signed : Bool} (h : InRange signed width n)
    (hlow : -pow2 127 ≤ n) (hhigh : n < pow2 127) :
    (ofInt n width signed).toValue.number? = some n := by
  rw [toValue, signed_ofInt]
  cases signed with
  | true =>
    rw [if_pos rfl, toInt128?, toInt_ofInt h, if_pos ⟨hlow, hhigh⟩]
    rfl
  | false =>
    rw [InRange, if_neg Bool.false_ne_true] at h
    have hvalue : ((ofInt n width false).value : Int) = n := by
      rw [value_ofInt, Int.emod_eq_of_lt h.1 h.2]
    have hwide : pow2 127 < pow2 128 := by decide
    rw [if_neg Bool.false_ne_true, toNat?, if_pos (by omega)]
    exact congrArg some hvalue

/-- A number that bits are read as is one that they hold. -/
theorem inRange_of_number? {b : Bitmap} {n : Int} (h : b.toValue.number? = some n) :
    InRange b.signed b.width n := by
  rw [toValue] at h
  cases hsigned : b.signed with
  | true =>
    rw [hsigned, if_pos rfl, toInt128?] at h
    by_cases hwide : -(pow2 127 : Int) ≤ b.toInt ∧ b.toInt < pow2 127
    · rw [if_pos hwide] at h
      cases h
      exact hsigned ▸ b.inRange_toInt
    · rw [if_neg hwide] at h
      cases h
  | false =>
    rw [hsigned, if_neg Bool.false_ne_true, toNat?] at h
    by_cases hwide : b.value < pow2 128
    · rw [if_pos hwide] at h
      cases h
      have hlt := b.value_lt
      rw [InRange, if_neg Bool.false_ne_true]
      omega
    · rw [if_neg hwide] at h
      cases h

end Bitmap

/-! ## Values -/

variable {v : Value} {n : Int} {bits : Nat} {signed : Bool}

theorem Value.IsWide.low (h : v.IsWide) (hv : v.number? = some n) : -pow2 127 ≤ n := by
  cases v with
  | signed m =>
    cases hv
    exact h.1
  | unsigned | bool =>
    cases hv
    omega
  | float | text | bytes | bits | fields | items => cases hv

/-- An integer that 128 bits hold is read as such. -/
theorem Value.toInt?_of_number? {v : Value} {n : Int} (hv : v.number? = some n) (h : n < pow2 127) :
    v.toInt? = some n := by
  cases v with
  | unsigned m =>
    cases hv
    exact if_pos (by omega)
  | signed m => exact hv
  | bool b => exact hv
  | float | text | bytes | bits | fields | items => cases hv

/-- A number that is too large for them is given without a sign. -/
theorem Value.toInt?_eq_none (hv : v.number? = some n) (hwide : v.IsWide) (h : ¬ n < pow2 127) :
    v.toInt? = none := by
  cases v with
  | unsigned m =>
    cases hv
    exact if_neg (by omega)
  | signed m =>
    cases hv
    exact absurd hwide.2 h
  | bool b =>
    cases hv
    have hsmall : b.toNat < pow2 127 := Nat.lt_of_le_of_lt (Bool.toNat_le b) (by decide)
    exact absurd (Int.ofNat_lt.2 hsmall) h
  | float | text | bytes | bits | fields | items => cases hv

/-- What becomes of a number: it is taken as its bits, or it is refused. -/
inductive Judged (bits : Nat) (signed : Bool) (v : Value) (n : Int) : Except Error Bitmap → Prop
  | taken (hexact : v.goesByLength signed = false) (hwide : n < pow2 127) (hfits : fitsBits n bits signed = true) :
    Judged bits signed v n (.ok (Bitmap.ofInt n bits signed))
  | resized (hlength : v.goesByLength signed = true) (hwide : n < pow2 127)
    (hfits : fitsBits n bits signed = true) :
    Judged bits signed v n (.ok (Bitmap.withLength n (bitsLength bits signed)))
  | refused {fault : ValueFault} (hfits : n < pow2 127 → ¬ fitsBits n bits signed = true) :
    Judged bits signed v n (.error (.value fault))

/-- Signed bits get a signed number as it is. -/
theorem judged_signed (hwide : (Value.signed n).IsWide) (bits : Nat) :
    Judged bits true (.signed n) n (encodeBits bits true (.signed n)) := by
  rw [encodeBits, checkBits]
  by_cases hfits : fitsBits n bits true = true
  · rw [if_pos hfits]
    exact .taken rfl hwide.2 hfits
  · rw [if_neg hfits]
    exact .refused fun _ => hfits

/-- Every other number goes by the length. -/
theorem judged_length (hv : v.number? = some n) (hwide : v.IsWide) (hlength : v.goesByLength signed = true)
    (bits : Nat) : Judged bits signed v n (encodeBits bits signed v) := by
  have hencode (result : Option Int) (hresult : v.toInt? = result) : encodeBits bits signed v =
      result.elim (.error (mismatch "an integer" v)) fun m =>
        (checkBits m bits signed).map fun _ => Bitmap.withLength m (bitsLength bits signed) := by
    cases v with
    | signed m =>
      cases signed with
      | true => cases hlength
      | false =>
        unfold encodeBits
        rw [hresult]
        cases result <;> rfl
    | unsigned | bool =>
      unfold encodeBits
      rw [hresult]
      cases result <;> rfl
    | float | text | bytes | bits | fields | items => cases hv
  by_cases hsmall : n < pow2 127
  · rw [hencode (some n) (Value.toInt?_of_number? hv hsmall), Option.elim_some, checkBits]
    by_cases hfits : fitsBits n bits signed = true
    · rw [if_pos hfits]
      exact .resized hlength hsmall hfits
    · rw [if_neg hfits]
      exact .refused fun _ => hfits
  · rw [hencode none (Value.toInt?_eq_none hv hwide hsmall), Option.elim_none]
    exact .refused fun h => absurd h hsmall

/-- What becomes of the number of an integer value. -/
theorem judged_encodeBits (hv : v.number? = some n) (hwide : v.IsWide) (bits : Nat) (signed : Bool) :
    Judged bits signed v n (encodeBits bits signed v) := by
  cases hlength : v.goesByLength signed with
  | true => exact judged_length hv hwide hlength bits
  | false =>
    cases v with
    | signed m =>
      cases signed with
      | true =>
        cases hv
        exact judged_signed hwide bits
      | false => cases hlength
    | unsigned | bool | float | text | bytes | bits | fields | items => cases hlength

/-- A number that is not taken is refused as a value. -/
theorem refused_of_encodeBits (hv : v.number? = some n) (hwide : v.IsWide)
    (h : ¬ ∃ b, encodeBits bits signed v = .ok b) :
    ∃ fault, encodeBits bits signed v = .error (.value fault) := by
  have hjudged := judged_encodeBits hv hwide bits signed
  generalize encodeBits bits signed v = result at hjudged h
  cases hjudged with
  | taken | resized => exact absurd ⟨_, rfl⟩ h
  | refused => exact ⟨_, rfl⟩

/-- The numbers that are taken: those in range that are not too large, and some that are not in range. -/
theorem encodeBits_iff (hv : v.number? = some n) (hwide : v.IsWide) (bits : Nat) (signed : Bool) :
    (∃ b, encodeBits bits signed v = .ok b) ↔ n < pow2 127 ∧ (Bitmap.InRange signed bits n
      ∨ signed = true ∧ (bits = 0 ∧ n = -1 ∨ bits = 127)) := by
  have hjudged := judged_encodeBits hv hwide bits signed
  generalize encodeBits bits signed v = result at hjudged
  cases hjudged with
  | taken _ hhigh hfits | resized _ hhigh hfits =>
    exact ⟨fun _ => ⟨hhigh, (fitsBits_iff (hwide.low hv) hhigh bits signed).1 hfits⟩, fun _ => ⟨_, rfl⟩⟩
  | refused hfits =>
    refine ⟨fun ⟨b, hb⟩ => (nomatch hb), fun ⟨hhigh, hrange⟩ => ?_⟩
    exact absurd ((fitsBits_iff (hwide.low hv) hhigh bits signed).2 hrange) (hfits hhigh)

/-- The number that was taken is read unless it goes by a length whose bits do not hold it. -/
theorem number?_of_encodeBits (hv : v.number? = some n) (hwide : v.IsWide)
    (h : Bitmap.InRange signed bits n) {b : Bitmap} (hb : encodeBits bits signed v = .ok b) :
    b.toValue.number? = some n
      ↔ ¬ (v.goesByLength signed = true ∧ Bitmap.Displaced signed bits n) := by
  have hjudged := judged_encodeBits hv hwide bits signed
  rw [hb] at hjudged
  cases hjudged with
  | taken hexact hhigh =>
    rw [hexact]
    simpa using Bitmap.number?_toValue_ofInt h (hwide.low hv) hhigh
  | resized hlength hhigh =>
    rw [hlength, Bitmap.Displaced]
    constructor
    · exact fun hn hlost => hlost.2 (Bitmap.inRange_of_number? hn)
    · intro hkept
      have hrange := Decidable.not_not.1 fun hlost => hkept ⟨rfl, hlost⟩
      exact Bitmap.number?_toValue_ofInt hrange (hwide.low hv) hhigh

/-- The numbers of the range are taken and read, and all others refused, except for misjudged numbers. -/
theorem encodeBits_exact_iff (hv : v.number? = some n) (hwide : v.IsWide) (bits : Nat) (signed : Bool) :
    ((Bitmap.InRange signed bits n → ∃ b, encodeBits bits signed v = .ok b ∧ b.toValue.number? = some n)
        ∧ (¬ Bitmap.InRange signed bits n → ∃ fault, encodeBits bits signed v = .error (.value fault)))
      ↔ ¬ Bitmap.Misjudged signed bits v n := by
  have htaken := encodeBits_iff hv hwide bits signed
  rw [Bitmap.Misjudged]
  by_cases hrange : Bitmap.InRange signed bits n
  · have hzero : ¬ (bits = 0 ∧ n = -1) := by
      rintro ⟨rfl, rfl⟩
      cases signed <;> simp [Bitmap.InRange] at hrange
    simp only [hrange, true_or, and_true, true_and, forall_const, not_true_eq_false, false_imp_iff,
      and_false, or_false, false_or, hzero] at htaken ⊢
    constructor
    · rintro ⟨b, hb, hnumber⟩ (hlarge | hlost)
      · exact absurd (htaken.1 ⟨b, hb⟩) (Int.not_lt.2 hlarge)
      · exact (number?_of_encodeBits hv hwide hrange hb).1 hnumber hlost
    · intro hright
      have hhigh : n < pow2 127 := Int.not_le.1 fun hlarge => hright (.inl hlarge)
      obtain ⟨b, hb⟩ := htaken.2 hhigh
      exact ⟨b, hb, (number?_of_encodeBits hv hwide hrange hb).2 fun hlost => hright (.inr hlost)⟩
  · simp only [hrange, false_imp_iff, not_false_eq_true, forall_const, true_and, and_true, false_and,
      or_false, false_or] at htaken ⊢
    constructor
    · rintro ⟨fault, hfault⟩ ⟨hsigned, hplace⟩
      have hhigh : n < pow2 127 := by
        rcases hplace with ⟨-, rfl⟩ | ⟨-, hhigh⟩
        · decide
        · exact hhigh
      obtain ⟨b, hb⟩ := htaken.2 ⟨hhigh, hsigned, hplace.imp_right And.left⟩
      rw [hb] at hfault
      cases hfault
    · intro hright
      refine refused_of_encodeBits hv hwide fun h => ?_
      obtain ⟨hhigh, hsigned, hplace⟩ := htaken.1 h
      exact hright ⟨hsigned, hplace.imp_right fun hbits => ⟨hbits, hhigh⟩⟩

end BinaryLayout
