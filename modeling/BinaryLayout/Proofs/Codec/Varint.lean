import BinaryLayout.Codec.Varint
import BinaryLayout.Proofs.Codec.Integer

/-!
# What groups of seven bits stand for

An encoding is a run of bytes that say that another one follows, and one that does not. Its groups are
the digits of a number in base 128, the least significant first, and the last of them has the sign. Both
readers look at the encoding at the start of a byte string and at nothing behind it. They agree on its
length: of more than 19 groups none is read. Within that the unsigned reader gives the number or refuses
it, and the signed reader gives it modulo `2 ^ 128`.

The writers stop at the first group that leaves nothing to say, so no encoding of the same number is
shorter.

## Main definitions

* `Varint.Whole`: the bytes of one number.
* `Varint.natValue`, `Varint.intValue`: the number that they stand for.

## Main statements

* `Varint.Whole.readNat_append`, `Varint.Whole.readInt_append`: what the readers make of an encoding.
* `Varint.read_value`: the readers give the number that stands there, where it fits.
* `Varint.natValue_writeNat`, `Varint.intValue_writeInt`: what is written stands for the number.
* `Varint.readNat_writeNat`, `Varint.readInt_writeInt`: numbers of 128 bits are read again.
* `Varint.Whole.length_writeNat_le`, `Varint.Whole.length_writeInt_le`: no encoding of it is shorter.
-/

namespace BinaryLayout.Varint

/-! ## Encodings -/

/-- The bytes of one number: any that another one follows, and one that none follows. -/
inductive Whole : Bytes → Prop
  | last {b : UInt8} (hlast : continues b = false) : Whole [b]
  | more {b : UInt8} {e : Bytes} (hmore : continues b = true) (h : Whole e) : Whole (b :: e)

def natValue : Bytes → Nat
  | [] => 0
  | b :: e => group b + 0x80 * natValue e

/-- The last group has the bit of the sign. -/
def isNegative (e : Bytes) : Bool := e.getLast?.any fun b => decide (0x40 ≤ group b)

/-- The groups, added up and extended by the bit of the sign in the last of them. -/
def intValue (e : Bytes) : Int :=
  if isNegative e then natValue e - pow2 (7 * e.length) else natValue e

variable {b : UInt8} {e rest : Bytes}

theorem group_lt (b : UInt8) : group b < 0x80 := Nat.mod_lt _ (by decide)

/-- One group more holds 128 times as many values. -/
theorem pow2_seven_add (bits : Nat) : pow2 (7 + bits) = 0x80 * pow2 bits := pow2_add 7 bits

theorem pow2_seven_succ (k : Nat) : pow2 (7 * (k + 1)) = 0x80 * pow2 (7 * k) := by
  rw [Nat.mul_succ, Nat.add_comm, pow2_seven_add]

/-- The bits of `k` groups and those of a last one with its sign. -/
theorem pow2_signed_succ (k : Nat) : pow2 (7 * (k + 1) + 6) = 0x80 * pow2 (7 * k + 6) := by
  rw [Nat.mul_succ, Nat.add_right_comm, Nat.add_comm, pow2_seven_add]

theorem natValue_lt (e : Bytes) : natValue e < pow2 (7 * e.length) := by
  induction e with
  | nil => exact Nat.one_pos
  | cons b e ih =>
    have hgroup := group_lt b
    rw [natValue, List.length_cons, pow2_seven_succ]
    omega

theorem Whole.length_pos (h : Whole e) : 0 < e.length := by
  cases h <;> exact Nat.succ_pos _

/-- The sign is that of the groups behind the first one, if there are any. -/
theorem Whole.isNegative_cons (h : Whole e) (b : UInt8) : isNegative (b :: e) = isNegative e := by
  cases h <;> rfl

theorem intValue_last (b : UInt8) :
    intValue [b] = if 0x40 ≤ group b then (group b : Int) - 0x80 else group b := by
  have hsign : isNegative [b] = decide (0x40 ≤ group b) := rfl
  rw [intValue, hsign]
  simp only [decide_eq_true_eq]
  rfl

theorem Whole.intValue_cons (h : Whole e) (b : UInt8) :
    intValue (b :: e) = group b + 0x80 * intValue e := by
  rw [intValue, intValue, h.isNegative_cons, natValue, List.length_cons, pow2_seven_succ]
  split <;> omega

/-- As many groups hold the integers of as many bits. -/
theorem Whole.intValue_range (h : Whole e) :
    -(pow2 (7 * e.length - 1) : Int) ≤ intValue e ∧ intValue e < (pow2 (7 * e.length - 1) : Int) := by
  induction h with
  | @last b hlast =>
    have hgroup := group_lt b
    have hsix : pow2 (7 * [b].length - 1) = 0x40 := rfl
    rw [intValue_last, hsix]
    split <;> omega
  | @more b e hmore h ih =>
    have hgroup := group_lt b
    have hpos := h.length_pos
    have hpow : pow2 (7 * (b :: e).length - 1) = 0x80 * pow2 (7 * e.length - 1) := by
      rw [List.length_cons, show 7 * (e.length + 1) - 1 = 7 + (7 * e.length - 1) by omega, pow2_seven_add]
    rw [h.intValue_cons, hpow]
    omega

/-! ## Readers -/

/-- A power of two as a multiple of a lower one. -/
theorem pow2_eq_mul {m n : Nat} (h : m ≤ n) : pow2 n = pow2 (n - m) * pow2 m := by
  rw [← pow2_add, Nat.sub_add_cancel h]

/-- The groups from bit `7 * k` on are read as their number, if it fits there. -/
theorem Whole.readNatFrom_append (h : Whole e) (k : Nat) (rest : Bytes) :
    readNatFrom (7 * k) (e ++ rest) =
      if k + e.length ≤ 19 ∧ natValue e * pow2 (7 * k) < pow2 128 then .ok (natValue e * pow2 (7 * k))
      else .error (.decode .varintOverflow) := by
  induction h generalizing k with
  | @last b hlast =>
    have hnat : natValue [b] = group b := rfl
    rw [List.cons_append, List.nil_append, readNatFrom, hlast, hnat, List.length_singleton]
    by_cases hroom : pow2 128 ≤ group b * pow2 (7 * k) ∨ 128 ≤ 7 * k
    · rw [if_pos hroom, if_neg (by omega)]
    · rw [if_neg hroom, if_neg Bool.false_ne_true, if_pos (by omega)]
  | @more b e hmore h ih =>
    have hstep : 7 * k + 7 = 7 * (k + 1) := by omega
    have hpos := h.length_pos
    have hsum : natValue (b :: e) * pow2 (7 * k)
        = group b * pow2 (7 * k) + natValue e * pow2 (7 * (k + 1)) := by
      rw [natValue, Nat.add_mul, pow2_seven_succ, Nat.mul_comm 0x80, Nat.mul_assoc]
    rw [List.cons_append, readNatFrom, hmore, hstep, ih, hsum, List.length_cons]
    by_cases hroom : pow2 128 ≤ group b * pow2 (7 * k) ∨ 128 ≤ 7 * k
    · rw [if_pos hroom, if_neg (by omega)]
    · rw [if_neg hroom, if_pos rfl]
      by_cases hrest : k + 1 + e.length ≤ 19 ∧ natValue e * pow2 (7 * (k + 1)) < pow2 128
      · -- The groups behind the first one are a multiple of its range, and so is `2 ^ 128`.
        have hfit : group b * pow2 (7 * k) + natValue e * pow2 (7 * (k + 1)) < pow2 128 := by
          have hgroup : group b * pow2 (7 * k) < pow2 (7 * (k + 1)) := by
            rw [pow2_seven_succ]
            exact Nat.mul_lt_mul_of_pos_right (group_lt b) (pow2_pos _)
          obtain ⟨hlength, hlt⟩ := hrest
          rw [pow2_eq_mul (show 7 * (k + 1) ≤ 128 by omega)] at hlt ⊢
          have hmore := Nat.mul_le_mul_right (pow2 (7 * (k + 1))) (Nat.lt_of_mul_lt_mul_right hlt)
          rw [Nat.succ_mul] at hmore
          omega
        rw [if_pos hrest, if_pos ⟨by omega, hfit⟩]
        rfl
      · rw [if_neg hrest, if_neg (by omega)]
        rfl

/-- The integers of 128 bits. -/
theorem inRange_iff {n : Int} : Codec.InRange true 16 n ↔ -(pow2 127 : Int) ≤ n ∧ n < (pow2 127 : Int) :=
  iff_of_eq (if_pos rfl)

/-- They are those that stay the same modulo `2 ^ 128`. -/
theorem bmod_eq_self_iff {n : Int} : Int.bmod n (pow2 128) = n ↔ Codec.InRange true 16 n := by
  have hhalf : pow2 128 = 2 * pow2 127 := pow2_succ 127
  rw [inRange_iff]
  constructor
  · intro h
    have hpos : 0 < 128 := by decide
    rw [← h]
    exact bmod_range hpos n
  · rintro ⟨hlow, hhigh⟩
    exact Int.bmod_eq_of_le (by omega) (by omega)

/-- A group behind `k` others. -/
theorem add_group_lt (b : UInt8) {sum k : Nat} (hsum : sum < pow2 (7 * k)) :
    sum + group b * pow2 (7 * k) < pow2 (7 * (k + 1)) := by
  have hgroup := Nat.mul_le_mul_right (pow2 (7 * k)) (Nat.le_of_lt_succ (group_lt b))
  rw [pow2_seven_succ]
  omega

/-- The last group of an integer, from bit `7 * k` on. Bits from 128 on make no difference, whether they are
dropped or are those of the sign. -/
theorem signed_eq {sum k : Nat} (hk : k < 19) (hsum : sum < pow2 (7 * k)) :
    signed (sum + group b * pow2 (7 * k)) (7 * (k + 1)) b
      = Int.bmod (sum + intValue [b] * pow2 (7 * k)) (pow2 128) := by
  have hlt := add_group_lt b hsum
  rw [signed, intValue_last]
  by_cases hsign : 0x40 ≤ group b
  · have hvalue : (sum : Int) + ((group b : Int) - 0x80) * pow2 (7 * k)
        = (sum + group b * pow2 (7 * k) : Nat) - pow2 (7 * (k + 1)) := by
      rw [pow2_seven_succ, Int.sub_mul]
      push_cast
      omega
    rw [if_pos hsign, hvalue]
    by_cases hroom : 7 * (k + 1) < 128
    · have hle : pow2 (7 * (k + 1)) ≤ pow2 127 := pow2_le_pow2 (by omega)
      have hrange : Codec.InRange true 16 ((sum + group b * pow2 (7 * k) : Nat) - pow2 (7 * (k + 1))) :=
        inRange_iff.2 ⟨by omega, by omega⟩
      rw [if_pos ⟨hroom, hsign⟩, bmod_eq_self_iff.2 hrange]
    · obtain rfl : k = 18 := by omega
      have hword : (pow2 (7 * (18 + 1)) : Int) = 32 * (pow2 128 : Nat) := rfl
      rw [if_neg fun h => hroom h.1, hword, Int.sub_mul_bmod_self_right]
  · rw [if_neg fun h => hsign h.2, if_neg hsign]
    push_cast
    rfl

/-- The groups from bit `7 * k` on are read as an integer modulo `2 ^ 128`. -/
theorem Whole.readIntFrom_append (h : Whole e) {sum k : Nat} (hsum : sum < pow2 (7 * k)) (rest : Bytes) :
    readIntFrom sum (7 * k) (e ++ rest) =
      if k + e.length ≤ 19 then .ok (Int.bmod (sum + intValue e * pow2 (7 * k)) (pow2 128))
      else .error (.decode .varintOverflow) := by
  induction h generalizing sum k with
  | @last b hlast =>
    rw [List.cons_append, List.nil_append, readIntFrom, hlast, List.length_singleton]
    by_cases hroom : 128 ≤ 7 * k
    · rw [if_pos hroom, if_neg (by omega)]
    · rw [if_neg hroom, if_neg Bool.false_ne_true, if_pos (by omega), ← signed_eq (by omega) hsum]
      rfl
  | @more b e hmore h ih =>
    have hpos := h.length_pos
    have hstep : 7 * k + 7 = 7 * (k + 1) := by omega
    have hvalue : ((sum + group b * pow2 (7 * k) : Nat) : Int) + intValue e * pow2 (7 * (k + 1))
        = sum + intValue (b :: e) * pow2 (7 * k) := by
      rw [h.intValue_cons, pow2_seven_succ, Int.add_mul, Int.mul_comm 0x80, Int.mul_assoc]
      push_cast
      omega
    rw [List.cons_append, readIntFrom, hmore, if_pos rfl, hstep, ih (add_group_lt b hsum), hvalue,
      List.length_cons]
    by_cases hroom : 128 ≤ 7 * k
    · rw [if_pos hroom, if_neg (by omega)]
    · rw [if_neg hroom, Nat.add_right_comm, Nat.add_assoc]

/-- The number of an encoding is read if it has 128 bits at most, whatever follows. -/
theorem Whole.readNat_append (h : Whole e) (rest : Bytes) :
    readNat (e ++ rest) = if e.length ≤ 19 ∧ natValue e < pow2 128 then .ok (natValue e)
      else .error (.decode .varintOverflow) := by
  have hread := h.readNatFrom_append 0 rest
  rwa [Nat.mul_zero, pow2_zero, Nat.mul_one, Nat.zero_add] at hread

/-- The integer of an encoding is read modulo `2 ^ 128`, whatever follows. -/
theorem Whole.readInt_append (h : Whole e) (rest : Bytes) :
    readInt (e ++ rest) = if e.length ≤ 19 then .ok (Int.bmod (intValue e) (pow2 128))
      else .error (.decode .varintOverflow) := by
  have hzero : 0 < pow2 (7 * 0) := pow2_pos 0
  have hread := h.readIntFrom_append hzero rest
  rwa [Nat.mul_zero, pow2_zero, Int.natCast_one, Int.mul_one, Int.natCast_zero, Int.zero_add,
    Nat.zero_add] at hread

/-- Bytes that all continue are no number. -/
theorem exists_whole_or (bytes : Bytes) :
    (∃ e rest, bytes = e ++ rest ∧ Whole e) ∨ ∀ b ∈ bytes, continues b = true := by
  induction bytes with
  | nil => exact .inr nofun
  | cons b bytes ih =>
    cases hb : continues b with
    | false => exact .inl ⟨[b], bytes, rfl, .last hb⟩
    | true =>
      rcases ih with ⟨e, rest, rfl, he⟩ | hall
      · exact .inl ⟨b :: e, rest, rfl, .more hb he⟩
      · exact .inr (List.forall_mem_cons.2 ⟨hb, hall⟩)

theorem readNatFrom_of_continues {bytes : Bytes} (h : ∀ b ∈ bytes, continues b = true) (shift : Nat) :
    ∃ fault, readNatFrom shift bytes = .error (.decode fault) := by
  induction bytes generalizing shift with
  | nil => exact ⟨_, rfl⟩
  | cons b bytes ih =>
    obtain ⟨hb, hall⟩ := List.forall_mem_cons.1 h
    obtain ⟨fault, hrest⟩ := ih hall (shift + 7)
    rw [readNatFrom, hb, if_pos rfl, hrest]
    split <;> exact ⟨_, rfl⟩

theorem readIntFrom_of_continues {bytes : Bytes} (h : ∀ b ∈ bytes, continues b = true) (sum shift : Nat) :
    ∃ fault, readIntFrom sum shift bytes = .error (.decode fault) := by
  induction bytes generalizing sum shift with
  | nil => exact ⟨_, rfl⟩
  | cons b bytes ih =>
    obtain ⟨hb, hall⟩ := List.forall_mem_cons.1 h
    rw [readIntFrom, hb, if_pos rfl]
    split
    · exact ⟨_, rfl⟩
    · exact ih hall _ _

/-- What the unsigned reader gives. -/
theorem readNat_eq_ok_iff {bytes : Bytes} {n : Nat} : readNat bytes = .ok n ↔
    ∃ e rest, bytes = e ++ rest ∧ Whole e ∧ e.length ≤ 19 ∧ natValue e = n ∧ n < pow2 128 := by
  constructor
  · intro hn
    rcases exists_whole_or bytes with ⟨e, rest, rfl, he⟩ | hall
    · rw [he.readNat_append] at hn
      split at hn
      · rename_i hfit
        cases hn
        exact ⟨e, rest, rfl, he, hfit.1, rfl, hfit.2⟩
      · cases hn
    · obtain ⟨fault, hfault⟩ := readNatFrom_of_continues hall 0
      cases hfault.symm.trans hn
  · rintro ⟨e, rest, rfl, he, hlength, rfl, hfit⟩
    rw [he.readNat_append, if_pos ⟨hlength, hfit⟩]

/-- What the signed reader gives. -/
theorem readInt_eq_ok_iff {bytes : Bytes} {n : Int} : readInt bytes = .ok n ↔
    ∃ e rest, bytes = e ++ rest ∧ Whole e ∧ e.length ≤ 19 ∧ Int.bmod (intValue e) (pow2 128) = n := by
  constructor
  · intro hn
    rcases exists_whole_or bytes with ⟨e, rest, rfl, he⟩ | hall
    · rw [he.readInt_append] at hn
      split at hn
      · cases hn
        exact ⟨e, rest, rfl, he, ‹_›, rfl⟩
      · cases hn
    · obtain ⟨fault, hfault⟩ := readIntFrom_of_continues hall 0 0
      cases hfault.symm.trans hn
  · rintro ⟨e, rest, rfl, he, hlength, rfl⟩
    rw [he.readInt_append, if_pos hlength]

/-- What cannot be read is wrong in its bytes. -/
theorem decode_of_error {bytes : Bytes} {error : Error}
    (h : readNat bytes = .error error ∨ readInt bytes = .error error) : ∃ fault, error = .decode fault := by
  rcases exists_whole_or bytes with ⟨e, rest, rfl, he⟩ | hall
  · rw [he.readNat_append, he.readInt_append] at h
    rcases h with h | h <;> split at h <;> cases h <;> exact ⟨_, rfl⟩
  · obtain ⟨fault, hnat⟩ := readNatFrom_of_continues hall 0
    obtain ⟨fault', hint⟩ := readIntFrom_of_continues hall 0 0
    rcases h with h | h
    · cases hnat.symm.trans h
      exact ⟨fault, rfl⟩
    · cases hint.symm.trans h
      exact ⟨fault', rfl⟩

/-- A number is read if it stands there and has 128 bits at most, and then it is the number that stands there.
The signed reader gives the integer modulo `2 ^ 128`, which is the integer itself if 128 bits hold it. Nothing
else is read, and what is wrong is said to be wrong with the bytes. -/
theorem read_value (bytes : Bytes) :
    (∀ n, readNat bytes = .ok n ↔
        ∃ e rest, bytes = e ++ rest ∧ Whole e ∧ e.length ≤ 19 ∧ natValue e = n ∧ n < pow2 128)
      ∧ (∀ n, readInt bytes = .ok n ↔
        ∃ e rest, bytes = e ++ rest ∧ Whole e ∧ e.length ≤ 19 ∧ Int.bmod (intValue e) (pow2 128) = n)
      ∧ (∀ e rest, bytes = e ++ rest → Whole e →
        (pow2 128 ≤ natValue e → ∃ fault, readNat bytes = .error (.decode fault))
          ∧ (Codec.InRange true 16 (intValue e) → ∀ n, readInt bytes = .ok n → n = intValue e))
      ∧ ∀ error, readNat bytes = .error error ∨ readInt bytes = .error error →
        ∃ fault, error = .decode fault := by
  refine ⟨fun n => readNat_eq_ok_iff, fun n => readInt_eq_ok_iff, fun e rest hbytes he => ?_,
    fun error herror => decode_of_error herror⟩
  subst hbytes
  refine ⟨fun hwide => ?_, fun hrange n hn => ?_⟩
  · rw [he.readNat_append, if_neg fun h => Nat.not_lt.2 hwide h.2]
    exact ⟨_, rfl⟩
  · rw [he.readInt_append, bmod_eq_self_iff.2 hrange] at hn
    split at hn
    · cases hn
      rfl
    · cases hn

/-- Nineteen groups, the last of them with the bits from 126 on. -/
def nineteen (b : UInt8) : Bytes := List.replicate 18 0x80 ++ [b]

theorem whole_nineteen {b : UInt8} (h : continues b = false) : Whole (nineteen b) := by
  simp only [nineteen, List.replicate, List.cons_append, List.nil_append]
  repeat' first | exact .last h | refine .more (by decide) ?_

/-- The lowest integer of 128 bits, and a byte behind it. As a number without a sign it has 133 bits. -/
theorem read_value_of_lowest :
    Whole (nineteen 0x7E) ∧ Codec.InRange true 16 (intValue (nineteen 0x7E))
      ∧ pow2 128 ≤ natValue (nineteen 0x7E)
      ∧ readInt (nineteen 0x7E ++ [0xFF]) = .ok (-(pow2 127 : Int))
      ∧ ∃ fault, readNat (nineteen 0x7E ++ [0xFF]) = .error (.decode fault) := by
  have hwhole : Whole (nineteen 0x7E) := whole_nineteen (by decide)
  have hrange : Codec.InRange true 16 (intValue (nineteen 0x7E)) := by decide +kernel
  have hwide : pow2 128 ≤ natValue (nineteen 0x7E) := by decide +kernel
  have hlowest : Int.bmod (intValue (nineteen 0x7E)) (pow2 128) = -(pow2 127 : Int) := by decide +kernel
  obtain ⟨-, hint, hfit, -⟩ := read_value (nineteen 0x7E ++ [0xFF])
  exact ⟨hwhole, hrange, hwide, (hint _).2 ⟨_, _, rfl, hwhole, by decide, hlowest⟩,
    (hfit _ _ rfl hwhole).1 hwide⟩

/-- Nineteen groups can stand for an integer that 128 bits do not hold. The signed reader drops the bits
from 128 on all the same, and gives another integer. -/
theorem readInt_ne_of_nineteen :
    Whole (nineteen 0x02) ∧ intValue (nineteen 0x02) = pow2 127
      ∧ readInt (nineteen 0x02) = .ok (-(pow2 127 : Int)) := by
  have hwhole : Whole (nineteen 0x02) := whole_nineteen (by decide)
  have hread := hwhole.readInt_append []
  rw [List.append_nil, if_pos (by decide)] at hread
  refine ⟨hwhole, by decide +kernel, hread.trans (congrArg Except.ok ?_)⟩
  decide +kernel

/-! ## Writers -/

theorem continues_last (bits : Nat) : continues (last bits) = false := by
  rw [continues, last, UInt8.toNat_ofNat']
  exact decide_eq_false (by omega)

theorem continues_more (bits : Nat) : continues (more bits) = true := by
  rw [continues, more, UInt8.toNat_ofNat']
  exact decide_eq_true (by omega)

theorem group_last (bits : Nat) : group (last bits) = bits % 0x80 := by
  rw [group, last, UInt8.toNat_ofNat']
  omega

theorem group_more (bits : Nat) : group (more bits) = bits % 0x80 := by
  rw [group, more, UInt8.toNat_ofNat']
  omega

theorem whole_writeNatWith (fuel n : Nat) : Whole (writeNatWith fuel n) := by
  induction fuel generalizing n with
  | zero => exact .last (continues_last n)
  | succ fuel ih =>
    rw [writeNatWith]
    split
    · exact .last (continues_last n)
    · exact .more (continues_more n) (ih _)

theorem whole_writeIntWith (fuel : Nat) (n : Int) : Whole (writeIntWith fuel n) := by
  induction fuel generalizing n with
  | zero => exact .last (continues_last _)
  | succ fuel ih =>
    rw [writeIntWith]
    split
    · exact .last (continues_last _)
    · exact .more (continues_more _) (ih _)

theorem whole_writeNat (n : Nat) : Whole (writeNat n) := whole_writeNatWith _ n

theorem whole_writeInt (n : Int) : Whole (writeInt n) := whole_writeIntWith _ n

/-- What is written stands for the number if the groups suffice for it. -/
theorem natValue_writeNatWith {fuel n : Nat} (h : n < pow2 (7 * (fuel + 1))) :
    natValue (writeNatWith fuel n) = n := by
  induction fuel generalizing n with
  | zero =>
    have hlt : n < 0x80 := h
    rw [writeNatWith, natValue, natValue, group_last]
    omega
  | succ fuel ih =>
    rw [pow2_seven_succ] at h
    rw [writeNatWith]
    split
    · rw [natValue, natValue, group_last]
      omega
    · rw [natValue, group_more, ih (by omega)]
      omega

/-- The number at the end of an encoding is a signed one of seven bits. -/
theorem intValue_last_of_range {n : Int} (hlow : -0x40 ≤ n) (hhigh : n < 0x40) :
    intValue [last (n % 0x80).toNat] = n := by
  rw [intValue_last, group_last]
  split <;> omega

/-- The same of an integer; its last group has a bit less. -/
theorem intValue_writeIntWith {fuel : Nat} {n : Int} (hlow : -(pow2 (7 * fuel + 6) : Int) ≤ n)
    (hhigh : n < (pow2 (7 * fuel + 6) : Int)) : intValue (writeIntWith fuel n) = n := by
  induction fuel generalizing n with
  | zero => exact intValue_last_of_range hlow hhigh
  | succ fuel ih =>
    rw [pow2_signed_succ] at hlow hhigh
    rw [writeIntWith]
    split
    · rename_i hrange
      exact intValue_last_of_range hrange.1 hrange.2
    · rw [(whole_writeIntWith fuel _).intValue_cons, group_more, ih (by omega) (by omega)]
      omega

/-- What is written stands for the number. -/
theorem natValue_writeNat (n : Nat) : natValue (writeNat n) = n := by
  have hlt : n < pow2 (n.log2 + 1) := lt_pow2_of_log2_lt (Nat.lt_succ_self _)
  have hle : pow2 (n.log2 + 1) ≤ pow2 (7 * (n.log2 + 1)) := pow2_le_pow2 (by omega)
  exact natValue_writeNatWith (by omega)

/-- What is written stands for the integer. -/
theorem intValue_writeInt (n : Int) : intValue (writeInt n) = n := by
  have hlt : n.natAbs < pow2 (n.natAbs.log2 + 1) := lt_pow2_of_log2_lt (Nat.lt_succ_self _)
  have hle : pow2 (n.natAbs.log2 + 1) ≤ pow2 (7 * (n.natAbs.log2 + 1) + 6) := pow2_le_pow2 (by omega)
  exact intValue_writeIntWith (by omega) (by omega)

/-- A number of so many groups is written in as many, whatever the fuel. -/
theorem length_writeNatWith_le {fuel n k : Nat} (h : n < pow2 (7 * (k + 1))) :
    (writeNatWith fuel n).length ≤ k + 1 := by
  induction fuel generalizing n k with
  | zero => exact Nat.succ_le_succ (Nat.zero_le k)
  | succ fuel ih =>
    rw [writeNatWith]
    split
    · exact Nat.succ_le_succ (Nat.zero_le k)
    · rename_i hmore
      cases k with
      | zero => exact absurd h hmore
      | succ k =>
        rw [pow2_seven_succ] at h
        exact Nat.succ_le_succ (ih (by omega))

theorem length_writeIntWith_le {fuel k : Nat} {n : Int} (hlow : -(pow2 (7 * k + 6) : Int) ≤ n)
    (hhigh : n < (pow2 (7 * k + 6) : Int)) : (writeIntWith fuel n).length ≤ k + 1 := by
  induction fuel generalizing n k with
  | zero => exact Nat.succ_le_succ (Nat.zero_le k)
  | succ fuel ih =>
    rw [writeIntWith]
    split
    · exact Nat.succ_le_succ (Nat.zero_le k)
    · rename_i hmore
      cases k with
      | zero => exact absurd ⟨hlow, hhigh⟩ hmore
      | succ k =>
        rw [pow2_signed_succ] at hlow hhigh
        exact Nat.succ_le_succ (ih (by omega) (by omega))

/-- No encoding of the same number is shorter than the one that is written. -/
theorem Whole.length_writeNat_le (h : Whole e) : (writeNat (natValue e)).length ≤ e.length := by
  obtain ⟨k, hk⟩ := Nat.exists_eq_succ_of_ne_zero (Nat.ne_of_gt h.length_pos)
  have hlt := natValue_lt e
  rw [hk] at hlt ⊢
  exact length_writeNatWith_le hlt

/-- Nor is one of the same integer. -/
theorem Whole.length_writeInt_le (h : Whole e) : (writeInt (intValue e)).length ≤ e.length := by
  obtain ⟨k, hk⟩ := Nat.exists_eq_succ_of_ne_zero (Nat.ne_of_gt h.length_pos)
  obtain ⟨hlow, hhigh⟩ := h.intValue_range
  have hbits : 7 * e.length - 1 = 7 * k + 6 := by omega
  rw [hbits] at hlow hhigh
  rw [hk]
  exact length_writeIntWith_le hlow hhigh

/-- What is written for a number of 128 bits is read as that number. -/
theorem readNat_writeNat {n : Nat} (h : n < pow2 128) : readNat (writeNat n) = .ok n := by
  have hlength : (writeNat n).length ≤ 19 :=
    length_writeNatWith_le (k := 18) (Nat.lt_of_lt_of_le h (pow2_le_pow2 (by decide)))
  rw [readNat_eq_ok_iff]
  exact ⟨writeNat n, [], (List.append_nil _).symm, whole_writeNat n, hlength, natValue_writeNat n, h⟩

/-- What is written for an integer of 128 bits is read as that integer. -/
theorem readInt_writeInt {n : Int} (h : Codec.InRange true 16 n) : readInt (writeInt n) = .ok n := by
  have hbounds := inRange_iff.1 h
  have hle : pow2 127 ≤ pow2 (7 * 18 + 6) := pow2_le_pow2 (by decide)
  have hlength : (writeInt n).length ≤ 19 := length_writeIntWith_le (k := 18) (by omega) (by omega)
  have hvalue : Int.bmod (intValue (writeInt n)) (pow2 128) = n := by
    rw [intValue_writeInt, bmod_eq_self_iff.2 h]
  rw [readInt_eq_ok_iff]
  exact ⟨writeInt n, [], (List.append_nil _).symm, whole_writeInt n, hlength, hvalue⟩

end BinaryLayout.Varint
