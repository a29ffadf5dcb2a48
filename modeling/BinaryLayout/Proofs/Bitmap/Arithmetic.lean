import BinaryLayout.Bitmap.Arithmetic
import BinaryLayout.Proofs.Exact.Bits
import Mathlib.Data.Int.ModEq

/-!
# Arithmetic in a width

The exact result of an operation is an integer of any size, and the bits keep what is left of it modulo
`2 ^ width`. Among the integers that so many bits hold, signed or not, there is exactly one with that
remainder, and it is the number that the result stands for. That goes for the sum, the difference and the
product as well as for the two halves of a division, whatever the signs and the width are.

## Main definitions

* `Bitmap.Residue`: the integer of a range with the remainder of another one.
* `Bitmap.Holds`: a result that keeps what is left of an integer.
* `Bitmap.Truncates`: quotient and remainder when the quotient is truncated toward zero.
* `Bitmap.Wraps`: what each operation makes of the number that the bits stand for.

## Main statements

* `Bitmap.Residue.unique`: there is only one with the remainder.
* `Bitmap.wraps`: all operations on every bitmap.
-/

namespace BinaryLayout.Bitmap

variable {b : Bitmap} {n m exact : Int} {width : Nat} {signed : Bool}

/-- An integer that the bits hold and that has the remainder of the exact one. -/
structure Residue (signed : Bool) (width : Nat) (exact n : Int) : Prop where
  range : InRange signed width n
  congruent : n ≡ exact [ZMOD pow2 width]

/-- The range has no two integers with one remainder. -/
theorem Residue.unique (hn : Residue signed width exact n) (hm : Residue signed width exact m) : n = m := by
  have hmod : (pow2 width : Int) ∣ m - n := (hn.congruent.trans hm.congruent.symm).dvd
  have hclose : |m - n| < pow2 width := by
    have hn := hn.range
    have hm := hm.range
    rw [InRange] at hn hm
    rw [abs_lt]
    cases signed with
    | true =>
      rw [if_pos rfl] at hn hm
      omega
    | false =>
      rw [if_neg Bool.false_ne_true] at hn hm
      omega
  have hzero : m - n = 0 := Int.eq_zero_of_abs_lt_dvd hmod hclose
  omega

/-! ## The number of the bits -/

/-- The number has the remainder of the magnitude. -/
theorem toInt_modEq (b : Bitmap) : b.toInt ≡ b.value [ZMOD pow2 b.width] := by
  rcases b.toInt_cases with ⟨hint, -⟩ | ⟨hint, -, -⟩
  · rw [hint]
  · rw [hint]
    exact (Int.modEq_sub_modulus_iff.2 Int.ModEq.rfl).symm

/-- The number of the bits of an integer has the remainder of that integer. -/
theorem residue_ofInt (signed : Bool) (width : Nat) (exact : Int) :
    Residue signed width exact (ofInt exact width signed).toInt := by
  constructor
  · have hrange := (ofInt exact width signed).inRange_toInt
    rwa [signed_ofInt, width_ofInt] at hrange
  · have hmod := (ofInt exact width signed).toInt_modEq
    rw [width_ofInt, value_ofInt] at hmod
    exact hmod.trans (Int.mod_modEq _ _)

/-! ## Operations -/

/-- A result in the width and under the sign flag of `b` that stands for what is left of an integer, and for
no other number. -/
structure Holds (c b : Bitmap) (exact : Int) : Prop where
  width_eq : c.width = b.width
  signed_eq : c.signed = b.signed
  toInt_eq_iff : ∀ n, c.toInt = n ↔ Residue b.signed b.width exact n

theorem holds_wrapped (b : Bitmap) (exact : Int) : (b.wrapped exact).Holds b exact where
  width_eq := width_ofInt _ _ _
  signed_eq := rfl
  toInt_eq_iff n := by
    have hresidue := residue_ofInt b.signed b.width exact
    constructor
    · rintro rfl
      exact hresidue
    · exact hresidue.unique

/-- The quotient of `a` by `r` truncated toward zero, and the remainder: it is less than the divisor and does not
have the sign opposite to that of the dividend. -/
structure Truncates (a r quotient rest : Int) : Prop where
  eq : a = r * quotient + rest
  lt : |rest| < |r|
  sign : 0 ≤ a * rest

theorem truncates (a : Int) {r : Int} (h : r ≠ 0) : Truncates a r (a.tdiv r) (a.tmod r) where
  eq := (Int.mul_tdiv_add_tmod a r).symm
  lt := by
    rw [Int.abs_eq_natAbs, Int.abs_eq_natAbs, Int.natAbs_tmod]
    exact_mod_cast Nat.mod_lt _ (Int.natAbs_pos.2 h)
  sign := by
    rcases Int.le_total 0 a with ha | ha
    · exact Int.mul_nonneg ha (Int.tmod_nonneg r ha)
    · have hrest : 0 ≤ (-a).tmod r := Int.tmod_nonneg r (Int.neg_nonneg_of_nonpos ha)
      rw [Int.neg_tmod] at hrest
      exact Int.mul_nonneg_of_nonpos_of_nonpos ha (Int.nonpos_of_neg_nonneg hrest)

/-- What the operations make of the number that the bits stand for. -/
structure Wraps (b : Bitmap) : Prop where
  /-- That number is itself what is left of the magnitude. -/
  operand : ∀ n, b.toInt = n ↔ Residue b.signed b.width b.value n
  add : ∀ r, (b.add r).Holds b (b.toInt + r)
  sub : ∀ r, (b.sub r).Holds b (b.toInt - r)
  mul : ∀ r, (b.mul r).Holds b (b.toInt * r)
  /-- There is no quotient by zero, and no remainder. -/
  zero : b.div? 0 = none ∧ b.rem? 0 = none
  /-- Both are there for every other divisor, also where the quotient leaves the range. -/
  division : ∀ r, r ≠ 0 → ∃ quotient rest, Truncates b.toInt r quotient rest
    ∧ (∃ c, b.div? r = some c ∧ c.Holds b quotient) ∧ ∃ c, b.rem? r = some c ∧ c.Holds b rest

/-- **Arithmetic wraps to the width**: whatever the width, the sign flag and the operand are, each operation gives
the one integer that the bits hold and that is congruent to the exact result modulo `2 ^ width`. Division by
zero gives nothing, and any other division is that of the truncated quotient. -/
theorem wraps (b : Bitmap) : b.Wraps where
  operand n := by
    have hresidue : Residue b.signed b.width b.value b.toInt := ⟨b.inRange_toInt, b.toInt_modEq⟩
    constructor
    · rintro rfl
      exact hresidue
    · exact hresidue.unique
  add r := holds_wrapped b _
  sub r := holds_wrapped b _
  mul r := holds_wrapped b _
  zero := ⟨if_pos rfl, if_pos rfl⟩
  division r hr :=
    ⟨_, _, truncates b.toInt hr, ⟨_, if_neg hr, holds_wrapped b _⟩, ⟨_, if_neg hr, holds_wrapped b _⟩⟩

/-- The lowest number of eight signed bits, divided by -1, leaves the range and comes back to it. -/
example : ((ofInt (-128) 8 true).div? (-1)).map toInt = some (-128) := by decide +kernel

end BinaryLayout.Bitmap
