/-!
# Powers

How many values so many bits or decimal digits have.

## Main definitions

* `pow2`, `pow10`: the powers of two and of ten.
* `mask`: so many ones.
* `lowBits`: the low bits of a number.

## Main statements

* `and_mask`, `lowBits_eq`, `shiftRight_eq`, `shiftLeft_eq`: cutting and moving bits as arithmetic.
* `lowBits_eq_and_mask`: the low bits are what a mask leaves.
-/

namespace BinaryLayout

def pow2 (bits : Nat) : Nat := Nat.pow 2 bits

/-- How many values so many decimal digits have. -/
def pow10 (digits : Nat) : Nat := Nat.pow 10 digits

@[simp] theorem pow2_zero : pow2 0 = 1 := rfl

theorem pow2_succ (bits : Nat) : pow2 (bits + 1) = 2 * pow2 bits := by
  show Nat.pow 2 bits * 2 = 2 * pow2 bits
  rw [Nat.mul_comm]
  rfl

theorem pow2_add (m n : Nat) : pow2 (m + n) = pow2 m * pow2 n := Nat.pow_add 2 m n

theorem pow2_pos (bits : Nat) : 0 < pow2 bits := Nat.two_pow_pos bits

theorem pow2_le_pow2 {m n : Nat} (h : m ≤ n) : pow2 m ≤ pow2 n :=
  Nat.pow_le_pow_right (by decide) h

/-- The number of so many ones. -/
def mask (bits : Nat) : Nat := pow2 bits - 1

/-- A mask leaves a remainder. -/
theorem and_mask (value bits : Nat) : value &&& mask bits = value % pow2 bits :=
  Nat.and_two_pow_sub_one_eq_mod value bits

theorem and_mask_lt (value bits : Nat) : value &&& mask bits < pow2 bits :=
  and_mask value bits ▸ Nat.mod_lt _ (pow2_pos bits)

/-- The low bits of a number. One that has no more bits than that is not divided, however large the
power is. -/
def lowBits (bits value : Nat) : Nat := if value.log2 < bits then value else value % pow2 bits

/-- A number has fewer digits than bits where its logarithm is below them. -/
theorem lt_pow2_of_log2_lt {value bits : Nat} (h : value.log2 < bits) : value < pow2 bits := by
  by_cases hz : value = 0
  · rw [hz]
    exact pow2_pos bits
  · exact (Nat.log2_lt hz).1 h

/-- The low bits are a remainder. -/
theorem lowBits_eq (bits value : Nat) : lowBits bits value = value % pow2 bits := by
  unfold lowBits
  split
  · rename_i h
    exact (Nat.mod_eq_of_lt (lt_pow2_of_log2_lt h)).symm
  · rfl

/-- The low bits are those that a mask leaves. -/
theorem lowBits_eq_and_mask (bits value : Nat) : lowBits bits value = value &&& mask bits := by
  rw [lowBits_eq, and_mask]

theorem lowBits_lt (bits value : Nat) : lowBits bits value < pow2 bits :=
  lowBits_eq bits value ▸ Nat.mod_lt _ (pow2_pos bits)

/-- Bits moved down are a quotient. -/
theorem shiftRight_eq (value bits : Nat) : value >>> bits = value / pow2 bits :=
  Nat.shiftRight_eq_div_pow value bits

/-- Bits moved up are a product. -/
theorem shiftLeft_eq (value bits : Nat) : value <<< bits = pow2 bits * value :=
  (Nat.shiftLeft_eq value bits).trans (Nat.mul_comm _ _)

end BinaryLayout
