import BinaryLayout.Bitmap.Basic

/-!
# Cutting and joining bitmaps

Every operation here moves bits without changing them. Joining keeps the sign flag of the first
bitmap, cutting that of the whole; only a field read out by `get` is unsigned.

## Main definitions

* `Bitmap.push`, `Bitmap.append`: another bitmap below, or above.
* `Bitmap.shift`, `Bitmap.consume`: the top, or the bottom, bits cut off.
* `Bitmap.get`, `Bitmap.set`: a field of bits, read or replaced.
* `Bitmap.rotateLeft`, `Bitmap.rotateRight`, `Bitmap.reverse`, `Bitmap.grow`, `Bitmap.shrink`.
* `Bitmap.split`: chunks of a given size, from the top.
-/

namespace BinaryLayout.Bitmap

/-- A number moved up above `n` bits of another one is added to it. -/
theorem shiftLeft_or {high low n : Nat} (h : low < pow2 n) :
    high <<< n ||| low = pow2 n * high + low :=
  (Nat.shiftLeft_add_eq_or_of_lt h high).symm.trans (by rw [shiftLeft_eq])

/-- A number above `n` bits of another one stays within both widths. -/
theorem stack_lt {high low m n : Nat} (hHigh : high < pow2 m) (hLow : low < pow2 n) :
    high <<< n ||| low < pow2 (m + n) := by
  have h : pow2 n * (high + 1) ≤ pow2 n * pow2 m := Nat.mul_le_mul_left _ hHigh
  rw [shiftLeft_or hLow, pow2_add, Nat.mul_comm (pow2 m)]
  rw [Nat.mul_add, Nat.mul_one] at h
  omega

/-- The bits above the lowest `n` fit in what is left of the width. -/
theorem div_lt {value width n : Nat} (h : value < pow2 width) (hn : n ≤ width) :
    value / pow2 n < pow2 (width - n) := by
  rw [Nat.div_lt_iff_lt_mul (pow2_pos n), ← pow2_add, Nat.sub_add_cancel hn]
  exact h

/-- `b` with `other` below it. -/
def push (b other : Bitmap) : Bitmap :=
  ⟨b.value <<< other.width ||| other.value, b.width + other.width, b.signed,
    stack_lt b.value_lt other.value_lt⟩

/-- `b` with `other` above it. -/
def append (b other : Bitmap) : Bitmap :=
  ⟨other.value <<< b.width ||| b.value, b.width + other.width, b.signed, by
    rw [Nat.add_comm b.width]
    exact stack_lt other.value_lt b.value_lt⟩

/-- The lowest `n` bits, at most all of them. -/
def low (b : Bitmap) (n : Nat) : Bitmap := ofNat b.value (min n b.width) b.signed

/-- What is left above the lowest `n` bits. -/
def high (b : Bitmap) (n : Nat) : Bitmap :=
  ⟨b.value >>> min n b.width, b.width - min n b.width, b.signed, by
    rw [shiftRight_eq]
    exact div_lt b.value_lt (Nat.min_le_right n b.width)⟩

/-- The rest and the `n` top bits cut off it. -/
def shift (b : Bitmap) (n : Nat) : Bitmap × Bitmap := (b.low (b.width - n), b.high (b.width - n))

/-- The rest and the `n` lowest bits cut off it. -/
def consume (b : Bitmap) (n : Nat) : Bitmap × Bitmap := (b.high n, b.low n)

/-- The bits moved up by `n` places, with those pushed out at the top coming in at the bottom. -/
def rotateLeft (b : Bitmap) (n : Nat) : Bitmap :=
  if b.width = 0 then b
  else
    let n := n % b.width
    ⟨(b.value <<< n ||| b.value >>> (b.width - n)) &&& mask b.width, b.width, b.signed,
      and_mask_lt _ _⟩

/-- The bits moved down by `n` places, with those pushed out at the bottom coming in at the top. -/
def rotateRight (b : Bitmap) (n : Nat) : Bitmap :=
  if b.width = 0 then b else b.rotateLeft (b.width - n % b.width)

/-- The `count` bits from `index` on; there are zeros past the width. -/
def get (b : Bitmap) (index count : Nat) : Bitmap := ofNat (b.value >>> index) count false

/-- The `count` bits from `index` on replaced by the low bits of `value`, within the width. -/
def set (b : Bitmap) (index value count : Nat) : Bitmap :=
  let field := mask count <<< index
  let cleared := b.value &&& (mask b.width ^^^ field)
  let inserted := (value &&& mask count) <<< index
  ofNat (cleared ||| inserted) b.width b.signed

/-- `n` zeros added at the top. -/
def grow (b : Bitmap) (n : Nat) : Bitmap :=
  ⟨b.value, b.width + n, b.signed, Nat.lt_of_lt_of_le b.value_lt (pow2_le_pow2 (by omega))⟩

/-- The `n` top bits dropped. -/
def shrink (b : Bitmap) (n : Nat) : Bitmap := ofNat b.value (b.width - n) b.signed

/-- The number of the lowest `count` bits turned round in the width, bit by bit. -/
def reversed (b : Bitmap) (count : Nat) : Nat :=
  (List.range count).foldl
    (fun value i => if b.bit i then value ||| 1 <<< (b.width - 1 - i) else value) 0

/-- A bit is set where its place comes from a bit that is set. -/
theorem testBit_reversed {b : Bitmap} {count : Nat} (h : count ≤ b.width) (i : Nat) :
    (b.reversed count).testBit i
      = (decide (i < b.width ∧ b.width - 1 - i < count) && b.bit (b.width - 1 - i)) := by
  induction count with
  | zero => simp [reversed]
  | succ count ih =>
    have ih := ih (by omega)
    have hstep : b.reversed (count + 1)
        = if b.bit count then b.reversed count ||| 1 <<< (b.width - 1 - count)
          else b.reversed count := by
      simp [reversed, List.range_succ]
    by_cases hplace : i = b.width - 1 - count
    · have hback : b.width - 1 - i = count := by omega
      have hlt : i < b.width := by omega
      rw [hback] at ih ⊢
      rw [hstep]
      by_cases hbit : b.bit count
      · have hone : (1 <<< (b.width - 1 - count)).testBit i = true := by
          simp [hplace, Nat.testBit_shiftLeft]
        simp [hbit, hlt, hone, Nat.testBit_or]
      · simp [hbit, ih]
    · have hsame : (i < b.width ∧ b.width - 1 - i < count + 1)
          ↔ (i < b.width ∧ b.width - 1 - i < count) := by omega
      have hother : (1 <<< (b.width - 1 - count)).testBit i = false := by
        rw [Nat.shiftLeft_eq, Nat.one_mul]
        exact Nat.testBit_two_pow_of_ne (Ne.symm hplace)
      rw [hstep, decide_eq_decide.2 hsame, ← ih]
      by_cases hbit : b.bit count
      · simp [hbit, Nat.testBit_or, hother]
      · simp [hbit]

def reverse (b : Bitmap) : Bitmap :=
  ⟨b.reversed b.width, b.width, b.signed, Nat.lt_pow_two_of_testBit _ fun i hi => by
    rw [testBit_reversed (Nat.le_refl _)]
    simp [Nat.not_lt.2 hi]⟩

/-- Chunks of `size` bits from the top, at most `fuel` of them. -/
def chunks (size : Nat) : Nat → Bitmap → List Bitmap
  | 0, _ => []
  | fuel + 1, b =>
    if b.width = 0 then []
    else (b.shift size).2 :: chunks size fuel (b.shift size).1

/-- Chunks of `size` bits from the top; the last one may be shorter. There are none of size 0. -/
def split (b : Bitmap) (size : Nat) : List Bitmap :=
  if size = 0 then [] else chunks size b.width b

@[simp] theorem width_push (b other : Bitmap) : (b.push other).width = b.width + other.width := rfl

@[simp] theorem width_append (b other : Bitmap) :
    (b.append other).width = b.width + other.width := rfl

end BinaryLayout.Bitmap
