import BinaryLayout.FloatingPoint.Format
import Mathlib.Algebra.Order.Field.Power
import Mathlib.Algebra.Ring.Parity
import Mathlib.Order.Monotone.Basic
import Mathlib.Tactic.FieldSimp
import Mathlib.Tactic.Linarith
import Mathlib.Tactic.NormNum
import Mathlib.Tactic.Positivity
import Mathlib.Tactic.Ring

/-!
# Rounding to a format

The patterns of a format, without the sign, stand for a growing sequence of numbers. Halfway between two
neighbours lies a tie, and a number rounds to a pattern where it lies between the ties on the two sides; a
tie itself goes to the even one of its neighbours. Exponents have no bound in the sequence, so the tie below
infinity is where numbers begin to overflow. Numbers are rational here, with nothing rounded.

## Main definitions

* `Nearest`: the integer that a multiple of a unit is rounded to.
* `FloatFormat.value`, `FloatFormat.tie`: the number of a pattern, and the middle between it and the next one.
* `FloatFormat.Takes`: a pattern takes the numbers between its ties.
* `FloatFormat.InBinade`: the numbers for which a power of two is the unit in the last place.
* `FloatFormat.Rounds`: nearest to a number among all the numbers of a format, ties to the even significand.

## Main statements

* `FloatFormat.value_strictMono`: the numbers of the patterns grow.
* `FloatFormat.Proper.takes_round`: `round` gives the pattern that takes a number.
* `FloatFormat.Proper.rounds_iff_takes`: to be nearest is to lie between the ties.
* `FloatFormat.Proper.rounds_encode`: `encode` gives the nearest pattern.
-/

namespace BinaryLayout

theorem pow2_eq (bits : Nat) : pow2 bits = 2 ^ bits := rfl

theorem pow2_mul_zpow (bits : Nat) (e : Int) : (pow2 bits : ℚ) * 2 ^ e = 2 ^ (bits + e) := by
  rw [pow2_eq, zpow_add₀ (by norm_num), zpow_natCast]
  push_cast
  rfl

/-! ## Rounding to a multiple -/

/-- `n` units are nearest to `x`, where a tie goes to the even number of units. -/
structure Nearest (x unit : ℚ) (n : Nat) : Prop where
  above : (n - 1 / 2) * unit ≤ x
  below : x ≤ (n + 1 / 2) * unit
  even : x = (n - 1 / 2) * unit ∨ x = (n + 1 / 2) * unit → Even n

theorem Nearest.scale {x unit c : ℚ} {n : Nat} (h : Nearest x unit n) (hc : 0 < c) :
    Nearest (x * c) (unit * c) n where
  above := by
    rw [← mul_assoc]
    exact mul_le_mul_of_nonneg_right h.above hc.le
  below := by
    rw [← mul_assoc]
    exact mul_le_mul_of_nonneg_right h.below hc.le
  even := by
    simp only [← mul_assoc, mul_left_inj' hc.ne']
    exact h.even

theorem Nearest.exact {unit : ℚ} (n : Nat) (hunit : 0 < unit) : Nearest (n * unit) unit n where
  above := by linarith
  below := by linarith
  even := by rintro (h | h) <;> linarith

/-- So many whole units that are no less than `x` are no fewer. -/
theorem Nearest.le {x unit : ℚ} {n m : Nat} (h : Nearest x unit n) (hunit : 0 < unit) (hx : x ≤ m * unit) :
    n ≤ m := by
  have hle := (mul_le_mul_iff_of_pos_right hunit).1 (h.above.trans hx)
  have hlt : (n : ℚ) < ↑(m + 1) := by push_cast; linarith
  exact Nat.lt_succ_iff.1 (by exact_mod_cast hlt)

/-- And so many that are no greater are no more. -/
theorem Nearest.ge {x unit : ℚ} {n m : Nat} (h : Nearest x unit n) (hunit : 0 < unit) (hx : m * unit ≤ x) :
    m ≤ n := by
  have hle := (mul_le_mul_iff_of_pos_right hunit).1 (hx.trans h.below)
  have hlt : (m : ℚ) < ↑(n + 1) := by push_cast; linarith
  exact Nat.lt_succ_iff.1 (by exact_mod_cast hlt)

/-- Dividing by a power of two rounds to nearest. -/
theorem nearest_roundShift (m k : Nat) : Nearest m (2 ^ k) (roundShift m k) := by
  have hsplit : (m : ℚ) = ↑(m / pow2 k) * 2 ^ k + ↑(m % pow2 k) := by
    have hdiv := Nat.div_add_mod' m (pow2 k)
    rw [pow2_eq] at hdiv ⊢
    exact_mod_cast hdiv.symm
  have hrest : m % pow2 k < 2 ^ k := Nat.mod_lt _ (pow2_pos k)
  rw [roundShift, pow2_eq]
  rw [pow2_eq] at hsplit hrest
  generalize m / 2 ^ k = quotient at *
  generalize m % 2 ^ k = rest at *
  have hlt : (rest : ℚ) < 2 ^ k := by exact_mod_cast hrest
  have hnonneg : (0 : ℚ) ≤ rest := Nat.cast_nonneg rest
  split
  · next hup =>
    have hhalf : (2 : ℚ) ^ k ≤ 2 * rest := by
      rcases hup with hup | hup
      · exact_mod_cast hup.le
      · exact_mod_cast hup.1.ge
    refine ⟨by push_cast; linarith, by push_cast; linarith, ?_⟩
    push_cast
    rintro (h | h)
    · have hodd : quotient % 2 = 1 := by
        have htie : (2 * rest : ℚ) = 2 ^ k := by linarith
        have htie : 2 * rest = 2 ^ k := by exact_mod_cast htie
        omega
      rw [Nat.even_iff]
      omega
    · linarith
  · next hdown =>
    have hhalf : 2 * (rest : ℚ) ≤ 2 ^ k := by
      have hle : 2 * rest ≤ 2 ^ k := by omega
      exact_mod_cast hle
    refine ⟨by linarith, by linarith, ?_⟩
    rintro (h | h)
    · linarith
    · have htie : (2 * rest : ℚ) = 2 ^ k := by linarith
      have htie : 2 * rest = 2 ^ k := by exact_mod_cast htie
      rw [Nat.even_iff]
      omega

/-- An even multiple of the power passes through the division. -/
theorem roundShift_add (a m k : Nat) : roundShift (2 * a * pow2 k + m) k = 2 * a + roundShift m k := by
  have hdiv : (2 * a * pow2 k + m) / pow2 k = 2 * a + m / pow2 k := by
    rw [Nat.add_comm, Nat.add_mul_div_right _ _ (pow2_pos k), Nat.add_comm]
  have hmod : (2 * a * pow2 k + m) % pow2 k = m % pow2 k := Nat.mul_add_mod_self_right _ _ _
  have hparity : (2 * a + m / pow2 k) % 2 = m / pow2 k % 2 := by omega
  simp only [roundShift, hdiv, hmod, hparity]
  split <;> omega

namespace FloatFormat

variable (f : FloatFormat)

/-! ## The numbers of the patterns -/

/-- Both fields have bits. -/
structure Proper : Prop where
  exponentBits_pos : 0 < f.exponentBits
  fractionBits_pos : 0 < f.fractionBits

theorem proper_half : half.Proper := ⟨by decide, by decide⟩

theorem proper_single : single.Proper := ⟨by decide, by decide⟩

/-- The significand of a pattern without a sign. -/
def significand (p : Nat) : Nat :=
  if p / pow2 f.fractionBits = 0 then p % pow2 f.fractionBits
  else pow2 f.fractionBits + p % pow2 f.fractionBits

/-- The unit in the last place of a pattern without a sign, as a power of two. -/
def unit (p : Nat) : Int := f.leastExponent + (p / pow2 f.fractionBits - 1 : Nat)

/-- The number that a pattern without a sign stands for. The exponent has no bound here: infinity and what
comes after it continue the sequence. -/
def value (p : Nat) : ℚ := f.significand p * 2 ^ f.unit p

/-- The middle between the number of a pattern and the next one. -/
def tie (p : Nat) : ℚ := (f.value p + f.value (p + 1)) / 2

/-- The least number that rounds to infinity. -/
def overflow : ℚ := f.tie (f.infinity - 1)

variable {f} {p q k n : Nat} {x : ℚ}

/-- So many units of a binade, of the lowest or of one that the units fill at least by half. -/
theorem value_eq (hn : n ≤ 2 * pow2 f.fractionBits) (hk : k = 0 ∨ pow2 f.fractionBits ≤ n) :
    f.value (k * pow2 f.fractionBits + n) = n * 2 ^ (f.leastExponent + k) := by
  have hpos := pow2_pos f.fractionBits
  have hdiv : (k * pow2 f.fractionBits + n) / pow2 f.fractionBits = k + n / pow2 f.fractionBits := by
    rw [Nat.add_comm, Nat.add_mul_div_right _ _ hpos, Nat.add_comm]
  have hmod : (k * pow2 f.fractionBits + n) % pow2 f.fractionBits = n % pow2 f.fractionBits :=
    Nat.mul_add_mod_self_right _ _ _
  rw [value, significand, unit, hdiv, hmod]
  rcases Nat.lt_or_ge n (pow2 f.fractionBits) with hlow | hhigh
  · obtain rfl : k = 0 := by omega
    rw [Nat.div_eq_of_lt hlow, Nat.mod_eq_of_lt hlow]
    rfl
  rcases hn.lt_or_eq with hlt | rfl
  · have hone : n / pow2 f.fractionBits = 1 := by
      rw [Nat.div_eq_iff hpos]
      omega
    have hsub : pow2 f.fractionBits + n % pow2 f.fractionBits = n := by
      rw [Nat.mod_eq_sub_mul_div, hone]
      omega
    rw [hone, if_neg (by omega), hsub, Nat.add_sub_cancel]
  -- All the units there are make half of the next binade's.
  · have htwo : (2 : ℚ) ≠ 0 := by norm_num
    rw [Nat.mul_div_cancel _ hpos, Nat.mul_mod_left, if_neg (by omega), Nat.add_zero,
      show k + 2 - 1 = k + 1 from rfl]
    push_cast
    rw [← add_assoc, zpow_add_one₀ htwo]
    ring

/-- Every pattern is some units of a binade. -/
theorem exists_units (f : FloatFormat) (p : Nat) : ∃ k n, p = k * pow2 f.fractionBits + n ∧
    n < 2 * pow2 f.fractionBits ∧ (k = 0 ∨ pow2 f.fractionBits ≤ n) := by
  have hpos := pow2_pos f.fractionBits
  have hdiv := Nat.div_add_mod' p (pow2 f.fractionBits)
  have hmod := Nat.mod_lt p hpos
  rcases hfield : p / pow2 f.fractionBits with _ | k
  · rw [hfield] at hdiv
    exact ⟨0, p, by omega, by omega, .inl rfl⟩
  · rw [hfield, Nat.succ_mul] at hdiv
    exact ⟨k, pow2 f.fractionBits + p % pow2 f.fractionBits, by omega, by omega, .inr (by omega)⟩

theorem tie_eq (hn : n < 2 * pow2 f.fractionBits) (hk : k = 0 ∨ pow2 f.fractionBits ≤ n) :
    f.tie (k * pow2 f.fractionBits + n) = (n + 1 / 2) * 2 ^ (f.leastExponent + k) := by
  rw [tie, value_eq hn.le hk, Nat.add_assoc, value_eq (n := n + 1) hn (hk.imp_right Nat.le_succ_of_le)]
  push_cast
  ring

theorem value_lt_tie (f : FloatFormat) (p : Nat) : f.value p < f.tie p := by
  obtain ⟨k, n, rfl, hn, hk⟩ := f.exists_units p
  rw [value_eq hn.le hk, tie_eq hn hk]
  have hunit : (0 : ℚ) < 2 ^ (f.leastExponent + k) := by positivity
  linarith

theorem tie_lt_value (f : FloatFormat) (p : Nat) : f.tie p < f.value (p + 1) := by
  have hlt := f.value_lt_tie p
  rw [tie] at hlt ⊢
  linarith

/-- The numbers of the patterns grow. -/
theorem value_strictMono (f : FloatFormat) : StrictMono f.value :=
  strictMono_nat_of_lt_succ fun p => (f.value_lt_tie p).trans (f.tie_lt_value p)

theorem tie_strictMono (f : FloatFormat) : StrictMono f.tie :=
  strictMono_nat_of_lt_succ fun p => (f.tie_lt_value p).trans (f.value_lt_tie (p + 1))

theorem value_nonneg (f : FloatFormat) (p : Nat) : 0 ≤ f.value p := by
  rw [value]
  positivity

/-- A significand that fits, times a power of two that is not too small, is the number of a pattern. -/
theorem exists_value_eq (f : FloatFormat) (k m : Nat) (hm : m ≤ 2 * pow2 f.fractionBits) :
    ∃ p, f.value p = m * 2 ^ (f.leastExponent + k) := by
  induction k generalizing m with
  | zero => exact ⟨m, by simpa using value_eq (k := 0) hm (.inl rfl)⟩
  | succ k ih =>
    rcases Nat.lt_or_ge (pow2 f.fractionBits) m with hhigh | hlow
    · exact ⟨_, value_eq hm (.inr hhigh.le)⟩
    -- The significand has room for one more bit.
    · obtain ⟨p, hp⟩ := ih (2 * m) (by omega)
      refine ⟨p, hp.trans ?_⟩
      push_cast
      rw [← add_assoc, zpow_add_one₀ (by norm_num)]
      ring

/-- With a fraction field the parity of a pattern is that of its significand. -/
theorem Proper.even_iff (hf : f.Proper) : Even (k * pow2 f.fractionBits + n) ↔ Even n := by
  have hfraction : Even (pow2 f.fractionBits) :=
    (Nat.even_pow' hf.fractionBits_pos.ne').2 even_two
  exact Nat.even_add.trans (iff_true_left (hfraction.mul_left k))

theorem Proper.even_significand (hf : f.Proper) (p : Nat) : Even (f.significand p) ↔ Even p := by
  have hdiv := Nat.div_add_mod' p (pow2 f.fractionBits)
  have hone : Even (pow2 f.fractionBits + p % pow2 f.fractionBits) ↔ Even (p % pow2 f.fractionBits) := by
    simpa using hf.even_iff (k := 1) (n := p % pow2 f.fractionBits)
  have hall := hf.even_iff (k := p / pow2 f.fractionBits) (n := p % pow2 f.fractionBits)
  rw [hdiv] at hall
  rw [significand, hall]
  split
  · rfl
  · exact hone

theorem Proper.even_infinity (hf : f.Proper) : Even f.infinity := by
  rw [infinity, ← Nat.add_zero (_ * _), hf.even_iff]
  exact Even.zero

theorem Proper.infinity_pos (hf : f.Proper) : 0 < f.infinity := by
  have hfield : pow2 1 ≤ pow2 f.exponentBits := pow2_le_pow2 hf.exponentBits_pos
  have htwo : pow2 1 = 2 := rfl
  rw [infinity, maxField]
  exact Nat.mul_pos (by omega) (pow2_pos _)

/-! ## Between the ties -/

/-- The pattern lies so near to the number that no other one is nearer. A tie belongs to its even neighbour,
and infinity takes everything from the last tie on. -/
structure Takes (f : FloatFormat) (x : ℚ) (p : Nat) : Prop where
  le : p ≤ f.infinity
  low : ∀ q, q + 1 = p → f.tie q ≤ x ∧ (f.tie q = x → Even p)
  high : p < f.infinity → x ≤ f.tie p ∧ (x = f.tie p → Even p)

/-- The number lies in the binade that the units of a power of two fill by half to the whole, or in the lowest
one, which begins at zero. -/
structure InBinade (f : FloatFormat) (x : ℚ) (k : Nat) : Prop where
  low : k = 0 ∨ pow2 f.fractionBits * 2 ^ (f.leastExponent + k) ≤ x
  high : x ≤ 2 * pow2 f.fractionBits * 2 ^ (f.leastExponent + k)

section

variable (hf : f.Proper) (hbinade : f.InBinade x k) (hx : Nearest x (2 ^ (f.leastExponent + k)) n)

include hbinade hx

/-- Rounding does not leave the binade. -/
theorem InBinade.units : n ≤ 2 * pow2 f.fractionBits ∧ (k = 0 ∨ pow2 f.fractionBits ≤ n) := by
  have hunit : (0 : ℚ) < 2 ^ (f.leastExponent + k) := by positivity
  exact ⟨hx.le hunit (by exact_mod_cast hbinade.high), hbinade.low.imp_right (hx.ge hunit)⟩

include hf

theorem InBinade.low_tie (hq : q + 1 = k * pow2 f.fractionBits + n) :
    f.tie q ≤ x ∧ (f.tie q = x → Even (k * pow2 f.fractionBits + n)) := by
  obtain ⟨hn, hk⟩ := hbinade.units hx
  have hpos := pow2_pos f.fractionBits
  rw [hf.even_iff]
  by_cases hfirst : k ≠ 0 ∧ n = pow2 f.fractionBits
  -- The first number of a binade has smaller units below it.
  · obtain ⟨hne, rfl⟩ := hfirst
    have htie := f.tie_lt_value q
    rw [hq, value_eq hn (.inr le_rfl)] at htie
    have hlow := hbinade.low.resolve_left hne
    exact ⟨by linarith, fun h => by linarith⟩
  · obtain ⟨n, rfl⟩ : ∃ m, n = m + 1 := ⟨n - 1, by
      rcases hk with rfl | hk <;> omega⟩
    obtain rfl : q = k * pow2 f.fractionBits + n := by omega
    have habove := hx.above
    have heven := hx.even
    push_cast at habove heven
    rw [tie_eq (by omega) (by omega)]
    ring_nf at habove heven ⊢
    exact ⟨habove, fun h => heven (.inl h.symm)⟩

theorem InBinade.high_tie :
    x ≤ f.tie (k * pow2 f.fractionBits + n) ∧
      (x = f.tie (k * pow2 f.fractionBits + n) → Even (k * pow2 f.fractionBits + n)) := by
  obtain ⟨hn, hk⟩ := hbinade.units hx
  rw [hf.even_iff]
  rcases hn.lt_or_eq with hlt | heq
  · rw [tie_eq hlt hk]
    exact ⟨hx.below, fun h => hx.even (.inr h)⟩
  · have htie := f.value_lt_tie (k * pow2 f.fractionBits + n)
    have hhigh := hbinade.high
    rw [value_eq hn hk, heq] at htie
    rw [heq]
    push_cast at htie
    exact ⟨by linarith, fun h => by linarith⟩

/-- The nearest number of units is taken, or infinity when the binade is beyond it. -/
theorem InBinade.takes : f.Takes x (min (k * pow2 f.fractionBits + n) f.infinity) := by
  rcases Nat.le_total (k * pow2 f.fractionBits + n) f.infinity with hle | hge
  · rw [Nat.min_eq_left hle]
    exact ⟨hle, fun q hq => hbinade.low_tie hf hx hq, fun _ => hbinade.high_tie hf hx⟩
  · rw [Nat.min_eq_right hge]
    refine ⟨le_rfl, fun q hq => ⟨?_, fun _ => hf.even_infinity⟩, fun h => absurd h (lt_irrefl _)⟩
    obtain ⟨r, hr⟩ : ∃ r, r + 1 = k * pow2 f.fractionBits + n := ⟨k * pow2 f.fractionBits + n - 1, by omega⟩
    exact (f.tie_strictMono.monotone (by omega)).trans (hbinade.low_tie hf hx hr).1

end

/-- `round` gives the pattern that takes the number. -/
theorem Proper.takes_round (hf : f.Proper) (significand : Nat) (exponent : Int) :
    f.Takes (significand * 2 ^ exponent) (f.round significand exponent) := by
  rw [round]
  split
  · next hzero =>
    rw [hzero, Nat.cast_zero, zero_mul]
    exact ⟨Nat.zero_le _, fun q hq => by omega,
      fun _ => ⟨(f.value_nonneg 0).trans (f.value_lt_tie 0).le, fun _ => Even.zero⟩⟩
  next hpos =>
  extract_lets length unit units
  obtain ⟨k, hk⟩ : ∃ k : Nat, f.leastExponent + k = unit := Int.le.dest (le_max_right _ _)
  have hscale : (0 : ℚ) < 2 ^ exponent := by positivity
  rw [show (unit - f.leastExponent).toNat = k by omega]
  refine InBinade.takes (k := k) hf ⟨?low, ?high⟩ ?nearest
  case nearest =>
    rw [hk]
    simp only [units]
    split
    · next hle =>
      have hshift : (2 : ℚ) ^ exponent = pow2 (exponent - unit).toNat * 2 ^ unit := by
        rw [pow2_mul_zpow]
        congr 1
        omega
      rw [hshift, ← mul_assoc, ← Nat.cast_mul]
      exact Nearest.exact _ (by positivity)
    · next hgt =>
      have hshift : (2 : ℚ) ^ unit = 2 ^ (unit - exponent).toNat * 2 ^ exponent := by
        rw [← zpow_natCast, ← zpow_add₀ (by norm_num)]
        congr 1
        omega
      rw [hshift]
      exact (nearest_roundShift _ _).scale hscale
  case low =>
    refine (Nat.eq_zero_or_pos k).imp_right fun hfar => ?_
    -- The significand has all the bits that the format has room for.
    have hunit : f.fractionBits + unit = significand.log2 + exponent := by omega
    rw [hk, pow2_mul_zpow, hunit, ← pow2_mul_zpow]
    exact mul_le_mul_of_nonneg_right (by exact_mod_cast Nat.log2_self_le hpos) hscale.le
  case high =>
    have hunit : (significand.log2 + 1 : Nat) + exponent ≤ (f.fractionBits + 1 : Nat) + unit := by
      push_cast
      omega
    have hlt : significand ≤ pow2 (significand.log2 + 1) := Nat.lt_log2_self.le
    calc significand * (2 : ℚ) ^ exponent
        ≤ pow2 (significand.log2 + 1) * 2 ^ exponent :=
          mul_le_mul_of_nonneg_right (by exact_mod_cast hlt) hscale.le
      _ = 2 ^ ((significand.log2 + 1 : Nat) + exponent) := pow2_mul_zpow _ _
      _ ≤ 2 ^ ((f.fractionBits + 1 : Nat) + unit) := zpow_le_zpow_right₀ (by norm_num) hunit
      _ = 2 * pow2 f.fractionBits * 2 ^ (f.leastExponent + k) := by
        rw [← pow2_mul_zpow, pow2_succ, hk]
        push_cast
        rfl

/-! ## Nearest among all numbers -/

/-- The number with a sign and a magnitude. -/
def signed (negative : Bool) (x : ℚ) : ℚ := if negative then -x else x

def Represents (f : FloatFormat) (y : ℚ) : Prop :=
  ∃ pattern negative s e, f.decode pattern = .finite negative s e ∧ y = signed negative (s * 2 ^ e)

/-- What a number, given by its sign and its magnitude, is rounded to: the infinity of its sign from the least
number that overflows on, else a number of the format that none is nearer than, with its sign, and with an
even significand if another one is equally near. -/
structure Rounds (f : FloatFormat) (negative : Bool) (x : ℚ) (pattern : Nat) : Prop where
  lt : pattern < 2 * f.signBit
  infinite : f.overflow ≤ x → f.decode pattern = .infinite negative
  finite : x < f.overflow → ∃ s e, f.decode pattern = .finite negative s e ∧
    ∀ y, f.Represents y →
      |signed negative x - signed negative (s * 2 ^ e)| ≤ |signed negative x - y| ∧
      (|signed negative x - signed negative (s * 2 ^ e)| = |signed negative x - y| →
        y ≠ signed negative (s * 2 ^ e) → Even s)

theorem abs_signed_sub (negative : Bool) (x y : ℚ) : |signed negative x - signed negative y| = |x - y| := by
  cases negative with
  | false => rfl
  | true =>
    simp only [signed, if_true]
    rw [← abs_neg]
    congr 1
    ring

theorem signed_not (negative : Bool) (x : ℚ) : signed (!negative) x = signed negative (-x) := by
  cases negative <;> simp [signed]

theorem signed_inj {negative : Bool} {x y : ℚ} : signed negative x = signed negative y ↔ x = y := by
  cases negative <;> simp [signed]

/-- Of two numbers the lower one is nearer up to the middle. -/
theorem abs_sub_le_iff_le_middle {a b : ℚ} (h : a < b) : |x - a| ≤ |x - b| ↔ x ≤ (a + b) / 2 := by
  constructor
  · intro hle
    by_contra hgt
    have hlt : |x - b| < x - a := abs_lt.2 ⟨by linarith, by linarith⟩
    exact absurd (hle.trans_lt hlt) (le_abs_self _).not_gt
  · intro hle
    have hbelow : b - x ≤ |x - b| := by
      rw [abs_sub_comm]
      exact le_abs_self _
    exact (abs_le.2 ⟨by linarith, by linarith⟩).trans hbelow

/-- And the upper one is nearer from the middle on. -/
theorem abs_sub_le_iff_middle_le {a b : ℚ} (h : a < b) : |x - b| ≤ |x - a| ↔ (a + b) / 2 ≤ x := by
  have hmirror := abs_sub_le_iff_le_middle (x := -x) (neg_lt_neg h)
  rw [← abs_neg, ← abs_neg (-x - -a)] at hmirror
  ring_nf at hmirror ⊢
  rw [hmirror]
  constructor <;> intro hle <;> linarith

/-- The pattern that takes a number is nearest to it among all patterns. -/
theorem Takes.nearest (h : f.Takes x p) (hp : p < f.infinity) (q : Nat) :
    |x - f.value p| ≤ |x - f.value q| ∧
      (|x - f.value p| = |x - f.value q| → f.value q ≠ f.value p → Even p) := by
  rcases Nat.lt_trichotomy p q with hlt | rfl | hgt
  · have hstep : f.value (p + 1) ≤ f.value q := f.value_strictMono.monotone hlt
    have hpq := f.value_strictMono hlt
    obtain ⟨hhigh, heven⟩ := h.high hp
    rw [tie] at hhigh heven
    refine ⟨(abs_sub_le_iff_le_middle hpq).2 (by linarith), fun heq _ => heven ?_⟩
    have hle := (abs_sub_le_iff_middle_le hpq).1 heq.ge
    linarith
  · exact ⟨le_rfl, fun _ hne => absurd rfl hne⟩
  · obtain ⟨r, rfl⟩ : ∃ r, p = r + 1 := ⟨p - 1, by omega⟩
    have hstep : f.value q ≤ f.value r := f.value_strictMono.monotone (Nat.lt_succ_iff.1 hgt)
    have hpq := f.value_strictMono hgt
    obtain ⟨hlow, heven⟩ := h.low r rfl
    rw [tie] at hlow heven
    refine ⟨(abs_sub_le_iff_middle_le hpq).2 (by linarith), fun heq _ => heven ?_⟩
    have hle := (abs_sub_le_iff_le_middle hpq).1 heq.ge
    linarith

/-- A number of the format that is no less stays no less. -/
theorem Takes.value_le (h : f.Takes x p) (hx : x ≤ f.value q) : f.value p ≤ f.value q := by
  refine f.value_strictMono.monotone (Nat.le_of_not_lt fun hlt => ?_)
  obtain ⟨r, rfl⟩ : ∃ r, p = r + 1 := ⟨p - 1, by omega⟩
  have hstep : f.value q ≤ f.value r := f.value_strictMono.monotone (Nat.lt_succ_iff.1 hlt)
  have htie := f.value_lt_tie r
  have hlow := (h.low r rfl).1
  linarith

/-- A number of the format that is no greater stays no greater. -/
theorem Takes.le_value (h : f.Takes x p) (hq : q ≤ f.infinity) (hx : f.value q ≤ x) :
    f.value q ≤ f.value p := by
  refine f.value_strictMono.monotone (Nat.le_of_not_lt fun hlt => ?_)
  have hstep : f.value (p + 1) ≤ f.value q := f.value_strictMono.monotone hlt
  have htie := f.tie_lt_value p
  have hhigh := (h.high (hlt.trans_le hq)).1
  linarith

/-! ## Patterns with a sign -/

/-- The pattern of a sign and a pattern without one. -/
def withSign (f : FloatFormat) (negative : Bool) (p : Nat) : Nat := (if negative then f.signBit else 0) + p

theorem signBit_eq (f : FloatFormat) : f.signBit = pow2 f.fractionBits * pow2 f.exponentBits := by
  rw [signBit, Nat.add_comm, pow2_add]

theorem infinity_lt_signBit (f : FloatFormat) : f.infinity < f.signBit := by
  have hpos := pow2_pos f.exponentBits
  rw [signBit_eq, infinity, maxField, Nat.mul_comm]
  exact (Nat.mul_lt_mul_left (pow2_pos _)).2 (by omega)

/-- What a pattern stands for is told by its place below, at or above infinity. -/
theorem decode_eq (f : FloatFormat) (pattern : Nat) :
    f.decode pattern =
      if pattern % f.signBit < f.infinity then
        .finite (decide (pattern / f.signBit % 2 = 1)) (f.significand (pattern % f.signBit))
          (f.unit (pattern % f.signBit))
      else if pattern % f.signBit = f.infinity then .infinite (decide (pattern / f.signBit % 2 = 1))
      else .nan (decide (pattern / f.signBit % 2 = 1)) (pattern % f.signBit % pow2 f.fractionBits) := by
  have hpos := pow2_pos f.fractionBits
  have hlt : pattern % f.signBit < f.signBit := Nat.mod_lt _ (Nat.zero_lt_of_lt f.infinity_lt_signBit)
  have hfield : pattern / pow2 f.fractionBits % pow2 f.exponentBits =
      pattern % f.signBit / pow2 f.fractionBits := by
    rw [signBit_eq, Nat.mod_mul_right_div_self]
  have hfraction : pattern % pow2 f.fractionBits = pattern % f.signBit % pow2 f.fractionBits := by
    rw [signBit_eq, Nat.mod_mul_right_mod]
  rw [decode, hfield, hfraction]
  generalize pattern % f.signBit = p at *
  have hdiv := Nat.div_add_mod' p (pow2 f.fractionBits)
  rcases Nat.lt_trichotomy (p / pow2 f.fractionBits) f.maxField with hbelow | heq | habove
  · have hfinite : p < f.infinity := (Nat.div_lt_iff_lt_mul hpos).1 hbelow
    rw [if_neg hbelow.ne, if_pos hfinite, significand, unit]
    split
    · next hzero =>
      rw [hzero]
      simp
    · next hone =>
      congr 2
      omega
  · have hinfinite : f.infinity + p % pow2 f.fractionBits = p := by rw [infinity, ← heq, hdiv]
    have hge : ¬p < f.infinity := by omega
    have hzero : p % pow2 f.fractionBits = 0 ↔ p = f.infinity := by omega
    simp only [if_pos heq, if_neg hge, hzero]
  · have hfull : p / pow2 f.fractionBits < pow2 f.exponentBits := by
      rw [Nat.div_lt_iff_lt_mul hpos, Nat.mul_comm, ← signBit_eq]
      exact hlt
    rw [maxField] at habove
    omega

section

variable {negative : Bool}

theorem withSign_mod (h : p < f.signBit) : f.withSign negative p % f.signBit = p := by
  cases negative <;> simp [withSign, Nat.mod_eq_of_lt h]

theorem withSign_div (h : p < f.signBit) :
    decide (f.withSign negative p / f.signBit % 2 = 1) = negative := by
  have hpos := Nat.zero_lt_of_lt h
  cases negative with
  | false => simp [withSign, Nat.div_eq_of_lt h]
  | true => simp [withSign, Nat.add_div_left _ hpos, Nat.div_eq_of_lt h]

theorem decode_withSign (negative : Bool) (h : p < f.infinity) :
    f.decode (f.withSign negative p) = .finite negative (f.significand p) (f.unit p) := by
  have hlt := h.trans f.infinity_lt_signBit
  rw [decode_eq, withSign_mod hlt, withSign_div hlt, if_pos h]

theorem decode_withSign_infinity (f : FloatFormat) (negative : Bool) :
    f.decode (f.withSign negative f.infinity) = .infinite negative := by
  have hlt := f.infinity_lt_signBit
  rw [decode_eq, withSign_mod hlt, withSign_div hlt, if_neg (lt_irrefl _), if_pos rfl]

theorem represents_value (negative : Bool) (h : p < f.infinity) : f.Represents (signed negative (f.value p)) :=
  ⟨_, _, _, _, decode_withSign negative h, rfl⟩

/-- Every number of the format is that of a pattern, up to the sign. -/
theorem Represents.exists_value {y : ℚ} (h : f.Represents y) (negative : Bool) :
    ∃ q, y = signed negative (f.value q) ∨ y = signed negative (-f.value q) := by
  obtain ⟨pattern, sign, s, e, hdecode, rfl⟩ := h
  rw [decode_eq] at hdecode
  split at hdecode
  · injection hdecode with _ hs he
    refine ⟨pattern % f.signBit, ?_⟩
    rw [value, hs, he, ← signed_not]
    cases sign <;> cases negative <;> simp
  · split at hdecode <;> cases hdecode

/-- The pattern that takes a number is what the number rounds to. -/
theorem Proper.rounds_of_takes (hf : f.Proper) (h : f.Takes x p) (hx : 0 ≤ x) :
    f.Rounds negative x (f.withSign negative p) where
  lt := by
    have hlt := h.le.trans_lt f.infinity_lt_signBit
    rw [withSign]
    split <;> omega
  infinite hover := by
    -- The last finite pattern is odd, so it does not take the tie above it.
    have heq : p = f.infinity := by
      by_contra hne
      have hp := h.le.lt_of_ne hne
      obtain ⟨hhigh, heven⟩ := h.high hp
      have hlast : p = f.infinity - 1 := by
        have hle := f.tie_strictMono.le_iff_le.1 (hover.trans hhigh)
        omega
      have hodd : Odd p := by
        have hinfinity := hf.even_infinity
        rw [show f.infinity = p + 1 by omega] at hinfinity
        exact Nat.not_even_iff_odd.1 (Nat.even_add_one.1 hinfinity)
      rw [hlast] at hhigh heven hodd
      exact Nat.not_even_iff_odd.2 hodd (heven (hhigh.antisymm hover))
    rw [heq]
    exact f.decode_withSign_infinity negative
  finite hlt := by
    have hp : p < f.infinity := by
      refine h.le.lt_of_ne fun heq => ?_
      have hlow := (h.low (f.infinity - 1) (by have := hf.infinity_pos; omega)).1
      exact absurd (hlow.trans_lt hlt) (lt_irrefl _)
    refine ⟨_, _, decode_withSign negative hp, fun y hy => ?_⟩
    rw [show f.significand p * (2 : ℚ) ^ f.unit p = f.value p from rfl]
    obtain ⟨q, rfl | rfl⟩ := hy.exists_value negative
    · rw [abs_signed_sub, abs_signed_sub, hf.even_significand, Ne, signed_inj]
      exact h.nearest hp q
    -- A number of the other sign is no nearer than zero is.
    · rw [abs_signed_sub, abs_signed_sub, hf.even_significand, Ne, signed_inj]
      obtain ⟨hnear, heven⟩ := h.nearest hp 0
      have hzero : f.value 0 = 0 := by simp [value, significand]
      have hq := f.value_nonneg q
      have hfar : |x - -f.value q| = x + f.value q := by rw [sub_neg_eq_add, abs_of_nonneg (by linarith)]
      rw [hzero, sub_zero, abs_of_nonneg hx] at hnear heven
      rw [hfar]
      refine ⟨by linarith, fun heq hne => heven (by linarith) fun hsame => hne ?_⟩
      linarith

/-- What a number rounds to is the pattern that takes it. -/
theorem Proper.takes_of_rounds (hf : f.Proper) (hp : p ≤ f.infinity)
    (h : f.Rounds negative x (f.withSign negative p)) : f.Takes x p := by
  rcases hp.lt_or_eq with hlt | rfl
  · have hdecode := decode_withSign negative hlt
    have hx : x < f.overflow := by
      by_contra hover
      have hinfinite := h.infinite (not_lt.1 hover)
      rw [hdecode] at hinfinite
      cases hinfinite
    obtain ⟨s, e, hfinite, hnear⟩ := h.finite hx
    rw [hdecode] at hfinite
    injection hfinite with _ hs he
    subst hs he
    -- Each neighbour is one of the numbers that it is no farther than.
    have hneighbour : ∀ q, q < f.infinity → |x - f.value p| ≤ |x - f.value q| ∧
        (|x - f.value p| = |x - f.value q| → f.value q ≠ f.value p → Even p) := by
      intro q hq
      have hfound := hnear _ (represents_value negative hq)
      rw [abs_signed_sub, abs_signed_sub, hf.even_significand, Ne, signed_inj] at hfound
      exact hfound
    refine ⟨hp, fun q hq => ?_, fun _ => ?_⟩
    · subst hq
      have hstep := f.value_strictMono (Nat.lt_succ_self q)
      obtain ⟨hle, heven⟩ := hneighbour q (Nat.lt_of_succ_lt hlt)
      refine ⟨(abs_sub_le_iff_middle_le hstep).1 hle, fun htie => heven ?_ hstep.ne⟩
      exact hle.antisymm ((abs_sub_le_iff_le_middle hstep).2 htie.ge)
    · rcases Nat.lt_or_ge (p + 1) f.infinity with hnext | hlast
      · have hstep := f.value_strictMono (Nat.lt_succ_self p)
        obtain ⟨hle, heven⟩ := hneighbour (p + 1) hnext
        refine ⟨(abs_sub_le_iff_le_middle hstep).1 hle, fun htie => heven ?_ hstep.ne'⟩
        exact hle.antisymm ((abs_sub_le_iff_middle_le hstep).2 htie.ge)
      · rw [overflow, show f.infinity - 1 = p by omega] at hx
        exact ⟨hx.le, fun htie => absurd htie hx.ne⟩
  · have hover : f.overflow ≤ x := by
      by_contra hlt
      obtain ⟨s, e, hfinite, -⟩ := h.finite (not_le.1 hlt)
      rw [decode_withSign_infinity] at hfinite
      cases hfinite
    refine ⟨le_rfl, fun q hq => ⟨?_, fun _ => hf.even_infinity⟩, fun hlt => absurd hlt (lt_irrefl _)⟩
    rw [overflow, show f.infinity - 1 = q by omega] at hover
    exact hover

/-- To be what a number rounds to is to take it. -/
theorem Proper.rounds_iff_takes (hf : f.Proper) (hx : 0 ≤ x) (hp : p ≤ f.infinity) :
    f.Rounds negative x (f.withSign negative p) ↔ f.Takes x p :=
  ⟨hf.takes_of_rounds hp, fun h => hf.rounds_of_takes h hx⟩

/-- `encode` gives what the number rounds to. -/
theorem Proper.rounds_encode (hf : f.Proper) (fractionBits significand : Nat) (exponent : Int) :
    f.Rounds negative (significand * 2 ^ exponent)
      (f.encode fractionBits (.finite negative significand exponent)) :=
  hf.rounds_of_takes (hf.takes_round significand exponent) (by positivity)

end

end FloatFormat

end BinaryLayout
