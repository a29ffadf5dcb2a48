import BinaryLayout.FloatingPoint.Double
import BinaryLayout.Proofs.FloatingPoint.Rounding
import Mathlib.Data.Rat.Floor

/-!
# Numbers in half precision

A double goes to half precision by way of single precision, and of a single-precision number only 37 binary
places are looked at. Each step is rounded or cut at a place where the ties of half precision are kept: a
number never comes to the other side of one. But it can come to lie on one, and then the tie is decided for
the number that is seen and not for the one that was given. That is the only way in which the result is not
the nearest number.

## Main definitions

* `FloatFormat.Misled`: a stand-in on a tie, with the number on the side that the tie does not go to.
* `Double.seen`: what the rounding to half precision sees of a number.

## Main statements

* `FloatFormat.takes_iff_not_misled`: rounding a stand-in that stays on its side of every tie.
* `Double.takes_halfOfSingle`: the rounding of what is seen.
* `Double.rounds_toHalf_iff`: when a double is rounded to the nearest half-precision number.
* `Double.not_rounds_toHalf`: it is not always.
-/

namespace BinaryLayout

/-! ## Rounding a stand-in -/

namespace FloatFormat

variable {f : FloatFormat} {p q : Nat} {x y : ℚ}

/-- `y` lies on the same side of every tie as `x`, or on the tie. -/
def Coarsens (f : FloatFormat) (x y : ℚ) : Prop :=
  ∀ q, q < f.infinity → (f.tie q ≤ x → f.tie q ≤ y) ∧ (x ≤ f.tie q → y ≤ f.tie q)

/-- `y` lies on a tie, which goes to its even neighbour, and `x` is nearer to the odd one. -/
def Misled (f : FloatFormat) (x y : ℚ) : Prop :=
  ∃ q, q < f.infinity ∧ y = f.tie q ∧ (Even q ∧ f.tie q < x ∨ Odd q ∧ x < f.tie q)

/-- A tie is taken by its even neighbour. -/
theorem Takes.eq_of_tie (h : f.Takes (f.tie q) p) (hq : q < f.infinity) :
    (Even q → p = q) ∧ (Odd q → p = q + 1) := by
  have hge : q ≤ p := Nat.le_of_not_lt fun hlt =>
    absurd (h.high (hlt.trans hq)).1 (f.tie_strictMono hlt).not_ge
  have hle : p ≤ q + 1 := Nat.le_of_not_lt fun hlt => by
    obtain ⟨r, rfl⟩ : ∃ r, p = r + 1 := ⟨p - 1, by omega⟩
    have hrq := f.tie_strictMono.le_iff_le.1 (h.low r rfl).1
    omega
  rcases hge.eq_or_lt with rfl | hlt
  · exact ⟨fun _ => rfl, fun hodd => absurd ((h.high hq).2 rfl) (Nat.not_even_iff_odd.2 hodd)⟩
  · obtain rfl : p = q + 1 := by omega
    exact ⟨fun heven => absurd heven (Nat.even_add_one.1 ((h.low q rfl).2 rfl)), fun _ => rfl⟩

/-- The pattern that takes a misleading stand-in is on the wrong side of the tie. -/
theorem Misled.not_takes (hmisled : f.Misled x y) (hy : f.Takes y p) : ¬f.Takes x p := by
  intro hx
  obtain ⟨q, hq, rfl, ⟨heven, hlt⟩ | ⟨hodd, hlt⟩⟩ := hmisled
  · obtain rfl := (hy.eq_of_tie hq).1 heven
    exact absurd hlt (hx.high hq).1.not_gt
  · obtain rfl := (hy.eq_of_tie hq).2 hodd
    exact absurd hlt (hx.low q rfl).1.not_gt

/-- The pattern that takes the stand-in takes the number itself unless the stand-in is misleading. -/
theorem takes_iff_not_misled (h : f.Takes y p) (hxy : f.Coarsens x y) : f.Takes x p ↔ ¬f.Misled x y := by
  refine ⟨fun hx hmisled => hmisled.not_takes h hx, fun hclear => ⟨h.le, fun q hq => ?_, fun hp => ?_⟩⟩
  · obtain ⟨hlow, htie⟩ := h.low q hq
    have hle := h.le
    have hqi : q < f.infinity := by omega
    have hleft : f.tie q ≤ x := by
      by_contra hgt
      have hon := ((hxy q hqi).2 (not_le.1 hgt).le).antisymm hlow
      have heven := htie hon.symm
      rw [← hq, Nat.even_add_one, Nat.not_even_iff_odd] at heven
      exact hclear ⟨q, hqi, hon, .inr ⟨heven, not_le.1 hgt⟩⟩
    exact ⟨hleft, fun heq => htie (hlow.antisymm ((hxy q hqi).2 heq.ge))⟩
  · obtain ⟨hhigh, htie⟩ := h.high hp
    have hright : x ≤ f.tie p := by
      by_contra hgt
      have hon := hhigh.antisymm ((hxy p hp).1 (not_le.1 hgt).le)
      exact hclear ⟨p, hp, hon, .inl ⟨htie hon, not_le.1 hgt⟩⟩
    exact ⟨hright, fun heq => htie (hhigh.antisymm ((hxy p hp).1 heq.ge))⟩

/-! ## The formats -/

theorem leastExponent_half : half.leastExponent = -24 := rfl

theorem leastExponent_single : single.leastExponent = -149 := rfl

/-- The least number that overflows in half precision. -/
theorem overflow_half : half.overflow = 65520 := by
  have hlast : half.infinity - 1 = 29 * pow2 half.fractionBits + 2047 := by decide +kernel
  rw [overflow, hlast, tie_eq (by decide +kernel) (.inr (by decide +kernel)), leastExponent_half]
  norm_num

end FloatFormat

namespace Double

open FloatFormat

variable {x : Double} {negative : Bool} {p q k m c : Nat} {v : ℚ}

/-! ## Cutting -/

/-- A magnitude without what comes after 37 binary places. -/
def cut (v : ℚ) : ℚ := ⌊v * 2 ^ 37⌋ / 2 ^ 37

theorem cut_le (v : ℚ) : cut v ≤ v := by
  rw [cut, div_le_iff₀ (by positivity)]
  exact Int.floor_le _

/-- Cutting does not pass a number of so many places. -/
theorem le_cut {m : Int} (h : m / 2 ^ 37 ≤ v) : m / 2 ^ 37 ≤ cut v := by
  rw [cut]
  rw [div_le_iff₀ (by positivity)] at h
  gcongr
  exact_mod_cast Int.le_floor.2 h

theorem cut_div (m d : Nat) : cut (m / d / 2 ^ 37) = (m / d : Nat) / 2 ^ 37 := by
  rw [cut, div_mul_cancel₀ _ (by positivity), Rat.floor_natCast_div_natCast, ← Int.natCast_div,
    Int.cast_natCast]

theorem cut_natCast (m : Nat) : cut (m / 2 ^ 37) = m / 2 ^ 37 := by
  simpa using cut_div m 1

/-- What the rounding to half precision sees of a number's magnitude. -/
def seen (x : Double) : ℚ := cut (single.value (x.toSingle % single.signBit))

/-! ## The rounding of what is seen -/

/-- The sign goes its own way. -/
theorem halfOfSingle_withSign (hc : c < single.signBit) :
    halfOfSingle (single.withSign negative c) = half.withSign negative (halfOfSingle c) := by
  have hsingle : single.signBit = 2147483648 := rfl
  have hhalf : half.signBit = 32768 := rfl
  rw [hsingle] at hc
  cases negative with
  | false => simp [withSign]
  | true =>
    have hsign : (2147483648 + c) / pow2 31 % 2 = 1 := by
      rw [show pow2 31 = 2147483648 from rfl]
      omega
    have hnone : c / pow2 31 % 2 = 0 := by
      rw [show pow2 31 = 2147483648 from rfl]
      omega
    have hfield : (2147483648 + c) / pow2 23 % pow2 8 = c / pow2 23 % pow2 8 := by
      rw [show pow2 23 = 8388608 from rfl, show pow2 8 = 256 from rfl]
      omega
    have hfraction : (2147483648 + c) % pow2 23 = c % pow2 23 := by
      rw [show pow2 23 = 8388608 from rfl]
      omega
    have hplace : pow2 15 = 32768 := rfl
    simp only [halfOfSingle, withSign, hsingle, hhalf, hsign, hnone, hfield, hfraction, hplace, if_true]
    split_ifs <;> omega

/-- A significand of 24 bits is rounded to eleven. -/
theorem takes_roundShift (hk : k ≤ 29) (hlow : k = 0 ∨ pow2 23 ≤ m) (hm : m ≤ pow2 24) :
    half.Takes (m * 2 ^ (-37 + k : Int)) (k * pow2 10 + roundShift m 13) := by
  have hscale : (0 : ℚ) < 2 ^ (-37 + k : Int) := by positivity
  have hunit : (2 : ℚ) ^ (half.leastExponent + k) = 2 ^ 13 * 2 ^ (-37 + k : Int) := by
    rw [leastExponent_half, ← zpow_natCast, ← zpow_add₀ (by norm_num)]
    congr 1
    push_cast
    ring
  have hfraction : (pow2 half.fractionBits : ℚ) = 2 ^ 10 := by
    rw [pow2_eq]
    push_cast
    rfl
  have hnear : Nearest (m * 2 ^ (-37 + k : Int)) (2 ^ (half.leastExponent + k)) (roundShift m 13) := by
    rw [hunit]
    exact (nearest_roundShift m 13).scale hscale
  have htakes := InBinade.takes proper_half ⟨?low, ?high⟩ hnear
  case low =>
    refine hlow.imp_right fun hlow => ?_
    have hlow : (2 ^ 10 * 2 ^ 13 : ℚ) ≤ m := by exact_mod_cast hlow
    rw [hunit, hfraction, ← mul_assoc]
    exact mul_le_mul_of_nonneg_right hlow hscale.le
  case high =>
    have hhigh : (m : ℚ) ≤ 2 * 2 ^ 10 * 2 ^ 13 := by exact_mod_cast hm
    rw [hunit, hfraction, ← mul_assoc]
    exact mul_le_mul_of_nonneg_right hhigh hscale.le
  have hn : roundShift m 13 ≤ 2048 := by
    refine (nearest_roundShift m 13).le (by positivity) ?_
    exact_mod_cast hm
  have hfits : k * pow2 half.fractionBits + roundShift m 13 ≤ half.infinity := by
    rw [show half.infinity = 31744 from rfl, show pow2 half.fractionBits = 1024 from rfl]
    omega
  rwa [Nat.min_eq_left hfits] at htakes

/-- Infinity takes what is beyond the last power of two. -/
theorem takes_infinity (h : 65536 ≤ v) : half.Takes v half.infinity where
  le := le_rfl
  low q hq := by
    have hlast : half.tie q = 65520 := by
      rw [← overflow_half, overflow, ← hq]
      rfl
    rw [hlast]
    exact ⟨by linarith, fun heq => by linarith⟩
  high hlt := absurd hlt (lt_irrefl _)

/-- Zero takes what is less than half of the least positive number. -/
theorem takes_zero (h : v < 2 ^ (-25 : Int)) : half.Takes v 0 where
  le := Nat.zero_le _
  low q hq := by omega
  high _ := by
    have hfirst : half.tie 0 = 2 ^ (-25 : Int) := by
      have htie := tie_eq (f := half) (k := 0) (n := 0) (by decide) (.inl rfl)
      rw [leastExponent_half] at htie
      rw [show (0 : Nat) = 0 * pow2 half.fractionBits + 0 from rfl, htie]
      norm_num
    rw [hfirst]
    exact ⟨h.le, fun _ => Even.zero⟩

/-- A normal number in single precision. -/
theorem value_single {field fraction : Nat} (hfield : 0 < field) (hfraction : fraction < pow2 23) :
    single.value (field * pow2 23 + fraction) = (pow2 23 + fraction : Nat) * 2 ^ (field - 150 : Int) := by
  obtain ⟨k, rfl⟩ : ∃ k, field = k + 1 := ⟨field - 1, by omega⟩
  have hvalue := value_eq (f := single) (k := k) (n := pow2 23 + fraction)
    (by change _ ≤ 2 * pow2 23; omega) (.inr (Nat.le_add_right _ _))
  rw [show (k + 1) * pow2 23 + fraction = k * pow2 single.fractionBits + (pow2 23 + fraction) by
    rw [show pow2 single.fractionBits = pow2 23 from rfl]; ring, hvalue, leastExponent_single]
  congr 2
  push_cast
  ring

/-- Of a number below the normal ones the shifted significand is seen. -/
theorem cut_value_of_subnormal {field fraction : Nat} (hfield : 0 < field) (hlow : field ≤ 113)
    (hfraction : fraction < pow2 23) :
    cut (single.value (field * pow2 23 + fraction)) =
      ((pow2 23 + fraction) / pow2 (113 - field) : Nat) * 2 ^ (-37 : Int) := by
  have hshift : (2 : ℚ) ^ (field - 150 : Int) = (pow2 (113 - field) : ℚ)⁻¹ * (2 ^ 37)⁻¹ := by
    rw [pow2_eq, ← mul_inv, Nat.cast_pow, Nat.cast_ofNat, ← pow_add, ← zpow_natCast, ← zpow_neg]
    congr 1
    omega
  rw [value_single hfield hfraction, hshift, ← mul_assoc, ← div_eq_mul_inv, ← div_eq_mul_inv, cut_div,
    div_eq_mul_inv]
  rfl

/-- A normal number is seen as it is. -/
theorem cut_value_of_normal {fraction : Nat} (hfraction : fraction < pow2 23) (k : Nat) :
    cut (single.value ((k + 113) * pow2 23 + fraction)) = (pow2 23 + fraction : Nat) * 2 ^ (-37 + k : Int) := by
  have hshift : (2 : ℚ) ^ ((k + 113 : Nat) - 150 : Int) = pow2 k / 2 ^ 37 := by
    rw [pow2_eq, div_eq_mul_inv, Nat.cast_pow, Nat.cast_ofNat, ← zpow_natCast, ← zpow_natCast, ← zpow_neg,
      ← zpow_add₀ (by norm_num)]
    congr 1
    push_cast
    ring
  rw [value_single (by omega) hfraction, hshift, ← mul_div_assoc, ← Nat.cast_mul, cut_natCast, Nat.cast_mul,
    mul_div_assoc, ← hshift]
  congr 2
  push_cast
  ring

theorem le_cut_value_of_large (hc : 143 * pow2 23 ≤ c) : 65536 ≤ cut (single.value c) := by
  have hle := single.value_strictMono.monotone hc
  rw [← Nat.add_zero (143 * _), value_single (by norm_num) (pow2_pos 23),
    show pow2 23 + 0 = 8388608 from rfl] at hle
  have hplaces : ((65536 * 2 ^ 37 : Int) : ℚ) / 2 ^ 37 = 65536 := by norm_num
  rw [← hplaces]
  refine le_cut (hplaces.trans_le (le_trans ?_ hle))
  norm_num

theorem value_lt_of_small (hc : c < 102 * pow2 23) : single.value c < 2 ^ (-25 : Int) := by
  have hlt := single.value_strictMono hc
  rw [← Nat.add_zero (102 * _), value_single (by norm_num) (pow2_pos 23),
    show pow2 23 + 0 = 8388608 from rfl] at hlt
  refine hlt.trans_le ?_
  norm_num

/-- Half precision takes what is seen of a number in single precision. -/
theorem takes_halfOfSingle (hc : c ≤ single.infinity) : half.Takes (cut (single.value c)) (halfOfSingle c) := by
  have hinfinity : single.infinity = 255 * pow2 23 := rfl
  have hdiv := Nat.div_add_mod' c (pow2 23)
  have hfraction := Nat.mod_lt c (pow2_pos 23)
  have hfield : c / pow2 23 ≤ 255 := Nat.div_le_of_le_mul (by rw [Nat.mul_comm, ← hinfinity]; exact hc)
  have hsign : c / pow2 31 % 2 = 0 := by
    rw [hinfinity, show pow2 23 = 8388608 from rfl] at hc
    rw [show pow2 31 = 2147483648 from rfl]
    omega
  have hmod : c / pow2 23 % pow2 8 = c / pow2 23 := Nat.mod_eq_of_lt (Nat.lt_succ_of_le hfield)
  rw [hinfinity] at hc
  rw [halfOfSingle, hsign, hmod]
  have hlarge : 143 ≤ c / pow2 23 → 143 * pow2 23 ≤ c := (Nat.le_div_iff_mul_le (pow2_pos 23)).1
  have hsmall : c / pow2 23 < 102 → c < 102 * pow2 23 := (Nat.div_lt_iff_lt_mul (pow2_pos 23)).1
  generalize c / pow2 23 = field at *
  generalize c % pow2 23 = fraction at *
  have hfits : pow2 23 + fraction ≤ pow2 24 := by
    rw [pow2_succ 23]
    omega
  simp only [Nat.zero_mul, Nat.zero_add]
  split_ifs with htop hzero hover hunder hlow
  · exact takes_infinity (le_cut_value_of_large (hlarge (by omega)))
  · subst htop
    omega
  · exact takes_infinity (le_cut_value_of_large (hlarge hover))
  · exact takes_zero ((cut_le _).trans_lt (value_lt_of_small (hsmall hunder)))
  · rw [← hdiv, cut_value_of_subnormal (by omega) (by omega) hfraction]
    have htakes := takes_roundShift (k := 0) (m := (pow2 23 + fraction) / pow2 (113 - field)) (by omega)
      (.inl rfl) ((Nat.div_le_self _ _).trans hfits)
    simpa using htakes
  · obtain ⟨k, rfl⟩ : ∃ k, field = k + 113 := ⟨field - 113, by omega⟩
    rw [← hdiv, cut_value_of_normal hfraction]
    have hsum : (k + 113 - 112) * pow2 23 + fraction = 2 * (k * pow2 9) * pow2 13 + (pow2 23 + fraction) := by
      rw [show pow2 23 = 8388608 from rfl, show pow2 13 = 8192 from rfl, show pow2 9 = 512 from rfl]
      omega
    rw [hsum, roundShift_add, show 2 * (k * pow2 9) = k * pow2 10 by rw [pow2_succ 9]; ring]
    exact takes_roundShift (by omega) (.inr (Nat.le_add_right _ _)) hfits

/-! ## Ties of half precision -/

/-- A tie of half precision is a number of single precision and has few enough binary places. -/
theorem tie_half (hq : q < half.infinity) :
    (∃ c, c ≤ single.infinity ∧ single.value c = half.tie q) ∧ ∃ m : Int, half.tie q = m / 2 ^ 37 := by
  have hsmall : half.tie q ≤ single.value single.infinity := by
    have hle : half.tie q ≤ half.overflow := half.tie_strictMono.monotone (by omega)
    rw [overflow_half] at hle
    rw [show single.infinity = 255 * pow2 23 + 0 from rfl, value_single (by norm_num) (pow2_pos 23),
      show pow2 23 + 0 = 8388608 from rfl]
    refine hle.trans ?_
    norm_num
  obtain ⟨k, n, rfl, hn, hk⟩ := half.exists_units q
  rw [tie_eq hn hk, leastExponent_half] at hsmall ⊢
  have hk29 : k ≤ 29 := by
    rw [show half.infinity = 31744 from rfl, show pow2 half.fractionBits = 1024 from rfl] at *
    omega
  have htie : ((n + 1 / 2) * 2 ^ (-24 + k : Int) : ℚ) = (2 * n + 1 : Nat) * 2 ^ (-25 + k : Int) := by
    rw [show (-24 + k : Int) = -25 + k + 1 by ring, zpow_add_one₀ (by norm_num)]
    push_cast
    ring
  rw [htie] at hsmall ⊢
  constructor
  · obtain ⟨c, hc⟩ := single.exists_value_eq (k + 124) (2 * n + 1) (by
      rw [show pow2 half.fractionBits = 1024 from rfl] at hn
      rw [show pow2 single.fractionBits = 8388608 from rfl]
      omega)
    rw [leastExponent_single, show (-149 + (k + 124 : Nat) : Int) = -25 + k by push_cast; ring] at hc
    exact ⟨c, single.value_strictMono.le_iff_le.1 (hc.trans_le hsmall), hc⟩
  · refine ⟨(2 * n + 1 : Nat) * 2 ^ (k + 12), ?_⟩
    rw [show (-25 + k : Int) = (k + 12 : Nat) - (37 : Nat) by push_cast; ring, zpow_sub₀ (by norm_num),
      zpow_natCast, zpow_natCast, ← mul_div_assoc]
    push_cast
    rfl

/-- What is seen of a number does not come to the other side of a tie. -/
theorem coarsens_seen (h : single.Takes v c) : half.Coarsens v (cut (single.value c)) := by
  intro q hq
  obtain ⟨⟨d, hd, hvalue⟩, m, hm⟩ := tie_half hq
  constructor
  · intro hle
    rw [← hvalue] at hle
    have hle := h.le_value hd hle
    rw [hvalue, hm] at hle
    rw [hm]
    exact le_cut hle
  · intro hle
    rw [← hvalue] at hle
    exact (cut_le _).trans (hvalue ▸ h.value_le hle)

/-- A finite double is rounded to single precision and from there to half precision. The first step gives the
nearest number, the second one the nearest to what is seen; both steps give the nearest to the double itself
unless what is seen misleads. -/
theorem rounds_toHalf_iff {s : Nat} {e : Int} (hx : x.datum = .finite negative s e) :
    single.Rounds negative (s * 2 ^ e) x.toSingle ∧ half.Rounds negative x.seen x.toHalf ∧
      half.overflow = 65520 ∧
      (half.Rounds negative (s * 2 ^ e) x.toHalf ↔ ¬half.Misled (s * 2 ^ e) x.seen) := by
  have hsingle : x.toSingle = single.withSign negative (single.round s e) := by
    rw [toSingle, convert, ← datum, hx]
    rfl
  have htakes := proper_single.takes_round s e
  have hlt := htakes.le.trans_lt single.infinity_lt_signBit
  have hseen : x.seen = cut (single.value (single.round s e)) := by rw [seen, hsingle, withSign_mod hlt]
  have hhalf : x.toHalf = half.withSign negative (halfOfSingle (single.round s e)) := by
    rw [toHalf, hsingle, halfOfSingle_withSign hlt]
  have hrounded := takes_halfOfSingle htakes.le
  rw [← hseen] at hrounded
  have hcoarse := coarsens_seen htakes
  rw [← hseen] at hcoarse
  have hnonneg : 0 ≤ x.seen := by
    rw [hseen]
    have h := le_cut (m := 0) (v := single.value (single.round s e)) (by simpa using single.value_nonneg _)
    simpa using h
  refine ⟨?_, ?_, overflow_half, ?_⟩
  · rw [toSingle, convert, ← datum, hx]
    exact proper_single.rounds_encode _ s e
  · rw [hhalf]
    exact proper_half.rounds_of_takes hrounded hnonneg
  · rw [hhalf, proper_half.rounds_iff_takes (by positivity) hrounded.le]
    exact takes_iff_not_misled hrounded hcoarse

/-- A tie between two numbers below the normal ones is seen as it is, so it goes to the even one. -/
theorem rounds_toHalf_of_tie :
    (ofPattern 0x3e78000000000000).datum = .finite false 6755399441055744 (-76) ∧
      half.Rounds false ((6755399441055744 : Nat) * 2 ^ (-76 : Int)) (ofPattern 0x3e78000000000000).toHalf := by
  have hdatum : (ofPattern 0x3e78000000000000).datum = .finite false 6755399441055744 (-76) := by decide +kernel
  refine ⟨hdatum, (rounds_toHalf_iff hdatum).2.2.2.2 ?_⟩
  have hsingle : (ofPattern 0x3e78000000000000).toSingle % single.signBit = 103 * pow2 23 + 4194304 := by
    decide +kernel
  have hseen : (ofPattern 0x3e78000000000000).seen = (6755399441055744 : Nat) * 2 ^ (-76 : Int) := by
    rw [seen, hsingle, cut_value_of_subnormal (by decide) (by decide) (by decide +kernel),
      show (pow2 23 + 4194304) / pow2 (113 - 103) = 12288 by decide +kernel]
    norm_num
  rw [hseen]
  rintro ⟨q, -, htie, ⟨-, hlt⟩ | ⟨-, hlt⟩⟩ <;> linarith

/-- A number just above the middle between zero and the least positive number is rounded to zero. -/
theorem not_rounds_toHalf :
    ¬∀ (x : Double) (negative : Bool) (s : Nat) (e : Int), x.datum = .finite negative s e →
      half.Rounds negative (s * 2 ^ e) x.toHalf := by
  intro hall
  have hrounds := hall (ofPattern 0x3e60000100000000) false 4503603922337792 (-77) (by decide +kernel)
  obtain ⟨s, e, hdecode, hnear⟩ := hrounds.finite (by rw [overflow_half]; norm_num)
  have hzero : half.decode (ofPattern 0x3e60000100000000).toHalf = .finite false 0 (-24) := by decide +kernel
  rw [hzero] at hdecode
  injection hdecode with _ hs he
  subst hs he
  have hleast : half.Represents (2 ^ (-24 : Int)) := ⟨1, false, 1, -24, by decide +kernel, by norm_num [signed]⟩
  have hle := (hnear _ hleast).1
  norm_num [signed, abs_le] at hle

end Double

end BinaryLayout
