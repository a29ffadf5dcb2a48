import BinaryLayout.Proofs.Codec.Integer
import BinaryLayout.Proofs.Pointers.Address

/-!
# Addresses counted from an offset

Every policy without a rule counts addresses from some offset: from the start of the source, from an
atom around the pointer or from the pointer itself. Sums are those of 128 bits, and a number of a stored
format fits into these unless it takes all 128 without a sign. Then the address is the exact sum, and the
way back from the address to the number is exact too.

## Main definitions

* `IntFormat.number`, `IntFormat.Fits`: the integer that stored bytes stand for.
* `AddressPolicy.CountsFrom`: the offset that addresses are counted from.

## Main statements

* `Env.address_eq_of_fits`: the address is the exact sum, or it is refused.
* `Env.wireFor_of_address`, `IntFormat.encode_read`: from an address back to the stored bytes.
-/

namespace BinaryLayout

variable {κ : Type}

/-! ## Stored integers -/

namespace IntFormat

/-- The integer that stored bytes stand for. -/
def number (t : IntFormat) (raw : Bytes) : Int :=
  if t.signed then Codec.readInt t.order raw else t.order.readNat raw

/-- The integer is one of 128 bits in two's complement. -/
def Fits (t : IntFormat) (raw : Bytes) : Prop := -(pow2 127 : Int) ≤ t.number raw ∧ t.number raw < pow2 127

instance (t : IntFormat) (raw : Bytes) : Decidable (t.Fits raw) := by
  unfold Fits
  infer_instance

variable {t : IntFormat} {raw : Bytes}

/-- What is read lies in the range of 128 bits. -/
theorem read_range (h : raw.length = t.width) : -(pow2 127 : Int) ≤ t.read raw ∧ t.read raw < pow2 127 := by
  obtain ⟨hpos, hle⟩ := t.width_mem
  rw [read]
  split
  · have hrange := bmod_range (show 0 < 8 * t.width by omega) (t.order.readNat raw)
    have hwide : pow2 (8 * t.width - 1) ≤ pow2 127 := pow2_le_pow2 (by omega)
    rw [Codec.readInt, h, signExtend_eq (by omega) (by omega)]
    omega
  · exact bmod_range (show 0 < 128 by omega) (t.order.readNat raw)

/-- Integers without a sign are not negative. -/
theorem number_nonneg (hsigned : t.signed = false) : 0 ≤ t.number raw := by
  rw [number, if_neg (by simp [hsigned])]
  exact Int.natCast_nonneg _

/-- What is read is the integer itself, if this fits. -/
theorem read_of_fits (hfits : t.Fits raw) : t.read raw = t.number raw := by
  cases hsigned : t.signed with
  | true => rw [read, number, if_pos hsigned, if_pos hsigned]
  | false =>
    have hnonneg : 0 ≤ t.number raw := number_nonneg hsigned
    obtain ⟨-, hhigh⟩ := hfits
    rw [number, if_neg (by simp [hsigned])] at hhigh hnonneg ⊢
    rw [read, if_neg (by simp [hsigned])]
    exact bmod_of_range (by omega) hhigh

/-- Only integers without a sign may fail to fit. -/
theorem fits_of_signed (hsigned : t.signed = true) (h : raw.length = t.width) : t.Fits raw := by
  have hrange := read_range h
  rw [read, if_pos hsigned] at hrange
  rw [Fits, number, if_pos hsigned]
  exact hrange

/-- Integers of fewer than sixteen bytes fit. -/
theorem fits_of_width (hwidth : t.width < 16) (h : raw.length = t.width) : t.Fits raw := by
  cases hsigned : t.signed with
  | true => exact fits_of_signed hsigned h
  | false =>
    have hlt := t.order.readNat_lt h
    have hle : pow2 (8 * t.width) ≤ pow2 127 := pow2_le_pow2 (by omega)
    rw [Fits, number, if_neg (by simp [hsigned])]
    omega

/-- What was read is stored as the bytes that it was read from. -/
theorem encode_read (h : raw.length = t.width) (hfits : t.Fits raw) :
    t.encode (.signed (t.read raw)) = .ok raw := by
  cases hsigned : t.signed with
  | true =>
    have hvalue := t.encode_toValue h
    rwa [toValue, if_pos hsigned] at hvalue
  | false =>
    have hwrite := Codec.writeNat_readNat t.order h
    rw [Codec.writeNat] at hwrite
    rw [read_of_fits hfits, number, if_neg (by simp [hsigned]), encode, write, hsigned]
    exact hwrite

end IntFormat

/-! ## Addresses -/

/-- Addresses at the place are counted from the offset `start`. -/
inductive AddressPolicy.CountsFrom (p : Place κ) : AddressPolicy κ → Nat → Prop
  | absolute : CountsFrom p .absolute 0
  | relative {base : Base} {start : Nat} (h : base.offset p = .ok start) : CountsFrom p (.relative base) start
  | selfRelative : CountsFrom p .selfRelative p.atom.info.offset

namespace AddressPolicy.CountsFrom

variable {p : Place κ} {policy : AddressPolicy κ} {start : Nat}

/-- Where the pointer and the atoms around it stand at offsets of 64 bits, so does the start. -/
theorem lt_of_words (h : policy.CountsFrom p start) (hwords : ∀ info ∈ p.sites, info.offset < pow2 64) :
    start < pow2 64 := by
  have hbyte {a : Atom κ} (ha : a.info.site ∈ p.sites) : a.byteOffset < pow2 64 := by
    have hoffset : a.info.offset < pow2 64 := hwords a.info.site ha
    rw [Atom.byteOffset]
    split <;> omega
  cases h with
  | absolute => exact pow2_pos 64
  | selfRelative => exact hwords p.atom.info.site List.mem_cons_self
  | @relative base _ h =>
    cases base with
    | root =>
      cases h
      exact hwords p.root.atom.info.site (List.mem_of_getLast? p.getLast?_sites)
    | parent =>
      obtain ⟨a, frames⟩ := p
      cases frames with
      | nil => cases h
      | cons f frames =>
        cases h
        exact hbyte (List.mem_cons_of_mem _ List.mem_cons_self)
    | ancestor name =>
      rw [Base.offset] at h
      split at h
      · rename_i outer houter
        cases h
        have hsites := p.sites_ancestorNamed? name
        rw [houter, Option.map_some] at hsites
        exact hbyte (List.mem_cons_of_mem _ (List.mem_of_find?_eq_some hsites.symm))
      · cases h

end AddressPolicy.CountsFrom

/-- A number that means an address is counted from some offset, if no rule decides the address. -/
theorem Env.countsFrom_of_address {env : Env κ} {policy : AddressPolicy κ} {p : Place κ} {wire : Int}
    {address : Nat} (hplain : policy.isPlain = true) (h : env.address policy p wire = .ok address) :
    ∃ start, policy.CountsFrom p start := by
  cases policy with
  | absolute => exact ⟨0, .absolute⟩
  | relative base =>
    rw [Env.address] at h
    cases hstart : base.offset p with
    | error e =>
      rw [hstart] at h
      cases h
    | ok start => exact ⟨start, .relative hstart⟩
  | selfRelative => exact ⟨_, .selfRelative⟩
  | mapped => cases hplain
  | computed => cases hplain

/-- Addresses are the words of 64 bits. -/
theorem checkAddress_ok_iff {address : Int} {n : Nat} :
    checkAddress address = .ok n ↔ address = n ∧ n < pow2 64 := by
  constructor
  · intro h
    rw [checkAddress] at h
    cases hword : address.toNat?.bind word? with
    | none =>
      rw [hword] at h
      cases h
    | some m =>
      rw [hword] at h
      cases h
      obtain ⟨k, hk, hm⟩ := Option.bind_eq_some_iff.1 hword
      rw [word?] at hm
      split at hm
      · rename_i hlt
        cases hm
        exact ⟨(Int.mem_toNat?.1 hk), hlt⟩
      · cases hm
  · rintro ⟨rfl, hword⟩
    exact checkAddress_of_word hword

/-- Everything else is refused. -/
theorem checkAddress_of_outside {address : Int} (h : ¬ (0 ≤ address ∧ address < pow2 64)) :
    checkAddress address = .error (.initialization (.addressOutOfRange address)) := by
  cases hcheck : checkAddress address with
  | ok n =>
    obtain ⟨rfl, hword⟩ := checkAddress_ok_iff.1 hcheck
    exact absurd ⟨Int.natCast_nonneg n, by omega⟩ h
  | error e =>
    rw [checkAddress] at hcheck
    split at hcheck
    · cases hcheck
    · exact hcheck.symm

namespace Env

variable {env : Env κ} {policy : AddressPolicy κ} {p : Place κ} {start : Nat} {wire : Int}

/-- The address is the sum of 128 bits. -/
theorem address_of_countsFrom (h : policy.CountsFrom p start) (hlow : -(pow2 127 : Int) ≤ wire)
    (hhigh : wire < pow2 127) : env.address policy p wire = checkAddress (addWide start wire) := by
  cases h with
  | absolute =>
    have hsame : addWide (0 : Nat) wire = wire := by
      rw [addWide, Int.natCast_zero, Int.zero_add]
      exact bmod_of_range hlow hhigh
    rw [hsame]
    rfl
  | relative hstart =>
    rw [address, hstart]
    rfl
  | selfRelative => rfl

theorem wireFor_of_countsFrom (h : policy.CountsFrom p start) (address : Nat) :
    env.wireFor policy p address = .ok (address - start) := by
  cases h with
  | absolute => rw [wireFor, Int.natCast_zero, Int.sub_zero]
  | relative hstart =>
    rw [wireFor, hstart]
    rfl
  | selfRelative => rfl

/-- A sum of 128 bits is exact, or it is negative. -/
theorem addWide_cases (hstart : start < pow2 64) (hlow : -(pow2 127 : Int) ≤ wire) (hhigh : wire < pow2 127) :
    addWide start wire = start + wire ∨ pow2 127 ≤ start + wire ∧ addWide start wire < 0 := by
  have hwide : pow2 64 ≤ pow2 127 := pow2_le_pow2 (by omega)
  by_cases hsum : (start : Int) + wire < pow2 127
  · exact .inl (bmod_of_range (by omega) hsum)
  · have hdouble : pow2 128 = 2 * pow2 127 := pow2_succ 127
    refine .inr ⟨by omega, ?_⟩
    have hwrapped : Int.bmod (start + wire) (pow2 128) = start + wire - pow2 128 := by
      rw [← Int.sub_bmod_right]
      exact bmod_of_range (by omega) (by omega)
    rw [addWide, hwrapped]
    omega

/-- A number that means an address is the distance to it. -/
theorem wireFor_of_address (h : policy.CountsFrom p start) (hstart : start < pow2 64)
    (hlow : -(pow2 127 : Int) ≤ wire) (hhigh : wire < pow2 127) {address : Nat}
    (haddress : env.address policy p wire = .ok address) : env.wireFor policy p address = .ok wire := by
  rw [address_of_countsFrom h hlow hhigh] at haddress
  obtain ⟨hsum, -⟩ := checkAddress_ok_iff.1 haddress
  rw [wireFor_of_countsFrom h, ← hsum]
  rcases addWide_cases hstart hlow hhigh with hexact | ⟨-, hnegative⟩
  · rw [hexact]
    congr 1
    omega
  · omega

/-- What the stored number means: the exact sum, or nothing if this is no address. -/
theorem address_eq_of_fits (env : Env κ) (h : policy.CountsFrom p start) (hstart : start < pow2 64)
    {format : IntFormat} {raw : Bytes} (hfits : format.Fits raw) :
    (0 ≤ start + format.number raw ∧ start + format.number raw < pow2 64 →
        env.address policy p (format.read raw) = .ok (start + format.number raw).toNat)
      ∧ (¬ (0 ≤ start + format.number raw ∧ start + format.number raw < pow2 64) →
        env.address policy p (format.read raw)
          = .error (.initialization (.addressOutOfRange (addWide start (format.number raw))))) := by
  rw [IntFormat.read_of_fits hfits]
  obtain ⟨hlow, hhigh⟩ := hfits
  rw [address_of_countsFrom h hlow hhigh]
  rcases addWide_cases hstart hlow hhigh with hexact | ⟨hpast, hnegative⟩
  · rw [hexact]
    refine ⟨fun hinside => checkAddress_ok_iff.2 ?_, checkAddress_of_outside⟩
    omega
  · have hwide : pow2 64 ≤ pow2 127 := pow2_le_pow2 (by omega)
    refine ⟨fun hinside => ?_, fun _ => checkAddress_of_outside fun hinside => ?_⟩ <;> omega

end Env

end BinaryLayout
