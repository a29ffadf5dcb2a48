import BinaryLayout.Proofs.Extent.View
import BinaryLayout.Proofs.Span.Bits

/-!
# Bits that windows let through

The bits that are handed out while a host is loaded are those of bytes that were read one at a time,
so they end where the windows end that the host is loaded through. An atom of bits has no more bits than
were handed out for it; it may have fewer, since the bits of a dropped element are lost.

## Main definitions

* `BitLoadState.Draws`: so many bits at least were handed out, inside all windows.

## Main statements

* `draws_loadBits`: an atom of bits that was loaded.
-/

namespace BinaryLayout

variable {κ α : Type}

open Atom

/-- Reading bits went on from one state to another: at least `count` bits were handed out, and their
bytes end inside all windows. -/
structure BitLoadState.Draws (count : Nat) (s t : BitLoadState κ) : Prop where
  limits : t.base.limits = s.base.limits
  level : t.base.Level t.next
  inside : s.base.Inside s.next t.next
  bits : 8 * s.next + t.pending.length + count ≤ 8 * t.next + s.pending.length

namespace BitLoadState.Draws

variable {first rest count : Nat} {s t u : BitLoadState κ}

theorem refl (hs : s.base.Level s.next) : s.Draws 0 s :=
  ⟨rfl, hs, .refl s.base s.next, Nat.le_refl _⟩

theorem trans (hst : s.Draws first t) (htu : t.Draws rest u) : s.Draws (first + rest) u := by
  have hbits := hst.bits
  have hmore := htu.bits
  refine ⟨htu.limits.trans hst.limits, htu.level, hst.inside.trans (htu.inside.of_limits hst.limits), ?_⟩
  omega

/-- Fewer bits are handed out as well. -/
theorem mono (h : s.Draws count t) (hle : first ≤ count) : s.Draws first t := by
  have hbits := h.bits
  exact ⟨h.limits, h.level, h.inside, by omega⟩

end BitLoadState.Draws

namespace BitLoadM

open BitLoadState

variable {s : BitLoadState κ}

theorem draws_ofLedger (m : LedgerM κ α) (hs : s.base.Level s.next) :
    Ends (ofLedger m) s fun _ t => s.Draws 0 t :=
  ⟨rfl, hs, .refl s.base s.next, Nat.le_refl _⟩

/-- A byte is read where the view stands, or nothing. -/
theorem draws_fetch (hs : s.base.Level s.next) (hnil : s.pending = []) :
    Ends fetch s fun _ t => s.Draws 0 t := by
  obtain ⟨hlimits, hok⟩ := LoadM.level_next (s := s.base) 1 hs
  refine ends_fetch ?_
  rw [Ends]
  cases hresult : (LoadM.next 1 s.base).1 with
  | ok bytes =>
    obtain ⟨-, hlevel, hinside⟩ := hok bytes hresult
    refine ⟨hlimits, hlevel, hinside, ?_⟩
    show 8 * s.next + (s.reader.refill (bytes.headD 0)).pending.length + 0 ≤ 8 * (s.next + 1) + s.pending.length
    rw [BitReader.length_pending, BitReader.remaining_refill, hnil]
    omega
  | error e =>
    have hlevel := Reader.level_of_consume_error hs (Prod.ext hresult rfl)
    exact ⟨hlimits, hlevel, .refl s.base s.next, Nat.le_refl _⟩

/-- A field of bits handed out. -/
theorem draws_read (width : Nat) (hs : s.base.Level s.next) :
    Ends (read width) s fun result t => s.Draws 0 t ∧ ∀ value, result = .ok value →
      value.width = width ∧ s.Draws width t := by
  have hread : Ends (read width) s fun _ t => s.Draws 0 t := by
    refine (ends_read (fun _ t => s.Draws 0 t) (fun _ t => s.Draws 0 t)
      (fun _ t => s.Draws 0 t) (fun _ t _ ht hnone => ?_) (fun _ _ ht _ => ht)
      (fun _ t count _ _ _ ht => ?_) (.refl hs)).mono fun result t ht => ?_
    · refine (draws_fetch ht.level (t.pending_eq_nil.2 hnone)).mono fun result u hu => ?_
      cases result <;> exact ht.trans hu
    · have hbits := ht.bits
      refine ⟨ht.limits, ht.level, ht.inside, ?_⟩
      simp only [pending_skip, next_skip, List.length_drop]
      omega
    · cases result with
      | ok value => exact ht.choose_spec.2.2.2
      | error e => exact ht
  refine (hread.and (hands_read width s)).mono fun result t ht => ⟨ht.1, fun value hvalue => ?_⟩
  subst hvalue
  obtain ⟨hdraws, hwidth, hhands⟩ := ht
  exact ⟨hwidth, hdraws.limits, hdraws.level, hdraws.inside, Nat.le_of_eq hhands⟩

end BitLoadM

/-! ## Atoms of bits -/

/-- What an atom of bits was made into: no more bits than were handed out since `s`. -/
def Outcome.Draws (s : BitLoadState κ) (out : Outcome κ) (t : BitLoadState κ) : Prop :=
  s.Draws 0 t ∧ (out.error? = none → s.Draws out.atom.bitCount t)

theorem Outcome.Draws.failed {s t : BitLoadState κ} (h : s.Draws 0 t) (a : Atom κ) (e : Error) :
    Outcome.Draws s ⟨a, some e⟩ t := by
  refine ⟨h, fun hnone => ?_⟩
  cases hnone

/-- A complete atom. -/
theorem Outcome.Draws.done {s t : BitLoadState κ} {a : Atom κ} (h : s.Draws a.bitCount t) :
    Outcome.Draws s ⟨a.ready, none⟩ t := by
  refine ⟨h.mono (Nat.zero_le _), fun _ => ?_⟩
  show s.Draws a.ready.bitCount t
  rwa [bitCount_ready]

def DrawsBits (part : LoadPart (BitLoadM κ) κ) : Prop :=
  ∀ frames a s, s.base.Level s.next → Ends (part frames a) s (Outcome.Draws s)

section Load

variable {env : Env κ} {part : LoadPart (BitLoadM κ) κ} {origin s : BitLoadState κ}

theorem draws_loadBitFields (hpart : DrawsBits part) (frames : List (Frame κ)) {f : Frame κ}
    (hf : f.content = .group) (hright : f.right = []) (index cursor : Nat)
    (fields : List (BitField κ (BitLayout κ))) (hs : origin.Draws f.close.bitCount s) :
    Ends (loadBitFields env part frames f index cursor fields) s (Outcome.Draws origin) := by
  induction fields generalizing f index cursor s with
  | nil => exact Ends.pure (.done hs)
  | cons field fields ih =>
    rw [loadBitFields]
    split
    · exact Ends.pure (.failed (hs.mono (Nat.zero_le _)) _ _)
    · refine (BitLoadM.draws_ofLedger _ hs.level).bind fun blank t ht => ?_
      refine (hpart _ _ _ ht.level).bind fun out u hu => ?_
      have hbefore := hs.trans ht
      dsimp only
      split
      · exact Ends.pure (.failed ((hbefore.trans hu.1).mono (Nat.zero_le _)) _ _)
      · rename_i herror
        apply ih (f := f.push out.atom) hf hright
        rw [Frame.bitCount_push hf hright]
        exact hbefore.trans (hu.2 herror)

/-- The bits of the element that could not be completed are lost. -/
theorem draws_loadBitElements (hpart : DrawsBits part) (element : BitLayout κ) (shape : BitShape κ)
    (frames : List (Frame κ)) (budget : Nat) {f : Frame κ} (hf : f.content = .group)
    (hright : f.right = []) (index cursor : Nat) (hs : origin.Draws f.close.bitCount s) :
    Ends (loadBitElements env part element shape frames budget f index cursor) s
      (Outcome.Draws origin) := by
  induction budget generalizing f index cursor s with
  | zero =>
    rw [loadBitElements]
    split
    · exact Ends.pure (.done hs)
    · exact Ends.pure (.failed (hs.mono (Nat.zero_le _)) _ _)
  | succ budget ih =>
    rw [loadBitElements]
    split
    · exact Ends.pure (.done hs)
    · refine (BitLoadM.draws_ofLedger _ hs.level).bind fun blank t ht => ?_
      refine (hpart _ _ _ ht.level).bind fun out u hu => ?_
      have hbefore := hs.trans ht
      have hdropped := hbefore.trans hu.1
      split
      · rename_i herror _
        have hpush : origin.Draws (f.push out.atom).close.bitCount u := by
          rw [Frame.bitCount_push hf hright]
          exact hbefore.trans (hu.2 herror)
        split
        · exact Ends.pure (.done hpush)
        · exact ih (f := f.push out.atom) hf hright _ _ hpush
      · exact Ends.pure (.failed (hdropped.mono (Nat.zero_le _)) _ _)
      · split
        · exact Ends.pure (.failed (hdropped.mono (Nat.zero_le _)) _ _)
        · refine (BitLoadM.draws_ofLedger _ hdropped.level).bind fun _ v hv => ?_
          have hbounded : Ends (BitLoadM.bounded : BitLoadM κ Bool) v fun _ w => w = v := rfl
          refine hbounded.bind fun known w hw => ?_
          subst hw
          have hhere := hdropped.trans hv
          split
          · exact (BitLoadM.draws_ofLedger _ hhere.level).bind fun _ x hx =>
              Ends.pure (.done (hhere.trans hx))
          · exact Ends.pure (.failed (hhere.mono (Nat.zero_le _)) _ _)

/-- An atom of bits has no more bits than were handed out for it. -/
theorem draws_loadBits (env : Env κ) (depth : Nat) : DrawsBits (loadBits env depth) := by
  induction depth with
  | zero => exact fun _ _ _ hs => Ends.pure (.failed (.refl hs) _ _)
  | succ depth ih =>
    intro frames a s hs
    have hempty : s.Draws (a.fill .group []).frame.close.bitCount s := by
      rw [close_frame]
      exact .refl hs
    rw [loadBits]
    split
    · exact Ends.pure (.failed (.refl hs) _ _)
    · rename_i bits signed _
      refine (BitLoadM.draws_read bits hs).bind fun result t ht => ?_
      cases result with
      | error e => exact Ends.pure (.failed ht.1 _ _)
      | ok value =>
        obtain ⟨hwidth, hdraws⟩ := ht.2 value rfl
        apply Ends.pure
        apply Outcome.Draws.done
        show s.Draws value.width t
        rwa [hwidth]
    · exact draws_loadBitFields ih frames rfl rfl _ _ _ hempty
    · exact draws_loadBitElements ih _ _ frames _ rfl rfl _ _ hempty

end Load

end BinaryLayout
