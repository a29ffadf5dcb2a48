import BinaryLayout.Proofs.Handles.Reading
import BinaryLayout.Proofs.Placement.Basic
import BinaryLayout.Proofs.Source.Read

/-!
# Bits that fill the last byte

The bits that a host keeps as unused have to fill its last byte. Bits that were handed out are not taken
back when an element that could not be completed is dropped; but this happens only at the end of the view,
where nothing more can be read, and then there are no unused bits at all.

## Main definitions

* `BitLoadState.Aligned`: the pending bits fill the last byte, or the view has ended.
* `Outcome.Settles`: how loading an atom of bits leaves the view.

## Main statements

* `settles_loadBits`: bits from a view.
-/

namespace BinaryLayout

variable {κ α : Type}

open Atom

/-! ## Bits from a view -/

namespace BitLoadState

/-- The view has no further byte. -/
def Dry (s : BitLoadState κ) : Prop :=
  ∃ e, (s.base.reader.consume s.base.sources 1).1 = .error e

/-- After `used` bits were handed out, the pending ones fill the last byte, or the view has ended and
there are none. -/
def Aligned (used : Nat) (s : BitLoadState κ) : Prop :=
  s.pending = [] ∧ s.Dry ∨ s.pending.length < 8 ∧ (used + s.pending.length) % 8 = 0

/-- The pending bits fit a host with the used ones. -/
theorem Aligned.fits {used : Nat} {s : BitLoadState κ} (h : s.Aligned used) : s.reader.pad.Fits used := by
  rw [Bitmap.Fits, BitReader.width_pad, ← length_pending]
  rcases h with ⟨hnil, -⟩ | ⟨hlt, hmod⟩
  · rw [hnil]
    exact .inl rfl
  · exact .inr ⟨hmod, hlt⟩

end BitLoadState

namespace BitLoadM

open BitLoadState

/-- A byte is fetched from a view that has one. If there is none, there is none later either. -/
theorem aligned_fetch (s : BitLoadState κ) (hnil : s.pending = []) :
    Ends fetch s fun result t =>
      match result with
      | .ok () => ¬ s.Dry
      | .error _ => t.pending = [] ∧ t.Dry := by
  refine ends_fetch ?_
  rw [Ends]
  cases hread : (LoadM.next 1 s.base).1 with
  | ok bytes =>
    rintro ⟨e, he⟩
    cases hread.symm.trans he
  | error e => exact ⟨hnil, Reader.consume_again (Prod.ext hread rfl)⟩

/-- A field of bits handed out. -/
theorem aligned_read (width : Nat) {used : Nat} {s : BitLoadState κ} (hs : s.Aligned used) :
    Ends (read width) s fun result t =>
      match result with
      | .ok value => value.width = width ∧ t.Aligned (used + width)
      | .error _ => t.pending = [] ∧ t.Dry := by
  refine (ends_read (fun done t => t.Aligned (used + done.length))
    (fun done t => (used + done.length + t.pending.length) % 8 = 0)
    (fun _ t => t.pending = [] ∧ t.Dry) (fun done t _ ht hnone => ?_) (fun done t ht hsome => ?_)
    (fun done t count hpos hle _ ht => ?_) (by simpa using hs)).mono fun result t ht => ?_
  · refine ((aligned_fetch t (t.pending_eq_nil.2 hnone)).and (order_fetch t)).mono fun result u hu => ?_
    cases result with
    | error e => exact hu.1
    | ok _ =>
      have hmod := (ht.resolve_left fun h => hu.1 h.2).2
      have hlength := u.length_pending
      rw [t.pending_eq_nil.2 hnone, List.length_nil] at hmod
      rw [hu.2.2.1] at hlength
      omega
  · exact (ht.resolve_left fun h => hsome (t.pending_eq_nil.1 h.1)).2
  · have hlength := t.length_pending
    have hmost := t.pending_le
    refine .inr ?_
    simp only [pending_skip, List.length_drop, List.length_append, List.length_take]
    omega
  · cases result with
    | error e => exact ht
    | ok value =>
      obtain ⟨bits, hlength, rfl, -, ht⟩ := ht
      exact ⟨by simp [hlength], hlength ▸ ht⟩

/-- Handles do not matter to the view. -/
theorem aligned_ofLedger {used : Nat} {s : BitLoadState κ} (m : LedgerM κ α) (hs : s.Aligned used) :
    Ends (ofLedger m) s fun _ t => t.Aligned used :=
  hs

end BitLoadM

/-- The failure of a rule is never that of a view. -/
theorem Error.isConsume_asInitialization (e : Error) : e.asInitialization.isConsume = false := by
  cases e with
  | located path problem => cases problem <;> rfl
  | schema fault => rfl

theorem Env.isConsume_resolveBits {env : Env κ} {container : Place κ} {index : Nat}
    {choice : Choice κ (BitLayout κ)} {e : Error}
    (h : env.resolveBits container index choice = .error e) : e.isConsume = false := by
  cases choice with
  | given layout => cases h
  | computed rule =>
    rw [resolveBits] at h
    cases hrule : env.rules.bitLayout rule ⟨container, some index, env.config⟩ with
    | ok layout =>
      rw [hrule] at h
      cases h
    | error cause =>
      rw [hrule] at h
      cases h
      exact cause.isConsume_asInitialization

/-- How an atom of bits was made after `used` bits: it leaves the view so that the pending bits fill the last
byte, and if it ran out of bytes, the view has ended. -/
structure Outcome.Settles (used : Nat) (out : Outcome κ) (t : BitLoadState κ) : Prop where
  aligned : out.error? = none → t.Aligned (used + out.atom.bitCount)
  dry : ∀ e, out.error? = some e → e.isConsume = true → t.pending = [] ∧ t.Dry

/-- A failure that has nothing to do with the view. -/
theorem Outcome.settles_error {used : Nat} {a : Atom κ} {e : Error} {t : BitLoadState κ}
    (he : e.isConsume = false) : Outcome.Settles used ⟨a, some e⟩ t :=
  ⟨nofun, fun e' h hconsume => by cases h; rw [he] at hconsume; cases hconsume⟩

/-- A failure at the end of the view. -/
theorem Outcome.settles_dry {used : Nat} {a : Atom κ} {e : Error} {t : BitLoadState κ}
    (h : t.pending = [] ∧ t.Dry) : Outcome.Settles used ⟨a, some e⟩ t :=
  ⟨nofun, fun _ _ _ => h⟩

/-- What blank atoms of bits are made into. -/
def SettlesBits (part : LoadPart (BitLoadM κ) κ) : Prop :=
  ∀ frames a used s, s.Aligned used → Ends (part frames a) s fun out t => out.Settles used t

theorem Frame.bitCount_push {f : Frame κ} (hf : f.content = .group) (hright : f.right = [])
    (a : Atom κ) : (f.push a).close.bitCount = f.close.bitCount + a.bitCount := by
  obtain ⟨info, content, left, right⟩ := f
  cases hf
  cases hright
  have hclose (as : List (Atom κ)) :
      (Frame.close ⟨info, .group, as, []⟩).bitCount = bitCounts as.reverse := by
    rw [Frame.close, List.reverseAux_eq, List.append_nil]
    rfl
  show (Frame.close ⟨info, .group, a :: left, []⟩).bitCount = _
  rw [hclose, hclose, List.reverse_cons, bitCounts_eq, bitCounts_eq, List.map_append, List.sum_append]
  simp

theorem bitCount_ready (a : Atom κ) : a.ready.bitCount = a.bitCount := by
  obtain ⟨info, content, parts⟩ := a
  cases content <;> rfl

/-- A complete atom of bits. -/
theorem Outcome.settles_ready {used : Nat} {a : Atom κ} {s : BitLoadState κ}
    (hs : s.Aligned (used + a.bitCount)) : Outcome.Settles used ⟨a.ready, none⟩ s :=
  ⟨fun _ => by rw [bitCount_ready]; exact hs, nofun⟩

section Load

variable {env : Env κ}

/-- What loading a part of bits gives to the frame that it is put into. -/
theorem Outcome.Settles.push {f : Frame κ} {used : Nat} {out : Outcome κ} {t : BitLoadState κ}
    (h : out.Settles (used + f.close.bitCount) t) (hf : f.content = .group) (hright : f.right = [])
    (herror : out.error? = none) : t.Aligned (used + (f.push out.atom).close.bitCount) := by
  rw [Frame.bitCount_push hf hright, ← Nat.add_assoc]
  exact h.aligned herror

theorem settles_loadBitFields {part : LoadPart (BitLoadM κ) κ} (hpart : SettlesBits part)
    (frames : List (Frame κ)) {f : Frame κ} {used : Nat} (hf : f.content = .group) (hright : f.right = [])
    (index cursor : Nat) (fields : List (BitField κ (BitLayout κ))) {s : BitLoadState κ}
    (hs : s.Aligned (used + f.close.bitCount)) :
    Ends (loadBitFields env part frames f index cursor fields) s fun out t => out.Settles used t := by
  induction fields generalizing f index cursor s with
  | nil => exact Ends.pure (Outcome.settles_ready hs)
  | cons field fields ih =>
    rw [loadBitFields]
    split
    · rename_i e hresolve
      refine Ends.pure (Outcome.settles_error ?_)
      rw [Error.isConsume_within]
      exact Env.isConsume_resolveBits hresolve
    · refine (BitLoadM.aligned_ofLedger _ hs).bind fun blank t ht => ?_
      refine (hpart (f :: frames) blank _ t ht).bind fun out u hout => ?_
      dsimp only
      split
      · rename_i e herror
        exact Ends.pure ⟨nofun, fun e' he hconsume => hout.dry e herror (by
          cases he
          rwa [Error.isConsume_within] at hconsume)⟩
      · rename_i herror
        exact ih (f := f.push out.atom) hf hright _ _ (hout.push hf hright herror)

theorem settles_loadBitElements {part : LoadPart (BitLoadM κ) κ} (hpart : SettlesBits part)
    (element : BitLayout κ) (shape : BitShape κ) (frames : List (Frame κ)) (budget : Nat)
    {f : Frame κ} {used : Nat} (hf : f.content = .group) (hright : f.right = []) (index cursor : Nat)
    {s : BitLoadState κ} (hs : s.Aligned (used + f.close.bitCount)) :
    Ends (loadBitElements env part element shape frames budget f index cursor) s fun out t =>
      out.Settles used t := by
  induction budget generalizing f index cursor s with
  | zero =>
    rw [loadBitElements]
    split
    · exact Ends.pure (Outcome.settles_ready hs)
    · exact Ends.pure (Outcome.settles_error rfl)
  | succ budget ih =>
    rw [loadBitElements]
    split
    · exact Ends.pure (Outcome.settles_ready hs)
    · refine (BitLoadM.aligned_ofLedger _ hs).bind fun blank t ht => ?_
      refine (hpart (f :: frames) blank _ t ht).bind fun out u hout => ?_
      have hlost (e e' : Error) (herror : out.error? = some e) (he : e' = e.within [Path.index index]) :
          Outcome.Settles used ⟨f.plug out.atom, some e'⟩ u := by
        refine ⟨nofun, fun e'' heq hconsume => hout.dry e herror ?_⟩
        cases heq
        rwa [he, Error.isConsume_within] at hconsume
      split
      · rename_i herror _
        have hu := hout.push hf hright herror
        split
        · exact Ends.pure (Outcome.settles_ready hu)
        · exact ih (f := f.push out.atom) hf hright _ _ hu
      · exact Ends.pure (hlost _ _ ‹_› rfl)
      · rename_i e _ herror _
        split
        · exact Ends.pure (hlost _ _ herror rfl)
        · rename_i hconsume
          have hdry := hout.dry e herror (by simpa using hconsume)
          refine Ends.via (fun _ v => v.pending = [] ∧ v.Dry) hdry fun _ v hv => ?_
          refine Ends.via (fun _ w => w.pending = [] ∧ w.Dry) hv fun bounded w hw => ?_
          split
          · refine Ends.via (fun _ x => x.pending = [] ∧ x.Dry) hw fun _ x hx => ?_
            exact Ends.pure (Outcome.settles_ready (.inl hx))
          · exact Ends.pure (Outcome.settles_dry hw)

/-- Atoms of bits read from a view. -/
theorem settles_loadBits (env : Env κ) (depth : Nat) : SettlesBits (loadBits env depth) := by
  induction depth with
  | zero => exact fun _ _ _ _ _ => Ends.pure (Outcome.settles_error rfl)
  | succ depth ih =>
    intro frames a used s hs
    have hempty : s.Aligned (used + (a.fill .group []).frame.close.bitCount) := by
      rw [close_frame]
      exact hs
    rw [loadBits]
    split
    · exact Ends.pure (Outcome.settles_error rfl)
    · rename_i bits signed hlayout
      refine (BitLoadM.aligned_read bits hs).bind fun result t ht => ?_
      cases result with
      | error e => exact Ends.pure (Outcome.settles_dry ht)
      | ok value =>
        refine Ends.pure (Outcome.settles_ready ?_)
        show t.Aligned (used + value.width)
        rw [ht.1]
        exact ht.2
    · exact settles_loadBitFields ih frames rfl rfl _ _ _ hempty
    · exact settles_loadBitElements ih _ _ frames _ rfl rfl _ _ hempty

end Load

end BinaryLayout
