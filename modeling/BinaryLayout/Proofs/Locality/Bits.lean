import BinaryLayout.Proofs.Locality.Read

/-!
# Bits of views that are alike

Bits loaded from two views that are alike are the same bits, as long as loading stays inside the bound
of the comparison. It goes astray when it fails, when an array is found to end with its source, or
when a byte past the bound is read; and what is loaded afterwards does not bring it back.

## Main definitions

* `BitLoadState.Alike`: states of reading that are alike.
* `BitLoadState.Strays`: loading bits went astray.
* `Outcome.BitsAlike`: what became of the same atom of bits of two views.

## Main statements

* `together_allocateBits`: default bits.
* `together_loadBits`: an atom of bits.
-/

namespace BinaryLayout

variable {κ α : Type} {mark : Nat → Nat} {L : Likeness}

open Atom

/-- Two atoms, each as far as it was made, that differ in handles alone. -/
def Outcome.Matches (mark : Nat → Nat) (out out' : Outcome κ) : Prop :=
  out.atom.rename mark = out'.atom.rename mark ∧ out.error? = out'.error?

theorem Frame.matches_done {f f' : Frame κ} (h : f.rename mark = f'.rename mark) :
    Outcome.Matches mark ⟨f.close.ready, none⟩ ⟨f'.close.ready, none⟩ := by
  refine ⟨?_, rfl⟩
  rw [rename_ready, rename_ready, rename_close, rename_close, h]

theorem Frame.matches_failed {f f' : Frame κ} (h : f.rename mark = f'.rename mark) (e : Error) :
    Outcome.Matches mark ⟨f.close, some e⟩ ⟨f'.close, some e⟩ := by
  refine ⟨?_, rfl⟩
  rw [rename_close, rename_close, h]

theorem Frame.rename_push_of {f f' : Frame κ} (h : f.rename mark = f'.rename mark) {a a' : Atom κ}
    (ha : a.rename mark = a'.rename mark) : (f.push a).rename mark = (f'.push a').rename mark := by
  rw [rename_push, rename_push, h, ha]

theorem Frame.rename_plug_of {f f' : Frame κ} (h : f.rename mark = f'.rename mark) {a a' : Atom κ}
    (ha : a.rename mark = a'.rename mark) : (f.plug a).rename mark = (f'.plug a').rename mark := by
  rw [rename_plug, rename_plug, h, ha]

theorem Frame.rename_cons_of {f f' : Frame κ} (h : f.rename mark = f'.rename mark)
    {frames frames' : List (Frame κ)}
    (hframes : frames.map (rename mark) = frames'.map (rename mark)) :
    (f :: frames).map (rename mark) = (f' :: frames').map (rename mark) := by
  rw [List.map_cons, List.map_cons, h, hframes]

theorem Place.rename_of {a a' : Atom κ} (ha : a.rename mark = a'.rename mark)
    {frames frames' : List (Frame κ)}
    (hframes : frames.map (Frame.rename mark) = frames'.map (Frame.rename mark)) :
    Place.rename mark ⟨a, frames⟩ = Place.rename mark ⟨a', frames'⟩ := by
  rw [rename, rename, ha, hframes]

/-- The frame that a compound atom starts from. -/
theorem Frame.rename_start_of {a a' : Atom κ} (h : a.rename mark = a'.rename mark) (content : Content) :
    (a.fill content []).frame.rename mark = (a'.fill content []).frame.rename mark := by
  rw [rename_frame, rename_frame, rename_fill, rename_fill, h]

theorem Frame.close_of_rename {f f' : Frame κ} (h : f.rename mark = f'.rename mark) :
    f.close.rename mark = f'.close.rename mark := by
  rw [rename_close, rename_close, h]

/-! ## Default bits -/

section Allocate

variable {env : Env κ}

/-- What ledgers in step make of trees that differ in handles alone. -/
def MadeAlike (mark : Nat → Nat) (part : LoadPart (LedgerM κ) κ) : Prop :=
  ∀ {frames frames' : List (Frame κ)} {a a' : Atom κ} {l l' : Ledger κ},
    frames.map (Frame.rename mark) = frames'.map (Frame.rename mark) →
    a.rename mark = a'.rename mark → l.InStep mark l' →
      Together (part frames a) (part frames' a') l l' fun out m out' m' =>
        out.Matches mark out' ∧ m.InStep mark m'

theorem together_spawn {l l' : Ledger κ} (h : l.InStep mark l') (name : String)
    (layout : AtomLayout κ) (offset : Nat) :
    Together (LedgerM.spawn name layout offset) (LedgerM.spawn name layout offset) l l'
      fun a m a' m' => a.rename mark = a'.rename mark ∧ m.InStep mark m' :=
  h.spawn name layout offset

theorem together_allocateBitFields (hrules : env.rules.SeeOnly mark) {part : LoadPart (LedgerM κ) κ} (hpart : MadeAlike mark part)
    {frames frames' : List (Frame κ)}
    (hframes : frames.map (Frame.rename mark) = frames'.map (Frame.rename mark)) {f f' : Frame κ}
    (hf : f.rename mark = f'.rename mark) (index cursor : Nat)
    (fields : List (BitField κ (BitLayout κ))) {l l' : Ledger κ} (h : l.InStep mark l') :
    Together (allocateBitFields env part frames f index cursor fields)
      (allocateBitFields env part frames' f' index cursor fields) l l' fun out m out' m' =>
        out.Matches mark out' ∧ m.InStep mark m' := by
  induction fields generalizing f f' index cursor l l' with
  | nil => exact Together.pure ⟨Frame.matches_done hf, h⟩
  | cons field fields ih =>
    rw [allocateBitFields, allocateBitFields, env.resolveBits_of_rename hrules
      (Place.rename_of (Frame.close_of_rename hf) hframes)]
    split
    · exact Together.pure ⟨Frame.matches_failed hf _, h⟩
    · refine (together_spawn h _ _ _).bind fun blank m blank' m' hm => ?_
      refine (hpart (Frame.rename_cons_of hf hframes) hm.1 hm.2).bind fun out n out' n' hn => ?_
      obtain ⟨atom, error?⟩ := out
      obtain ⟨atom', error?'⟩ := out'
      obtain ⟨⟨hatom, herror⟩, hn⟩ := hn
      cases herror
      have hnew := Frame.rename_push_of hf hatom
      cases error? with
      | some e => exact Together.pure ⟨Frame.matches_failed hnew e, hn⟩
      | none =>
        have hbits : atom.bits = atom'.bits := bits_of_rename hatom
        dsimp only
        rw [hbits]
        exact ih hnew _ _ hn

theorem together_allocateBitElements {part : LoadPart (LedgerM κ) κ} (hpart : MadeAlike mark part)
    (element : BitLayout κ) {frames frames' : List (Frame κ)}
    (hframes : frames.map (Frame.rename mark) = frames'.map (Frame.rename mark)) (count : Nat)
    {f f' : Frame κ} (hf : f.rename mark = f'.rename mark) (index cursor : Nat) {l l' : Ledger κ}
    (h : l.InStep mark l') :
    Together (allocateBitElements part element frames count f index cursor)
      (allocateBitElements part element frames' count f' index cursor) l l' fun out m out' m' =>
        out.Matches mark out' ∧ m.InStep mark m' := by
  induction count generalizing f f' index cursor l l' with
  | zero => exact Together.pure ⟨Frame.matches_done hf, h⟩
  | succ count ih =>
    rw [allocateBitElements, allocateBitElements]
    refine (together_spawn h _ _ _).bind fun blank m blank' m' hm => ?_
    refine (hpart (Frame.rename_cons_of hf hframes) hm.1 hm.2).bind fun out n out' n' hn => ?_
    obtain ⟨atom, error?⟩ := out
    obtain ⟨atom', error?'⟩ := out'
    obtain ⟨⟨hatom, herror⟩, hn⟩ := hn
    cases herror
    have hnew := Frame.rename_push_of hf hatom
    cases error? with
    | some e => exact Together.pure ⟨Frame.matches_failed hnew e, hn⟩
    | none =>
      have hbits : atom.bits = atom'.bits := bits_of_rename hatom
      dsimp only
      rw [hbits]
      exact ih hnew _ _ hn

/-- Default bits. -/
theorem together_allocateBits (hrules : env.rules.SeeOnly mark) (depth : Nat) :
    MadeAlike mark (allocateBits env depth) := by
  induction depth with
  | zero => exact fun _ ha h => Together.pure ⟨⟨ha, rfl⟩, h⟩
  | succ depth ih =>
    intro frames frames' a a' l l' hframes ha h
    rw [allocateBits, allocateBits, layout_of_rename ha]
    split
    · exact Together.pure ⟨⟨ha, rfl⟩, h⟩
    · have hclear : Together (LedgerM.clear a) (LedgerM.clear a') l l' fun b m b' m' =>
          b.rename mark = b'.rename mark ∧ m.InStep mark m' := h.clear ha
      refine hclear.bind fun b m b' m' hm => ?_
      have hstart := Frame.rename_start_of hm.1 .group
      have hoffset := offset_of_rename hm.1
      split
      · refine Together.pure ⟨⟨?_, rfl⟩, hm.2⟩
        rw [rename_ready, rename_ready, rename_fill, rename_fill, hm.1]
      · rw [hoffset]
        exact together_allocateBitFields hrules ih hframes hstart _ _ _ hm.2
      · rw [hoffset]
        exact together_allocateBitElements ih _ hframes _ hstart _ _ hm.2

end Allocate

/-! ## Reading bits -/

/-- Both read the same bits next: the views are alike and stand at the same byte, and the readers of bits
are the same. -/
structure BitLoadState.Alike (L : Likeness) (mark : Nat → Nat) (s s' : BitLoadState κ) : Prop where
  base : s.base.AlikeAt L mark s.next s'.base
  reader : s'.reader = s.reader
  next : s'.next = s.next

namespace BitLoadState

variable {s s' t : BitLoadState κ}

theorem Alike.ready (h : s.Alike L mark s') {b : Bound} (hb : L.bound? = some b) : s.Ready b.data :=
  ⟨h.base.alike.shows hb, h.base.stands hb⟩

/-- Reading went past the bound, or an array was found to end with its source. -/
def Strays (bound? : Option Bound) (t : BitLoadState κ) : Prop :=
  ∃ b, bound? = some b ∧ (b.unterminated < t.base.ledger.unterminated ∨ b.stop < t.next)

/-- What is read afterwards does not bring it back. -/
theorem Strays.advance {bound? : Option Bound} {data : Bytes} (h : s.Strays bound?)
    (hst : s.Advances data t) : t.Strays bound? := by
  obtain ⟨b, hb, hstray⟩ := h
  exact ⟨b, hb, hstray.imp (Nat.lt_of_lt_of_le · hst.unterminated) (Nat.lt_of_lt_of_le · hst.next)⟩

end BitLoadState

open BitLoadState

/-- What became of the same bits of two views: reading failed or went astray, or the bits are the same.
-/
def BitsReadAlike (L : Likeness) (mark : Nat → Nat) (result : Except Error α) (t : BitLoadState κ)
    (result' : Except Error α) (t' : BitLoadState κ) : Prop :=
  ((∃ b, L.bound? = some b) ∧ ∃ e, result = .error e) ∨ t.Strays L.bound?
    ∨ result = result' ∧ t.Alike L mark t'

namespace BitLoadM

variable {s s' : BitLoadState κ}

/-- The first run went astray, and a view that shows the data of the bound stands where it went. -/
def Astray (bound? : Option Bound) (t : BitLoadState κ) : Prop :=
  t.Strays bound? ∧ ∀ b, bound? = some b → t.Ready b.data

/-- The first run failed. Without a bound the second failed alike. -/
def Failed (L : Likeness) (mark : Nat → Nat) (e : Error) (t : BitLoadState κ) (result : Except Error Unit)
    (t' : BitLoadState κ) : Prop :=
  (∃ b, L.bound? = some b) ∨ result = .error e ∧ t.Alike L mark t'

theorem together_fetch_alike (h : s.Alike L mark s') (hnil : s.pending = []) :
    Together fetch fetch s s' (Twice (fun _ => Alike L mark) (Astray L.bound?) (Failed L mark)) := by
  rcases L.inside_or (s.next + 1) with hstop | ⟨b, hb, hpast⟩
  · refine together_fetch ((LoadM.together_next h.base hstop).mono fun result t result' t' ht => ?_)
    cases ht with
    | ok hat =>
      refine .inr ⟨rfl, hat.2, ?_, congrArg (· + 1) h.next⟩
      exact congrArg (BitReader.refill · _) h.reader
    | failed hfailed =>
      refine .inr ⟨?_, hfailed, h.reader, h.next⟩
      exact congrArg (fun next => Except.error (fetchError next _)) h.next
    | lost hb => exact .inl ⟨_, hb⟩
  · have hready : Ends fetch s fun _ t => ∀ b, L.bound? = some b → t.Ready b.data :=
      fun b hb => (advances_fetch (h.ready hb) hnil).ready
    refine Together.left (hready.and (order_fetch s)) fun result t _ _ ht => ?_
    obtain ⟨hready, -, hnext⟩ := ht
    cases result with
    | ok _ => exact .inl ⟨⟨b, hb, .inr (by have := hnext.2; omega)⟩, hready⟩
    | error e => exact .inl ⟨b, hb⟩

theorem together_read (width : Nat) (h : s.Alike L mark s') :
    Together (read width) (read width) s s' (BitsReadAlike L mark) := by
  refine (twice_read (fun _ => Alike L mark) (fun _ => Alike L mark)
    (Astray L.bound?) (Failed L mark) (fun _ _ _ h => h.reader) (fun _ _ _ h => h.reader)
    (fun _ t t' _ h hnone => together_fetch_alike h (t.pending_eq_nil.2 hnone)) (fun _ _ _ h _ => h)
    (fun _ t t' count _ _ _ h => ⟨h.base, congrArg (BitReader.skip · count) h.reader, h.next⟩)
    (fun e t t' h _ _ => ?_) (fun t ht hnone => ?_) (fun t count ht => ?_) h).mono
    fun result t result' t' ht => ?_
  · rcases h with hbound | ⟨hresult, -⟩
    · exact .inl hbound
    · cases hresult
  · obtain ⟨hstrays, hready⟩ := ht
    obtain ⟨b, hb, -⟩ := id hstrays
    have hadvances (b : Bound) (hb : L.bound? = some b) : Ends fetch t fun _ u => t.Advances b.data u :=
      advances_fetch (hready b hb) (t.pending_eq_nil.2 hnone)
    rw [Ends]
    cases hresult : (fetch t).1 with
    | ok _ => exact ⟨hstrays.advance (hadvances b hb), fun c hc => (hadvances c hc).ready⟩
    | error e => exact fun _ _ => .inl ⟨b, hb⟩
  · exact ⟨ht.1, fun b hb => ⟨(ht.2 b hb).shows, (ht.2 b hb).stands⟩⟩
  · cases result with
    | error e =>
      rcases ht with hbound | ⟨hresult, halike⟩
      · exact .inl ⟨hbound, e, rfl⟩
      · cases result' with
        | ok value => cases hresult
        | error e' =>
          cases hresult
          exact .inr (.inr ⟨rfl, halike⟩)
    | ok value =>
      rcases ht with ⟨hstrays, -⟩ | ⟨rfl, -, -, -, -, halike⟩
      · exact .inr (.inl hstrays)
      · exact .inr (.inr ⟨rfl, halike⟩)

end BitLoadM

/-! ## Atoms of bits -/

/-- What became of the same atom of bits of two views: loading failed or went astray, or the atoms
differ in handles alone. -/
def Outcome.BitsAlike (L : Likeness) (mark : Nat → Nat) (out : Outcome κ) (t : BitLoadState κ)
    (out' : Outcome κ) (t' : BitLoadState κ) : Prop :=
  ((∃ b, L.bound? = some b) ∧ ∃ e, out.error? = some e) ∨ t.Strays L.bound?
    ∨ out.Matches mark out' ∧ t.Alike L mark t'

/-- What two views that are alike make of trees that differ in handles alone. -/
def BitsLoadedAlike (mark : Nat → Nat) (part : LoadPart (BitLoadM κ) κ) : Prop :=
  ∀ {L : Likeness} {frames frames' : List (Frame κ)} {a a' : Atom κ} {s s' : BitLoadState κ},
    frames.map (Frame.rename mark) = frames'.map (Frame.rename mark) →
    a.rename mark = a'.rename mark → s.Alike L mark s' →
      Together (part frames a) (part frames' a') s s' (Outcome.BitsAlike L mark)

namespace Outcome.BitsAlike

variable {t t' : BitLoadState κ} {out out' : Outcome κ}

theorem alike (h : out.Matches mark out') (ht : t.Alike L mark t') : out.BitsAlike L mark t out' t' :=
  .inr (.inr ⟨h, ht⟩)

theorem failed {b : Bound} (hb : L.bound? = some b) (a : Atom κ) (e : Error) :
    Outcome.BitsAlike L mark ⟨a, some e⟩ t out' t' :=
  .inl ⟨⟨b, hb⟩, e, rfl⟩

end Outcome.BitsAlike

section Load

variable {env : Env κ} {part : LoadPart (BitLoadM κ) κ} {s s' : BitLoadState κ}

theorem BitLoadM.together_spawn (h : s.Alike L mark s') (name : String) (layout : AtomLayout κ)
    (offset : Nat) :
    Together (BitLoadM.ofLedger (LedgerM.spawn name layout offset))
      (BitLoadM.ofLedger (LedgerM.spawn name layout offset)) s s' fun a t a' t' =>
        a.rename mark = a'.rename mark ∧ t.Alike L mark t' := by
  obtain ⟨hatom, hledger⟩ := h.base.handles.spawn name layout offset
  refine ⟨hatom, ⟨h.base.view, hledger, fun b hb => ?_⟩, h.reader, h.next⟩
  exact (Ledger.unterminated_take _).trans (h.base.quiet b hb)

/-- A part was loaded, and nothing is known but that reading went on; then the rest only reads on. -/
theorem together_loadBitFields (hrules : env.rules.SeeOnly mark)
    (hspans : ∀ data, SpansBits data part) (hpart : BitsLoadedAlike mark part)
    {frames frames' : List (Frame κ)}
    (hframes : frames.map (Frame.rename mark) = frames'.map (Frame.rename mark)) {f f' : Frame κ}
    (hf : f.rename mark = f'.rename mark) (hgroup : f.content = .group) (hright : f.right = [])
    (index cursor : Nat) (fields : List (BitField κ (BitLayout κ))) (h : s.Alike L mark s') :
    Together (loadBitFields env part frames f index cursor fields)
      (loadBitFields env part frames' f' index cursor fields) s s' (Outcome.BitsAlike L mark) := by
  induction fields generalizing f f' index cursor s s' with
  | nil => exact Together.pure (.alike (Frame.matches_done hf) h)
  | cons field fields ih =>
    rw [loadBitFields, loadBitFields, env.resolveBits_of_rename hrules
      (Place.rename_of (Frame.close_of_rename hf) hframes)]
    split
    · exact Together.pure (.alike (Frame.matches_failed hf _) h)
    · refine (BitLoadM.together_spawn h _ _ _).bind fun blank t blank' t' ht => ?_
      refine ((hpart (Frame.rename_cons_of hf hframes) ht.1 ht.2).andLeft
        (p := fun out u => ∀ b, L.bound? = some b → Outcome.SpansBits b.data 0 t out u)
        fun b hb => hspans _ _ _ _ (ht.2.ready hb)).bind fun out u out' u' hu => ?_
      obtain ⟨hout, hu⟩ := hu
      obtain ⟨atom, error?⟩ := out
      rcases hu with ⟨⟨b, hb⟩, e, rfl⟩ | hstray | ⟨⟨hatom, herror⟩, halike⟩
      · exact .failed hb _ _
      · obtain ⟨b, hb, -⟩ := id hstray
        cases error? with
        | some e => exact .failed hb _ _
        | none =>
          refine Together.left (spansBits_loadBitFields (hspans b.data) frames (f := f.push atom) hgroup
            hright _ _ fields (hout b hb).advances.ready) fun _ _ _ _ hrest => ?_
          exact .inr (.inl (hstray.advance hrest.advances))
      · obtain ⟨atom', error?'⟩ := out'
        cases herror
        have hnew := Frame.rename_push_of hf hatom
        cases error? with
        | some e => exact Together.pure (.alike (Frame.matches_failed hnew _) halike)
        | none =>
          have hbits : atom.bits = atom'.bits := bits_of_rename hatom
          dsimp only
          rw [hbits]
          exact ih (f := f.push atom) hnew hgroup hright _ _ halike

/-- After an element that could not be completed a terminated array fails, or a warning says that it
was found to end with its source. -/
theorem ends_dropBits (a : Atom κ) (frames : List (Frame κ)) (f : Frame κ) (index : Nat) (e : Error)
    (s : BitLoadState κ) :
    Ends (do
        if !e.isConsume then return ⟨f.plug a, some (e.within [Path.index index])⟩
        BitLoadM.ofLedger (LedgerM.release a)
        if ← BitLoadM.bounded then
          BitLoadM.ofLedger (LedgerM.warn (.unterminatedArray (Place.path ⟨f.close, frames⟩) index))
          return (⟨f.close.ready, none⟩ : Outcome κ)
        return ⟨f.close, some (e.within [Path.index index])⟩) s
      fun out t => (∃ e, out.error? = some e)
        ∨ s.base.ledger.unterminated < t.base.ledger.unterminated := by
  split
  · exact .inl ⟨_, rfl⟩
  · have hrelease : Ends (BitLoadM.ofLedger (LedgerM.release a)) s fun _ t =>
        t.base.ledger.unterminated = s.base.ledger.unterminated :=
      Ledger.unterminated_release s.base.ledger a
    refine hrelease.bind fun _ t ht => ?_
    have hsize : Ends (BitLoadM.bounded : BitLoadM κ Bool) t fun _ u => u = t := rfl
    refine hsize.bind fun known u hu => ?_
    subst hu
    split
    · refine .inr ?_
      show _ < (u.base.ledger.warn _).unterminated
      rw [Ledger.unterminated_warn_array, ht]
      exact Nat.lt_succ_self _
    · exact .inl ⟨_, rfl⟩

/-- Both fail or drop the element that could not be completed. -/
theorem together_dropBits {f f' : Frame κ} (hf : f.rename mark = f'.rename mark)
    {frames frames' : List (Frame κ)} {a a' : Atom κ} (ha : a.rename mark = a'.rename mark)
    (index : Nat) (e : Error) (h : s.Alike L mark s') :
    Together (do
        if !e.isConsume then return ⟨f.plug a, some (e.within [Path.index index])⟩
        BitLoadM.ofLedger (LedgerM.release a)
        if ← BitLoadM.bounded then
          BitLoadM.ofLedger (LedgerM.warn (.unterminatedArray (Place.path ⟨f.close, frames⟩) index))
          return (⟨f.close.ready, none⟩ : Outcome κ)
        return ⟨f.close, some (e.within [Path.index index])⟩)
      (do
        if !e.isConsume then return ⟨f'.plug a', some (e.within [Path.index index])⟩
        BitLoadM.ofLedger (LedgerM.release a')
        if ← BitLoadM.bounded then
          BitLoadM.ofLedger (LedgerM.warn (.unterminatedArray (Place.path ⟨f'.close, frames'⟩) index))
          return (⟨f'.close.ready, none⟩ : Outcome κ)
        return ⟨f'.close, some (e.within [Path.index index])⟩) s s' (Outcome.BitsAlike L mark) := by
  rcases hbound : L.bound? with _ | b
  · split
    · exact Together.pure (.alike ⟨Frame.rename_plug_of hf ha, rfl⟩ h)
    · have hrelease : Together (BitLoadM.ofLedger (LedgerM.release a))
          (BitLoadM.ofLedger (LedgerM.release a')) s s' fun _ t _ t' => t.Alike L mark t' :=
        ⟨⟨h.base.view, h.base.handles.release ha, (fun b hb => by cases hbound.symm.trans hb)⟩, h.reader,
          h.next⟩
      refine hrelease.bind fun _ t _ t' ht => ?_
      have hsize : Together BitLoadM.bounded BitLoadM.bounded t t' fun known u known' u' =>
          known = known' ∧ u = t ∧ u' = t' :=
        ⟨congrArg Option.isSome (L.size hbound (L.like_of_stands ht.base.view)), rfl, rfl⟩
      refine hsize.bind fun known u known' u' hu => ?_
      obtain ⟨rfl, rfl, rfl⟩ := hu
      split
      · have hwarned : u.base.ledger.InStep mark u'.base.ledger := ht.base.handles
        exact .alike (Frame.matches_done hf) ⟨⟨ht.base.view, hwarned, fun b hb =>
          by cases hbound.symm.trans hb⟩, ht.reader, ht.next⟩
      · exact .alike (Frame.matches_failed hf _) ht
  · refine Together.left (ends_dropBits a frames f index e s) fun out t _ _ ht => ?_
    rcases ht with herror | hmore
    · exact .inl ⟨⟨b, hbound⟩, herror⟩
    · exact .inr (.inl ⟨b, hbound, .inl (h.base.quiet b hbound ▸ hmore)⟩)

theorem together_loadBitElements (hrules : env.rules.SeeOnly mark)
    (hspans : ∀ data, SpansBits data part) (hpart : BitsLoadedAlike mark part)
    (element : BitLayout κ) (shape : BitShape κ) {frames frames' : List (Frame κ)}
    (hframes : frames.map (Frame.rename mark) = frames'.map (Frame.rename mark)) (budget : Nat)
    {f f' : Frame κ} (hf : f.rename mark = f'.rename mark) (hgroup : f.content = .group)
    (hright : f.right = []) (index cursor : Nat) (h : s.Alike L mark s') :
    Together (loadBitElements env part element shape frames budget f index cursor)
      (loadBitElements env part element shape frames' budget f' index cursor) s s'
      (Outcome.BitsAlike L mark) := by
  induction budget generalizing f f' index cursor s s' with
  | zero =>
    rw [loadBitElements, loadBitElements]
    split
    · exact Together.pure (.alike (Frame.matches_done hf) h)
    · exact Together.pure (.alike (Frame.matches_failed hf _) h)
  | succ budget ih =>
    rw [loadBitElements, loadBitElements]
    split
    · exact Together.pure (.alike (Frame.matches_done hf) h)
    · refine (BitLoadM.together_spawn h _ _ _).bind fun blank t blank' t' ht => ?_
      refine ((hpart (Frame.rename_cons_of hf hframes) ht.1 ht.2).andLeft
        (p := fun out u => ∀ b, L.bound? = some b → Outcome.SpansBits b.data 0 t out u)
        fun b hb => hspans _ _ _ _ (ht.2.ready hb)).bind fun out u out' u' hu => ?_
      obtain ⟨hout, hu⟩ := hu
      obtain ⟨atom, error?⟩ := out
      cases error? with
      | none =>
        rcases hu with ⟨-, e, herror⟩ | hstray | ⟨⟨hatom, herror⟩, halike⟩
        · cases herror
        · obtain ⟨b, hb, -⟩ := id hstray
          dsimp only
          split
          · exact .inr (.inl hstray)
          · refine Together.left (spansBits_loadBitElements (hspans b.data) element shape frames budget
              (f := f.push atom) hgroup hright _ _ (hout b hb).advances.ready) fun _ _ _ _ hrest => ?_
            exact .inr (.inl (hstray.advance hrest.advances))
        · obtain ⟨atom', error?'⟩ := out'
          cases herror
          have hbits : atom.bits = atom'.bits := bits_of_rename hatom
          have haccepts : shape.accepts env (index + 1) ⟨atom, f :: frames⟩ =
              shape.accepts env (index + 1) ⟨atom', f' :: frames'⟩ := by
            cases shape with
            | counted count => rfl
            | terminated rule =>
              exact hrules.accepts (Place.rename_of hatom (Frame.rename_cons_of hf hframes))
          dsimp only
          rw [haccepts, hbits]
          split
          · refine Together.pure (.alike ⟨?_, rfl⟩ halike)
            rw [rename_ready, rename_ready, Frame.rename_plug_of hf hatom]
          · exact ih (f := f.push atom) (Frame.rename_push_of hf hatom) hgroup hright _ _ halike
      | some e =>
        cases shape with
        | counted count =>
          rcases hu with ⟨⟨b, hb⟩, -⟩ | ⟨b, hb, -⟩ | ⟨⟨hatom, herror⟩, halike⟩
          · exact .failed hb _ _
          · exact .failed hb _ _
          · obtain ⟨atom', error?'⟩ := out'
            cases herror
            exact Together.pure (.alike ⟨Frame.rename_plug_of hf hatom, rfl⟩ halike)
        | terminated rule =>
          have hlost (b : Bound) (hb : L.bound? = some b) (out : Outcome κ) (v : BitLoadState κ)
              (out' : Outcome κ) (v' : BitLoadState κ) (hv : (∃ e, out.error? = some e)
                ∨ u.base.ledger.unterminated < v.base.ledger.unterminated) :
              out.BitsAlike L mark v out' v' := by
            have hsame := ht.2.base.quiet b hb
            have hmore := (hout b hb).advances.unterminated
            exact hv.imp (⟨⟨b, hb⟩, ·⟩) fun hlt => .inl ⟨b, hb, .inl (by omega)⟩
          rcases hu with ⟨⟨b, hb⟩, -⟩ | ⟨b, hb, -⟩ | ⟨⟨hatom, herror⟩, halike⟩
          · exact Together.left (ends_dropBits atom frames f index e u) (hlost b hb)
          · exact Together.left (ends_dropBits atom frames f index e u) (hlost b hb)
          · obtain ⟨atom', error?'⟩ := out'
            cases herror
            exact together_dropBits hf hatom index e halike

/-- An atom of bits. -/
theorem together_loadBits (hrules : env.rules.SeeOnly mark) (depth : Nat) :
    BitsLoadedAlike mark (loadBits env depth) := by
  induction depth with
  | zero => exact fun _ ha h => Together.pure (.alike ⟨ha, rfl⟩ h)
  | succ depth ih =>
    intro L frames frames' a a' s s' hframes ha h
    have hspans (data : Bytes) := spansBits_loadBits env data depth
    have hstart := Frame.rename_start_of ha .group
    rw [loadBits, loadBits, layout_of_rename ha, offset_of_rename ha]
    split
    · exact Together.pure (.alike ⟨ha, rfl⟩ h)
    · refine (BitLoadM.together_read _ h).bind fun result t result' t' ht => ?_
      rcases ht with ⟨⟨b, hb⟩, e, rfl⟩ | hstray | ⟨rfl, halike⟩
      · exact .failed hb _ _
      · refine Together.left (p := fun _ u => u = t) ?_ fun _ u _ _ hu => .inr (.inl (hu ▸ hstray))
        split <;> exact rfl
      · split
        · exact Together.pure (.alike ⟨ha, rfl⟩ halike)
        · refine Together.pure (.alike ⟨?_, rfl⟩ halike)
          rw [rename_ready, rename_ready, rename_fill, rename_fill, ha]
    · exact together_loadBitFields hrules hspans ih hframes hstart rfl rfl _ _ _ h
    · exact together_loadBitElements hrules hspans ih _ _ hframes _ hstart rfl rfl _ _ h

end Load

end BinaryLayout
