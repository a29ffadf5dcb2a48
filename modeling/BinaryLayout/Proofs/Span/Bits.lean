import BinaryLayout.Proofs.RoundTrip.Bits

/-!
# How many bits are read

Every bit that is handed out while a host is loaded stands in the view, and an atom of bits has no
more bits than were handed out for it. It has fewer only if an element was dropped at the end of the
source, and then a warning says so. So when no such warning came, the bits handed out are those of
the atom.

## Main definitions

* `Ledger.unterminated`: the arrays that were found to end with their source.
* `BitLoadState.Advances`: reading goes on, and not past the end.
* `Outcome.SpansBits`: an atom has the bits handed out for it.

## Main statements

* `spansBits_loadBits`: an atom of bits that was loaded.
-/

namespace BinaryLayout

variable {κ α : Type} {data : Bytes}

open Atom

/-! ## Arrays that end with their source -/

/-- The warning says that an array ended with its source. -/
def Warning.isUnterminated : Warning → Bool
  | .unterminatedArray .. => true
  | _ => false

namespace Ledger

/-- How many arrays were found to end with their source. -/
def unterminated (l : Ledger κ) : Nat := l.warnings.countP Warning.isUnterminated

mutual

@[simp] theorem warnings_release (l : Ledger κ) : ∀ a : Atom κ, (release a l).warnings = l.warnings
  | .node _ _ parts => warnings_releaseAll l parts

@[simp] theorem warnings_releaseAll (l : Ledger κ) : ∀ as : List (Atom κ),
    (releaseAll as l).warnings = l.warnings
  | [] => rfl
  | a :: as => by rw [releaseAll, warnings_releaseAll _ as, warnings_release l a]

end

@[simp] theorem unterminated_release (l : Ledger κ) (a : Atom κ) :
    (release a l).unterminated = l.unterminated := by
  rw [unterminated, warnings_release, unterminated]

@[simp] theorem unterminated_releaseAll (l : Ledger κ) (as : List (Atom κ)) :
    (releaseAll as l).unterminated = l.unterminated := by
  rw [unterminated, warnings_releaseAll, unterminated]

@[simp] theorem unterminated_take (l : Ledger κ) : l.take.2.unterminated = l.unterminated := by
  obtain ⟨made, vacant, warnings⟩ := l
  cases vacant <;> rfl

theorem unterminated_le_warn (l : Ledger κ) (w : Warning) :
    l.unterminated ≤ (l.warn w).unterminated := by
  rw [unterminated, unterminated, warn, List.countP_cons]
  exact Nat.le_add_right _ _

theorem unterminated_warn_array (l : Ledger κ) (path : Path) (count : Nat) :
    (l.warn (.unterminatedArray path count)).unterminated = l.unterminated + 1 :=
  List.countP_cons_of_pos rfl

end Ledger

/-! ## Default bits -/

section Allocate

variable {env : Env κ} {part : LoadPart (LedgerM κ) κ}

theorem leaves_spawn (name : String) (layout : AtomLayout κ) (offset : Nat) :
    Leaves Ledger.warnings (LedgerM.spawn name layout offset : LedgerM κ (Atom κ)) := fun l => by
  obtain ⟨made, vacant, warnings⟩ := l
  cases vacant <;> rfl

theorem leaves_allocateBitFields (hpart : ∀ frames a, Leaves Ledger.warnings (part frames a))
    (frames : List (Frame κ)) (f : Frame κ) (index cursor : Nat)
    (fields : List (BitField κ (BitLayout κ))) :
    Leaves Ledger.warnings (allocateBitFields env part frames f index cursor fields) := by
  induction fields generalizing f index cursor with
  | nil => exact Leaves.pure _
  | cons field fields ih =>
    rw [allocateBitFields]
    split
    · exact Leaves.pure _
    · refine (leaves_spawn _ _ _).bind fun blank => (hpart _ _).bind fun out => ?_
      dsimp only
      split
      · exact Leaves.pure _
      · exact ih _ _ _

theorem leaves_allocateBitElements (hpart : ∀ frames a, Leaves Ledger.warnings (part frames a))
    (element : BitLayout κ) (frames : List (Frame κ)) (count : Nat) (f : Frame κ)
    (index cursor : Nat) :
    Leaves Ledger.warnings (allocateBitElements part element frames count f index cursor) := by
  induction count generalizing f index cursor with
  | zero => exact Leaves.pure _
  | succ count ih =>
    rw [allocateBitElements]
    refine (leaves_spawn _ _ _).bind fun blank => (hpart _ _).bind fun out => ?_
    dsimp only
    split
    · exact Leaves.pure _
    · exact ih _ _ _

/-- Default bits call for no warning. -/
theorem leaves_allocateBits (env : Env κ) (depth : Nat) (frames : List (Frame κ)) (a : Atom κ) :
    Leaves Ledger.warnings (allocateBits env depth frames a) := by
  induction depth generalizing frames a with
  | zero => exact Leaves.pure _
  | succ depth ih =>
    rw [allocateBits]
    split
    · exact Leaves.pure _
    · have hclear : Leaves Ledger.warnings (LedgerM.clear a) := fun l =>
        Ledger.warnings_releaseAll l a.parts
      refine hclear.bind fun b => ?_
      split
      · exact Leaves.pure _
      · exact leaves_allocateBitFields ih _ _ _ _ _
      · exact leaves_allocateBitElements ih _ _ _ _ _ _

end Allocate

/-! ## Reading bits -/

/-- A read that fails leaves the view where it stands. -/
theorem Reader.stands_of_consume_error {r r' : Reader} {sources sources' : Sources} {amount offset : Nat}
    {e : SourceError} (h : r.Shows data sources) (hoffset : r.Stands offset sources)
    (hread : r.consume sources amount = (.error e, r', sources')) : r'.Stands offset sources' := by
  induction r generalizing r' sources' e with
  | source id =>
    obtain ⟨held, writable, hmemory⟩ := hoffset
    obtain ⟨hresult, hleft⟩ := Sources.consume_memory amount hmemory
    simp only [consume, Prod.mk.injEq] at hread
    obtain ⟨herror, rfl, rfl⟩ := hread
    rw [hresult] at herror
    rw [herror] at hleft
    exact ⟨held, writable, hleft⟩
  | detached held origin cursor =>
    rw [consume] at hread
    split at hread
    · cases hread
    · cases hread
      exact hoffset
  | window inner limit cursor ih =>
    rw [consume] at hread
    split at hread
    · cases hread
      exact hoffset
    · split at hread
      · cases hread
      · rename_i hinner
        cases hread
        have hstands := ih h hoffset hinner
        exact hstands

namespace BitLoadState

/-- Bits are read from a view of the data, and the view stands at the next byte. -/
structure Ready (data : Bytes) (s : BitLoadState κ) : Prop where
  shows : s.base.Shows data
  stands : s.base.Stands s.next

/-- Reading went on from one state to another, and not past the end of the data. -/
structure Advances (data : Bytes) (s t : BitLoadState κ) : Prop where
  ready : t.Ready data
  unterminated : s.base.ledger.unterminated ≤ t.base.ledger.unterminated
  next : s.next ≤ t.next
  within : t.next ≤ max s.next data.length
  /-- Bits are handed out and not taken back. -/
  bits : 8 * s.next + t.pending.length ≤ 8 * t.next + s.pending.length

theorem Advances.refl {s : BitLoadState κ} (hs : s.Ready data) : s.Advances data s :=
  ⟨hs, Nat.le_refl _, Nat.le_refl _, Nat.le_max_left _ _, Nat.le_refl _⟩

theorem Advances.trans {s t u : BitLoadState κ} (hst : s.Advances data t) (htu : t.Advances data u) :
    s.Advances data u := by
  have hwithin := hst.within
  have hfurther := htu.within
  have hbits := hst.bits
  have hmore := htu.bits
  exact ⟨htu.ready, Nat.le_trans hst.unterminated htu.unterminated,
    Nat.le_trans hst.next htu.next, by omega, by omega⟩

end BitLoadState

open BitLoadState

namespace BitLoadM

variable {s : BitLoadState κ}

theorem advances_ofLedger {m : LedgerM κ α} (hs : s.Ready data)
    (hm : ∀ l : Ledger κ, l.unterminated ≤ (m l).2.unterminated) :
    Ends (ofLedger m) s fun _ t => s.Advances data t ∧ s.Hands 0 t :=
  ⟨⟨⟨hs.shows, hs.stands⟩, hm s.base.ledger, Nat.le_refl _, Nat.le_max_left _ _, Nat.le_refl _⟩, rfl⟩

/-- A byte is read where the view stands, or nothing. -/
theorem advances_fetch (hs : s.Ready data) (hnil : s.pending = []) :
    Ends fetch s fun _ t => s.Advances data t := by
  obtain ⟨hshows, hok⟩ := LoadM.shows_next 1 hs.shows hs.stands
  refine ends_fetch ?_
  rw [Ends]
  cases hresult : (LoadM.next 1 s.base).1 with
  | ok bytes =>
    obtain ⟨hlength, hprefix, hstands⟩ := hok bytes hresult
    have hroom := hprefix.length_le
    rw [hlength, List.length_drop] at hroom
    refine ⟨⟨hshows, hstands⟩, Nat.le_refl _, Nat.le_succ _, ?_, ?_⟩
    · show s.next + 1 ≤ max s.next data.length
      omega
    · show 8 * s.next + (s.reader.refill (bytes.headD 0)).pending.length ≤ 8 * (s.next + 1) + s.pending.length
      rw [BitReader.length_pending, BitReader.remaining_refill, hnil]
      omega
  | error e =>
    have hstands := Reader.stands_of_consume_error hs.shows hs.stands (Prod.ext hresult rfl)
    exact ⟨⟨hshows, hstands⟩, Nat.le_refl _, Nat.le_refl _, Nat.le_max_left _ _, Nat.le_refl _⟩

theorem advances_skip {t : BitLoadState κ} (ht : s.Advances data t) (count : Nat) :
    s.Advances data (t.skip count) := by
  refine ⟨⟨ht.ready.shows, ht.ready.stands⟩, ht.unterminated, ht.next, ht.within, ?_⟩
  have hbits := ht.bits
  simp only [pending_skip, next_skip, List.length_drop]
  omega

/-- A field of bits handed out, from what is there already. -/
theorem advances_readFrom (fuel left : Nat) (field : Bitmap) (hfuel : left ≤ fuel) (hs : s.Ready data)
    {done : List Bool} (hfield : field = Bitmap.ofStream s.order done) :
    Ends (readFrom fuel left field) s fun _ t => s.Advances data t := by
  refine (ends_readFrom (fun _ t => s.Advances data t) (fun _ t => s.Advances data t)
    (fun _ t => s.Advances data t) (fun _ t _ ht hnone => ?_) (fun _ _ ht _ => ht)
    (fun _ _ count _ _ _ ht => advances_skip ht count) fuel left hfuel rfl hfield (.refl hs)).mono
    fun result t ht => ?_
  · refine (advances_fetch ht.ready (t.pending_eq_nil.2 hnone)).mono fun result u hu => ?_
    cases result <;> exact ht.trans hu
  · cases result with
    | ok value => exact ht.choose_spec.2.2.2
    | error e => exact ht

/-- A field of bits handed out. -/
theorem advances_read (width : Nat) (hs : s.Ready data) :
    Ends (read width) s fun result t => s.Advances data t ∧ ∀ value, result = .ok value →
      value.width = width ∧ s.Hands width t := by
  have hempty : Bitmap.empty = Bitmap.ofStream s.order [] := by cases s.order <;> rfl
  refine ((advances_readFrom width width .empty (Nat.le_refl _) hs hempty).and (hands_read width s)).mono
    fun result t ht => ⟨ht.1, fun value hvalue => ?_⟩
  subst hvalue
  exact ht.2

end BitLoadM

/-! ## Atoms of bits -/

/-- What an atom of bits was made into that had `had` bits before: no more were added than were handed
out, and no fewer if no array was found to end with its source. -/
structure Outcome.SpansBits (data : Bytes) (had : Nat) (s : BitLoadState κ) (out : Outcome κ)
    (t : BitLoadState κ) : Prop where
  advances : s.Advances data t
  counted : out.error? = none →
    8 * s.next + t.pending.length + out.atom.bitCount ≤ 8 * t.next + s.pending.length + had
  exact : out.error? = none → t.base.ledger.unterminated = s.base.ledger.unterminated →
    8 * t.next + s.pending.length + had ≤ 8 * s.next + t.pending.length + out.atom.bitCount

namespace Outcome.SpansBits

variable {had had' count : Nat} {s t u : BitLoadState κ} {out : Outcome κ}

theorem failed (h : s.Advances data t) (a : Atom κ) (e : Error) :
    Outcome.SpansBits data had s ⟨a, some e⟩ t :=
  ⟨h, nofun, nofun⟩

/-- An atom that got the bits handed out. -/
theorem done (h : s.Advances data t) (hhands : s.Hands count t) {a : Atom κ}
    (ha : a.bitCount = had + count) : Outcome.SpansBits data had s ⟨a, none⟩ t := by
  rw [Hands] at hhands
  refine ⟨h, fun _ => ?_, fun _ _ => ?_⟩ <;> rw [ha] <;> omega

/-- Bits were handed out for a part before. -/
theorem after {part : Outcome κ} (hpart : part.SpansBits data 0 s t) (herror : part.error? = none)
    (hhad : had' = had + part.atom.bitCount) (h : out.SpansBits data had' t u) :
    out.SpansBits data had s u := by
  have hbefore := hpart.counted herror
  have hunterminated := hpart.advances.unterminated
  have hmore := h.advances.unterminated
  refine ⟨hpart.advances.trans h.advances, fun hnone => ?_, fun hnone hsame => ?_⟩
  · have hafter := h.counted hnone
    omega
  · have hall := hpart.exact herror (by omega)
    have hrest := h.exact hnone (by omega)
    omega

/-- Nothing was handed out before. -/
theorem ofStart (hst : s.Advances data t) (hhands : s.Hands 0 t) (h : out.SpansBits data had t u) :
    out.SpansBits data had s u := by
  rw [Hands] at hhands
  have hunterminated := hst.unterminated
  have hmore := h.advances.unterminated
  refine ⟨hst.trans h.advances, fun hnone => ?_, fun hnone hsame => ?_⟩
  · have hcounted := h.counted hnone
    omega
  · have hexact := h.exact hnone (by omega)
    omega

end Outcome.SpansBits

/-- What blank atoms of bits are made into. -/
def SpansBits (data : Bytes) (part : LoadPart (BitLoadM κ) κ) : Prop :=
  ∀ frames a s, s.Ready data → Ends (part frames a) s (Outcome.SpansBits data 0 s)

/-- A complete atom of bits. -/
theorem Frame.spansBits (f : Frame κ) {s : BitLoadState κ} (hs : s.Ready data) :
    Outcome.SpansBits data f.close.bitCount s ⟨f.close.ready, none⟩ s :=
  .done (.refl hs) (show s.Hands 0 s from rfl) (bitCount_ready _)

section Load

variable {env : Env κ} {part : LoadPart (BitLoadM κ) κ}

/-- A new atom of bits takes no bits. -/
theorem BitLoadM.advances_spawn (name : String) (layout : AtomLayout κ) (offset : Nat)
    {s : BitLoadState κ} (hs : s.Ready data) :
    Ends (BitLoadM.ofLedger (LedgerM.spawn name layout offset)) s fun _ t =>
      s.Advances data t ∧ s.Hands 0 t :=
  advances_ofLedger hs fun l => Nat.le_of_eq (Ledger.unterminated_take l).symm

theorem spansBits_loadBitFields (hpart : SpansBits data part) (frames : List (Frame κ))
    {f : Frame κ} (hf : f.content = .group) (hright : f.right = []) (index cursor : Nat)
    (fields : List (BitField κ (BitLayout κ))) {s : BitLoadState κ} (hs : s.Ready data) :
    Ends (loadBitFields env part frames f index cursor fields) s
      (Outcome.SpansBits data f.close.bitCount s) := by
  induction fields generalizing f index cursor s with
  | nil => exact Ends.pure (f.spansBits hs)
  | cons field fields ih =>
    rw [loadBitFields]
    split
    · exact Ends.pure (.failed (.refl hs) _ _)
    · rename_i layout _
      refine (BitLoadM.advances_spawn field.name (.bits layout) cursor hs).bind fun blank t ht => ?_
      refine (hpart _ _ _ ht.1.ready).bind fun out u hu => ?_
      have hout := hu.ofStart ht.1 ht.2
      dsimp only
      split
      · exact Ends.pure (.failed hout.advances _ _)
      · rename_i herror
        refine (ih (f := f.push out.atom) hf hright _ _ hout.advances.ready).mono fun _ _ hrest => ?_
        exact hout.after herror (Frame.bitCount_push hf hright _) hrest

/-- The element that could not be completed is dropped, and with it the bits handed out for it. -/
theorem spansBits_loadBitElements (hpart : SpansBits data part) (element : BitLayout κ)
    (shape : BitShape κ) (frames : List (Frame κ)) (budget : Nat) {f : Frame κ}
    (hf : f.content = .group) (hright : f.right = []) (index cursor : Nat) {s : BitLoadState κ}
    (hs : s.Ready data) :
    Ends (loadBitElements env part element shape frames budget f index cursor) s
      (Outcome.SpansBits data f.close.bitCount s) := by
  induction budget generalizing f index cursor s with
  | zero =>
    rw [loadBitElements]
    split
    · exact Ends.pure (f.spansBits hs)
    · exact Ends.pure (.failed (.refl hs) _ _)
  | succ budget ih =>
    rw [loadBitElements]
    split
    · exact Ends.pure (f.spansBits hs)
    · refine (BitLoadM.advances_spawn (toString index) (.bits element) cursor hs).bind fun blank t ht => ?_
      refine (hpart _ _ _ ht.1.ready).bind fun out u hu => ?_
      have hout := hu.ofStart ht.1 ht.2
      split
      · rename_i herror _
        have hpush := Frame.bitCount_push hf hright out.atom
        split
        · refine Ends.pure (hout.after herror hpush ?_)
          exact (f.push out.atom).spansBits hout.advances.ready
        · refine (ih (f := f.push out.atom) hf hright _ _ hout.advances.ready).mono fun _ _ hrest => ?_
          exact hout.after herror hpush hrest
      · exact Ends.pure (.failed hout.advances _ _)
      · split
        · exact Ends.pure (.failed hout.advances _ _)
        · have hrelease : Ends (BitLoadM.ofLedger (LedgerM.release out.atom)) u fun _ v =>
              u.Advances data v ∧ u.Hands 0 v :=
            BitLoadM.advances_ofLedger hout.advances.ready fun l =>
              Nat.le_of_eq (l.unterminated_release out.atom).symm
          refine hrelease.bind fun _ v hv => ?_
          have hbounded : Ends (BitLoadM.bounded : BitLoadM κ Bool) v fun _ w => w = v := rfl
          refine hbounded.bind fun known w hw => ?_
          subst hw
          have hhere := hout.advances.trans hv.1
          split
          · have hwarn : Ends (BitLoadM.ofLedger (LedgerM.warn
                (.unterminatedArray (Place.path ⟨f.close, frames⟩) index))) w fun _ x =>
                w.Advances data x ∧ x.base.ledger.unterminated = w.base.ledger.unterminated + 1 :=
              ⟨(BitLoadM.advances_ofLedger hhere.ready fun l => l.unterminated_le_warn _).1,
                w.base.ledger.unterminated_warn_array _ _⟩
            refine hwarn.bind fun _ x hx => Ends.pure ⟨hhere.trans hx.1, fun _ => ?_, fun _ hsame => ?_⟩
            · have hbits := (hhere.trans hx.1).bits
              rw [bitCount_ready]
              omega
            · have hbefore := hhere.unterminated
              omega
          · exact Ends.pure (.failed hhere _ _)

/-- An atom of bits has the bits handed out for it. -/
theorem spansBits_loadBits (env : Env κ) (data : Bytes) (depth : Nat) :
    SpansBits data (loadBits env depth) := by
  induction depth with
  | zero => exact fun _ _ _ hs => Ends.pure (.failed (.refl hs) _ _)
  | succ depth ih =>
    intro frames a s hs
    have hempty : (a.fill .group []).frame.close.bitCount = 0 := by
      rw [close_frame]
      rfl
    rw [loadBits]
    split
    · exact Ends.pure (.failed (.refl hs) _ _)
    · rename_i bits signed _
      refine (BitLoadM.advances_read bits hs).bind fun result t ht => ?_
      cases result with
      | error e => exact Ends.pure (.failed ht.1 _ _)
      | ok value =>
        obtain ⟨hwidth, hhands⟩ := ht.2 value rfl
        refine Ends.pure (.done ht.1 hhands ?_)
        rw [bitCount_ready, Nat.zero_add]
        exact hwidth
    · rw [← hempty]
      exact spansBits_loadBitFields ih frames rfl rfl _ _ _ hs
    · rw [← hempty]
      exact spansBits_loadBitElements ih _ _ frames _ rfl rfl _ _ hs

end Load

end BinaryLayout
