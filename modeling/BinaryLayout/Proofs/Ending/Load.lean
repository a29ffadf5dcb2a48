import BinaryLayout.Proofs.Ending.Bits
import BinaryLayout.Proofs.Span.Load

/-!
# Loading up to a border

When no field inside a layout has its size forced, an atom that could not be loaded for want of bytes
wanted some past the end of the view. The windows that block arrays and unions open do not hide this:
an element of a block array that runs out of bytes is dropped, unless its size is known beforehand, and
then it is only loaded where it fits; and the members of a union fit its bytes.

So two things are shown together of every layout: what it wants when bytes run out, and, if its size is
known beforehand, that it has this size and wants nothing after it.

## Main definitions

* `Border.Covers`: a place where a part is loaded.
* `Outcome.Heeds`: what an atom of bytes was made into.

## Main statements

* `heeds_load`: an atom of bytes that was loaded.
-/

namespace BinaryLayout

variable {κ α : Type}

open Atom

/-- Parts of an atom at `offset` go up to `cursor`, inside the view. -/
structure Border.Covers (B : Border) (offset cursor : Nat) : Prop where
  start : B.start ≤ cursor
  word : cursor < pow2 64
  within : cursor ≤ max offset B.stop

/-- What an atom at `offset` was made into, when its size is known to be so much. -/
structure Outcome.Heeds (B : Border) (offset : Nat) (known? : Option Nat) (out : Outcome κ) : Prop where
  within : out.error? = none → offset + out.atom.size ≤ max offset B.stop
  overruns : ∀ e, out.error? = some e → e.Overruns B.stop
  size : ∀ size, known? = some size → out.error? = none → out.atom.size = size
  wants : ∀ size, known? = some size → offset + size < pow2 64 →
    ∀ e, out.error? = some e → e.Wants (offset + size)

variable {B : Border}

/-- The place after a part that stays inside the view. -/
theorem Border.Covers.next {offset cursor size : Nat} (h : B.Covers offset cursor)
    (hsize : cursor + size ≤ max cursor B.stop) :
    spanEnd cursor size = .ok (cursor + size) ∧ B.Covers offset (cursor + size) := by
  have hstop := B.word
  have hwithin := h.within
  have hword := h.word
  exact ⟨if_pos (by omega), Nat.le_trans h.start (Nat.le_add_right _ _), by omega, by omega⟩

/-- A span that leaves the address space has no known end. -/
theorem le_of_spanEnd {offset amount : Nat} {e : Error} (h : spanEnd offset amount = .error e) :
    pow2 64 ≤ offset + amount := by
  rw [spanEnd] at h
  split at h
  · cases h
  · exact Nat.le_of_not_lt ‹_›

namespace Outcome.Heeds

variable {offset cursor : Nat} {known? partKnown? : Option Nat} {out : Outcome κ}

/-- A failure for another reason than a want of bytes. -/
theorem other (a : Atom κ) {e : Error} (he : e.isConsume = false) :
    Outcome.Heeds B offset known? ⟨a, some e⟩ :=
  ⟨nofun, fun _ h => by cases h; exact Error.overruns_of_other he, fun _ _ => nofun,
    fun _ _ _ _ h => by cases h; exact Error.wants_of_other he⟩

/-- A read that failed. -/
theorem ofRead {e : Error} {t : LoadState κ} (h : ReadUpTo B offset known? (.error e) t) (a : Atom κ) :
    Outcome.Heeds B offset known? ⟨a, some e⟩ :=
  ⟨nofun, fun _ h' => by cases h'; exact h.overruns e rfl, fun _ _ => nofun,
    fun size hsize _ _ h' => by cases h'; exact h.wants size hsize e rfl⟩

/-- A part failed. -/
theorem ofPart {e : Error} (h : out.Heeds B cursor partKnown?) (herror : out.error? = some e)
    (a : Atom κ) (outer : Path) (hknown : ∀ size, known? = some size →
      ∃ each, partKnown? = some each ∧ cursor + each ≤ offset + size) :
    Outcome.Heeds B offset known? ⟨a, some (e.within outer)⟩ := by
  refine ⟨nofun, fun _ h' => ?_, fun _ _ => nofun, fun size hsize hword _ h' => ?_⟩
  · cases h'
    exact (h.overruns e herror).within outer
  · cases h'
    obtain ⟨each, heach, hle⟩ := hknown size hsize
    exact ((h.wants each heach (Nat.lt_of_le_of_lt hle hword) e herror).within outer).mono hle

end Outcome.Heeds

/-- A complete atom. -/
theorem Frame.Spanning.heeds {f : Frame κ} {cursor : Nat} (hf : f.Spanning cursor)
    (hcovers : B.Covers f.info.offset cursor) {known? : Option Nat}
    (hknown : ∀ size, known? = some size → f.info.offset + size = cursor) :
    Outcome.Heeds B f.info.offset known? ⟨f.close.ready, none⟩ := by
  have hsize : f.info.offset + f.close.ready.size = cursor := by rw [size_ready, hf.size]
  refine ⟨fun _ => Nat.le_trans (Nat.le_of_eq hsize) hcovers.within, nofun, fun size h _ => ?_,
    fun _ _ _ => nofun⟩
  have hsame := hknown size h
  show f.close.ready.size = size
  omega

section Load

variable {env : Env κ}

/-- What blank atoms of bytes are made into. -/
def Heeding (rules : Rules κ) (part : LoadPart (LoadM κ) κ) : Prop :=
  ∀ (B : Border) layout frames a s, layout.Unforced rules → a.IsBlank → a.info.layout = .bytes layout →
    B.start ≤ a.info.offset → a.info.offset < pow2 64 → B.Has s.view →
    Ends (part frames a) s fun out t =>
      B.Has t.view ∧ out.Heeds B a.info.offset layout.staticSize

namespace LoadM

variable {s : LoadState κ}

theorem bordered_spawn (name : String) (layout : AtomLayout κ) (offset : Nat) (hs : B.Has s.view) :
    Ends (ofLedger (LedgerM.spawn name layout offset)) s fun a t =>
      a.IsBlank ∧ a.info.layout = layout ∧ a.info.offset = offset ∧ B.Has t.view :=
  ⟨isBlank_blank _ _ _ _, rfl, rfl, hs⟩

/-- A computation on handles alone. -/
theorem bordered_ofLedger (m : LedgerM κ α) (hs : B.Has s.view) :
    Ends (ofLedger m) s fun _ t => B.Has t.view :=
  hs

/-- What is loaded through a window is loaded from the view that it narrows. -/
theorem bordered_inWindow {m : LoadM κ α} {post : α → Prop} (limit : Nat)
    (h : ∀ s : LoadState κ, (B.window limit).Has s.view →
      Ends m s fun a t => (B.window limit).Has t.view ∧ post a) (hs : B.Has s.view) :
    Ends (inWindow limit m) s fun a t => B.Has t.view ∧ post a := by
  obtain ⟨⟨w, cursor, hview, hhas⟩, hpost⟩ :=
    h { s with reader := .window s.reader limit 0 } ⟨s.view, 0, rfl, hs⟩
  refine ⟨?_, hpost⟩
  rw [LoadState.view, View.window, Prod.mk.injEq] at hview
  show B.Has (innermost (m { s with reader := .window s.reader limit 0 }).2.reader,
    (m { s with reader := .window s.reader limit 0 }).2.sources)
  rw [hview.1, hview.2]
  exact hhas

/-- What is loaded from detached bytes leaves the view alone. -/
theorem bordered_fromBytes {m : LoadM κ α} {post : α → Prop} (bytes : Bytes) (origin : Nat)
    (hword : origin + bytes.toArray.size < pow2 64)
    (h : ∀ s : LoadState κ, (Border.detached bytes.toArray origin hword).Has s.view →
      Ends m s fun a t => (Border.detached bytes.toArray origin hword).Has t.view ∧ post a) :
    Ends (fromBytes bytes origin m) s fun a t => t.view = s.view ∧ post a :=
  ⟨rfl, (h ⟨s.ledger, [], .ofBytes bytes origin⟩ ⟨origin, rfl⟩).2⟩

end LoadM

/-! ## Atoms without parts -/

theorem heeds_loadLeaf {layout : Layout κ} (frames : List (Frame κ)) {a : Atom κ}
    (hbits : a.isBits = false) (htail : a.info.tail = []) (hstart : B.start ≤ a.info.offset)
    {s : LoadState κ} (hs : B.Has s.view) :
    Ends (loadLeaf env layout frames a) s fun out t =>
      B.Has t.view ∧ out.Heeds B a.info.offset layout.staticSize := by
  rw [loadLeaf]
  refine (LoadM.readUpTo_readLeaf env.config frames layout hs hstart).bind fun result t ht => ?_
  split
  · exact Ends.pure ⟨ht.has, .ofRead ht a⟩
  · rename_i raw
    have hdone : Outcome.Heeds B a.info.offset layout.staticSize ⟨((a.mapInfo fun info =>
        { info with undecodable := layout.isUndecodable raw }).withBytes layout raw).ready, none⟩ := by
      refine ⟨fun _ => ?_, (fun _ h => by cases h), fun size hsize _ => ?_, fun _ _ _ _ h => by cases h⟩ <;>
        rw [size_withBytes hbits htail]
      · exact ht.within raw rfl
      · exact ht.length size hsize raw rfl
    dsimp only
    split
    · exact (LoadM.bordered_ofLedger _ ht.has).bind fun _ u hu => Ends.pure ⟨hu, hdone⟩
    · exact Ends.pure ⟨ht.has, hdone⟩

/-! ## Arrays -/

variable {part : LoadPart (LoadM κ) κ}

theorem heeds_loadCounted (hpart : Heeding env.rules part) {element : Layout κ}
    (helement : element.Unforced env.rules) (frames : List (Frame κ)) (count : Nat) {f : Frame κ}
    {cursor : Nat} (hf : f.Spanning cursor) (hcovers : B.Covers f.info.offset cursor) (index : Nat)
    {known? : Option Nat} (hknown : ∀ size, known? = some size →
      ∃ each, element.staticSize = some each ∧ f.info.offset + size = cursor + each * count)
    {s : LoadState κ} (hs : B.Has s.view) :
    Ends (loadCounted part element frames count f index cursor) s fun out t =>
      B.Has t.view ∧ out.Heeds B f.info.offset known? := by
  induction count generalizing f index cursor s with
  | zero =>
    refine Ends.pure ⟨hs, hf.heeds hcovers fun size hsize => ?_⟩
    obtain ⟨each, -, hsum⟩ := hknown size hsize
    exact hsum
  | succ count ih =>
    rw [loadCounted]
    refine (LoadM.bordered_spawn (toString index) (.bytes element) cursor hs).bind fun blank t ht => ?_
    obtain ⟨hempty, hlayout, hoffset, ht⟩ := ht
    subst hoffset
    refine (hpart B element _ _ t helement hempty hlayout hcovers.start hcovers.word ht).bind
      fun out u hu => ?_
    obtain ⟨hu, hout⟩ := hu
    dsimp only
    split
    · rename_i e herror
      refine Ends.pure ⟨hu, hout.ofPart herror _ _ fun size hsize => ?_⟩
      obtain ⟨each, heach, hsum⟩ := hknown size hsize
      exact ⟨each, heach, by rw [hsum, Nat.mul_succ]; omega⟩
    · rename_i herror
      obtain ⟨hspan, hnext⟩ := hcovers.next (hout.within herror)
      rw [hspan]
      refine ih (hf.push out.atom) hnext (index + 1) (fun size hsize => ?_) hu
      obtain ⟨each, heach, hsum⟩ := hknown size hsize
      refine ⟨each, heach, ?_⟩
      show f.info.offset + size = _
      rw [hsum, hout.size each heach herror, Nat.mul_succ]
      omega

/-- An element of a block array has an unknown size, or it is loaded where it fits. -/
theorem fits_of_nextInBlock {element layout : Layout κ} {remaining : Nat}
    (h : nextInBlock element remaining = some layout) :
    element.staticSize = none ∨ ∃ size ≤ remaining, layout.staticSize = some size := by
  rw [nextInBlock] at h
  repeat' split at h
  all_goals cases h
  · exact .inl ‹_›
  · exact .inr ⟨_, ‹_›, ‹_›⟩
  · exact .inr ⟨remaining, Nat.le_refl _, rfl⟩

/-- What the elements of a block array were made into that end at `limit` at the latest. -/
structure BlockOutcome.Heeds (B : Border) (info : Info κ) (limit : Nat) (out : BlockOutcome κ) : Prop where
  spanning : out.error? = none → ∃ g : Frame κ, out.atom = g.close ∧ g.info = info
    ∧ g.Spanning out.cursor
  covers : out.error? = none → B.Covers info.offset out.cursor ∧ out.cursor ≤ limit
  overruns : ∀ e, out.error? = some e → e.Overruns B.stop
  wants : ∀ e, out.error? = some e → e.Wants limit

theorem Frame.Spanning.heedsBlock {f : Frame κ} {cursor limit : Nat} (hf : f.Spanning cursor)
    (hcovers : B.Covers f.info.offset cursor) (hlimit : cursor ≤ limit) :
    BlockOutcome.Heeds B f.info limit ⟨f.close, cursor, none⟩ :=
  ⟨fun _ => ⟨f, rfl, rfl, hf⟩, fun _ => ⟨hcovers, hlimit⟩, nofun, nofun⟩

theorem heeds_loadBlockElements (hpart : Heeding env.rules part) {element : Layout κ}
    (helement : element.Unforced env.rules) {limit : Nat} (hword : limit < pow2 64)
    (frames : List (Frame κ)) (fuel : Nat) {f : Frame κ} {cursor : Nat} (hf : f.Spanning cursor)
    (hcovers : B.Covers f.info.offset cursor) (hlimit : cursor ≤ limit) (index : Nat)
    {s : LoadState κ} (hs : B.Has s.view) :
    Ends (loadBlockElements part element limit frames fuel f index cursor) s fun out t =>
      B.Has t.view ∧ out.Heeds B f.info limit := by
  induction fuel generalizing f index cursor s with
  | zero => exact Ends.pure ⟨hs, hf.heedsBlock hcovers hlimit⟩
  | succ fuel ih =>
    rw [loadBlockElements]
    split
    · exact Ends.pure ⟨hs, hf.heedsBlock hcovers hlimit⟩
    · rename_i hroom
      split
      · exact Ends.pure ⟨hs, hf.heedsBlock hcovers hlimit⟩
      · rename_i layout hnext
        refine (LoadM.bordered_spawn (toString index) (.bytes layout) cursor hs).bind fun blank t ht => ?_
        obtain ⟨hempty, hlayout, hoffset, ht⟩ := ht
        subst hoffset
        have hwindow := LoadM.bordered_inWindow limit (fun s hs => hpart (B.window limit) layout
          (f :: frames) blank s (helement.nextInBlock hnext) hempty hlayout hcovers.start hcovers.word hs) ht
        refine hwindow.bind fun out u hu => ?_
        obtain ⟨hu, hout⟩ := hu
        split
        · rename_i e herror
          split
          · exact (LoadM.bordered_ofLedger _ hu).bind fun _ v hv =>
              Ends.pure ⟨hv, hf.heedsBlock hcovers hlimit⟩
          · rename_i hkept
            have hwants : e.Wants limit := by
              rcases fits_of_nextInBlock hnext with hnone | ⟨size, hfits, hsize⟩
              · exact Error.wants_of_other (by simpa [hnone] using hkept)
              · exact (hout.wants size hsize (by omega) e herror).mono (by omega)
            refine Ends.pure ⟨hu, (fun h => by cases h), (fun h => by cases h), fun _ h => ?_,
              fun _ h => ?_⟩ <;> cases h
            · exact ((hout.overruns e herror).ofWindow hwants).within _
            · exact hwants.within _
        · rename_i herror
          have hwithin : blank.info.offset + out.atom.size
              ≤ max blank.info.offset (min B.stop limit) := hout.within herror
          obtain ⟨hspan, hnew⟩ := hcovers.next (Nat.le_trans hwithin (by omega))
          have hmore : blank.info.offset + out.atom.size ≤ limit := by omega
          dsimp only
          split
          · rename_i hzero
            have hpush := hf.push out.atom
            rw [hzero, Nat.add_zero] at hpush
            exact Ends.pure ⟨hu, hpush.heedsBlock hcovers hlimit⟩
          · rw [hspan]
            exact ih (hf.push out.atom) hnew hmore (index + 1) hu

/-- A block array has all its bytes and no others. -/
theorem heeds_loadBlock (hpart : Heeding env.rules part) {element : Layout κ}
    (helement : element.Unforced env.rules) (extent : Nat) (frames : List (Frame κ)) {a : Atom κ}
    (ha : a.frame.Spanning a.info.offset) (hcovers : B.Covers a.info.offset a.info.offset)
    {s : LoadState κ} (hs : B.Has s.view) :
    Ends (loadBlock part element extent frames a) s fun out t =>
      B.Has t.view ∧ out.Heeds B a.info.offset (some extent) := by
  rw [loadBlock]
  split
  · rename_i e hspan
    refine Ends.pure ⟨hs, (fun h => by cases h), fun _ h => ?_, (fun _ _ h => by cases h),
      fun size h hword => ?_⟩
    · cases h
      exact overruns_of_spanEnd B.word hspan
    · cases h
      exact absurd hword (Nat.not_lt.2 (le_of_spanEnd hspan))
  · rename_i limit hspan
    have hword : limit < pow2 64 := by
      rw [spanEnd] at hspan
      split at hspan
      · cases hspan
        assumption
      · cases hspan
    obtain ⟨rfl, -⟩ := spanEnd_eq hspan
    refine (heeds_loadBlockElements hpart helement hword frames extent ha hcovers
      (Nat.le_add_right _ _) 0 hs).bind fun out t ht => ?_
    obtain ⟨ht, hout⟩ := ht
    split
    · rename_i e herror
      exact Ends.pure ⟨ht, (fun h => by cases h), fun _ h => by cases h; exact hout.overruns e herror,
        (fun _ _ h => by cases h),
        fun _ h _ _ h' => by cases h; cases h'; exact hout.wants e herror⟩
    · rename_i herror
      obtain ⟨g, hatom, hinfo, hg⟩ := hout.spanning herror
      obtain ⟨hgcovers, hglimit⟩ := hout.covers herror
      have hoffset : g.info.offset = a.info.offset := congrArg Info.offset hinfo
      have hcontent := hg.contentSize
      have hsize := hg.size
      have hwithin : out.cursor ≤ max a.info.offset B.stop := hgcovers.within
      rw [hoffset] at hcontent hsize
      rw [hatom]
      split
      · rename_i hfull
        refine Ends.pure ⟨ht, fun _ => ?_, (fun _ h => by cases h), fun _ h _ => ?_,
          fun _ _ _ _ h => by cases h⟩
        · rw [size_ready]
          omega
        · cases h
          rw [size_ready]
          omega
      · rename_i hleft
        refine (LoadM.readUpTo_readAt _ ht hgcovers.start).bind fun result u hu => ?_
        split
        · rename_i e
          refine Ends.pure ⟨hu.has, (fun h => by cases h), fun _ h => ?_, (fun _ _ h => by cases h),
            fun _ h _ _ h' => ?_⟩
          · cases h
            exact hu.overruns e rfl
          · cases h
            cases h'
            exact (hu.wants _ rfl e rfl).mono (by omega)
        · rename_i tail
          have hlength := hu.length _ rfl tail rfl
          have hread := hu.within tail rfl
          refine (LoadM.bordered_ofLedger _ hu.has).bind fun _ v hv => ?_
          refine Ends.pure ⟨hv, fun _ => ?_, (fun _ h => by cases h), fun _ h _ => ?_,
            fun _ _ _ _ h => by cases h⟩
          · rw [size_ready, size_withTail]
            omega
          · cases h
            rw [size_ready, size_withTail]
            omega

theorem heeds_loadOpen (hpart : Heeding env.rules part) {element : Layout κ}
    (helement : element.Unforced env.rules) (rule? : Option κ) (frames : List (Frame κ)) (budget : Nat)
    {f : Frame κ} {cursor : Nat} (hf : f.Spanning cursor) (hcovers : B.Covers f.info.offset cursor)
    (index : Nat) {s : LoadState κ} (hs : B.Has s.view) :
    Ends (loadOpen env part element rule? frames budget f index cursor) s fun out t =>
      B.Has t.view ∧ out.Heeds B f.info.offset none := by
  induction budget generalizing f index cursor s with
  | zero => exact Ends.pure ⟨hs, .other _ rfl⟩
  | succ budget ih =>
    rw [loadOpen]
    refine LoadM.goes_viewEnd.bind fun viewEnd? s' hs' => ?_
    subst hs'
    have hdone (t : LoadState κ) (ht : B.Has t.view) :
        B.Has t.view ∧ Outcome.Heeds B f.info.offset none ⟨f.close.ready, none⟩ :=
      ⟨ht, hf.heeds hcovers fun _ h => by cases h⟩
    split
    · exact Ends.pure (hdone _ hs)
    · refine (LoadM.bordered_spawn (toString index) (.bytes element) cursor hs).bind fun blank t ht => ?_
      obtain ⟨hempty, hlayout, hoffset, ht⟩ := ht
      subst hoffset
      refine (hpart B element _ _ t helement hempty hlayout hcovers.start hcovers.word ht).bind
        fun out u hu => ?_
      obtain ⟨hu, hout⟩ := hu
      split
      · rename_i e herror
        split
        · exact Ends.pure ⟨hu, hout.ofPart herror _ _ fun _ h => by cases h⟩
        · refine (LoadM.bordered_ofLedger _ hu).bind fun _ v hv => ?_
          split
          · exact Ends.pure (hdone v hv)
          · refine LoadM.goes_viewEnd.bind fun viewEnd? w hw => ?_
            subst hw
            split
            · exact (LoadM.bordered_ofLedger _ hv).bind fun _ x hx => Ends.pure (hdone x hx)
            · exact Ends.pure ⟨hv, hout.ofPart herror _ _ fun _ h => by cases h⟩
      · rename_i herror
        obtain ⟨hspan, hnext⟩ := hcovers.next (hout.within herror)
        rw [hspan]
        have hpush := hf.push out.atom
        dsimp only
        split
        · exact Ends.pure ⟨hu, hpush.heeds hnext fun _ h => by cases h⟩
        · exact ih hpush hnext (index + 1) hu

/-! ## Records and unions -/

/-- The sizes of the fields add up. -/
theorem staticSizeOfFields_cons {total size : Nat} {field : Field κ (Layout κ)}
    {fields : List (Field κ (Layout κ))}
    (h : staticSizeOfFields total (field :: fields) = some size) :
    ∃ layout each, field.layout = .given layout ∧ layout.staticSize = some each
      ∧ staticSizeOfFields (total + each) fields = some size := by
  obtain ⟨name, layout | rule, extent?, update?⟩ := field
  · cases extent? with
    | none =>
      rw [staticSizeOfFields] at h
      split at h
      · rename_i each heach
        split at h
        · exact ⟨layout, each, rfl, heach, h⟩
        · cases h
      · cases h
    | some rule =>
      rw [staticSizeOfFields] at h
      cases h
  · rw [staticSizeOfFields] at h
    cases h

/-- The size of some fields goes on from the size before them. -/
theorem le_of_staticSizeOfFields {total size : Nat} {fields : List (Field κ (Layout κ))}
    (h : staticSizeOfFields total fields = some size) : total ≤ size := by
  induction fields generalizing total with
  | nil =>
    cases h
    exact Nat.le_refl _
  | cons field fields ih =>
    obtain ⟨_, each, -, -, hrest⟩ := staticSizeOfFields_cons h
    exact Nat.le_trans (Nat.le_add_right _ _) (ih hrest)

theorem heeds_loadFields (hpart : Heeding env.rules part) (frames : List (Frame κ)) {f : Frame κ}
    {cursor : Nat} (hf : f.Spanning cursor) (hcovers : B.Covers f.info.offset cursor) (index total : Nat)
    {fields : List (Field κ (Layout κ))} (hfields : ∀ field ∈ fields, field.extent? = none
      ∧ ∀ inner, field.layout.Offers env.rules.layout inner → inner.Unforced env.rules)
    {known? : Option Nat} (hknown : ∀ size, known? = some size →
      f.info.offset + total = cursor ∧ staticSizeOfFields total fields = some size)
    {s : LoadState κ} (hs : B.Has s.view) :
    Ends (loadFields env part frames f index cursor fields) s fun out t =>
      B.Has t.view ∧ out.Heeds B f.info.offset known? := by
  induction fields generalizing f index cursor total s with
  | nil =>
    refine Ends.pure ⟨hs, hf.heeds hcovers fun size hsize => ?_⟩
    obtain ⟨hcursor, htotal⟩ := hknown size hsize
    cases htotal
    exact hcursor
  | cons field fields ih =>
    obtain ⟨⟨hextent, hinner⟩, hrest⟩ := List.forall_mem_cons.1 hfields
    rw [loadFields]
    split
    · rename_i e hresolve
      exact Ends.pure ⟨hs, .other _ (by
        rw [Error.isConsume_within]; exact Env.isConsume_resolve hresolve)⟩
    · rename_i layout hresolve
      refine (LoadM.bordered_spawn field.name (.bytes layout) cursor hs).bind fun blank t ht => ?_
      obtain ⟨hempty, hlayout, hoffset, ht⟩ := ht
      subst hoffset
      rw [hextent]
      refine (hpart B layout (f :: frames) blank t (hinner layout (Env.offers_of_resolve hresolve)) hempty
        hlayout hcovers.start hcovers.word ht).bind fun out u hu => ?_
      obtain ⟨hu, hout⟩ := hu
      -- A known size of all fields is one of the first field and one of those after it.
      have hsplit (size : Nat) (h : known? = some size) : f.info.offset + total = blank.info.offset
          ∧ ∃ each, layout.staticSize = some each
            ∧ staticSizeOfFields (total + each) fields = some size := by
        obtain ⟨hcursor, htotal⟩ := hknown size h
        obtain ⟨given, each, hgiven, heach, hmore⟩ := staticSizeOfFields_cons htotal
        rw [hgiven] at hresolve
        cases hresolve
        exact ⟨hcursor, each, heach, hmore⟩
      dsimp only
      split
      · rename_i e herror
        refine Ends.pure ⟨hu, hout.ofPart herror _ _ fun size h => ?_⟩
        obtain ⟨hcursor, each, heach, hmore⟩ := hsplit size h
        have hle := le_of_staticSizeOfFields hmore
        exact ⟨each, heach, by omega⟩
      · rename_i herror
        obtain ⟨hspan, hnext⟩ := hcovers.next (hout.within herror)
        rw [hspan]
        refine ih (hf.push out.atom) hnext (index + 1) (total + out.atom.size) hrest (fun size h => ?_) hu
        obtain ⟨hcursor, each, heach, hmore⟩ := hsplit size h
        rw [hout.size each heach herror]
        exact ⟨by rw [← hcursor, Nat.add_assoc]; rfl, hmore⟩

/-- Members are loaded from the bytes of their union, and they fit. -/
theorem heeds_loadMembers (hpart : Heeding env.rules part) {backing : Bytes} (frames : List (Frame κ))
    {f : Frame κ} (hcontent : f.content = .overlay backing) (hbits : f.info.layout.isBits = false)
    (htail : f.info.tail = []) (hword : f.info.offset + backing.length < pow2 64)
    {members : List (String × Layout κ)} (hmembers : ∀ member ∈ members, member.2.Unforced env.rules
      ∧ ∃ fits ≤ backing.length, member.2.staticSize = some fits)
    (s : LoadState κ) :
    Ends (loadMembers part backing frames f members) s fun out t =>
      t.view = s.view ∧ out.NotShort ∧ (out.error? = none → out.atom.size = backing.length) := by
  induction members generalizing f s with
  | nil =>
    refine Ends.pure ⟨rfl, (fun _ h => by cases h), fun _ => ?_⟩
    rw [size_ready, size, contentSize_of_bytes (a := f.close) hbits, Frame.content_close, hcontent,
      Frame.info_close, htail]
    rfl
  | cons member members ih =>
    obtain ⟨name, layout⟩ := member
    obtain ⟨⟨hlayout, fits, hle, hfits⟩, hrest⟩ := List.forall_mem_cons.1 hmembers
    rw [loadMembers]
    have hspawn : Ends (LoadM.ofLedger (LedgerM.spawn name (.bytes layout) f.info.offset)) s
        fun blank t => blank.IsBlank ∧ blank.info.layout = .bytes layout
          ∧ blank.info.offset = f.info.offset ∧ t.view = s.view :=
      ⟨isBlank_blank _ _ _ _, rfl, rfl, rfl⟩
    refine hspawn.bind fun blank t ht => ?_
    obtain ⟨hempty, hsame, hoffset, ht⟩ := ht
    have hsize : f.info.offset + backing.toArray.size < pow2 64 := by rwa [List.size_toArray]
    have hmember : Ends (LoadM.fromBytes backing f.info.offset (part (f :: frames) blank)) t
        fun out u => u.view = t.view ∧ out.NotShort :=
      LoadM.bordered_fromBytes backing f.info.offset hsize fun s hs => by
        refine (hpart _ layout _ blank s hlayout hempty hsame (Nat.le_of_eq hoffset.symm)
          (by rw [hoffset]; omega) hs).mono fun out u hu => ⟨hu.1, fun e he => ?_⟩
        refine (hu.2.overruns e he).other ((hu.2.wants fits hfits (by rw [hoffset]; omega) e he).mono ?_)
        show blank.info.offset + fits ≤ f.info.offset + backing.toArray.size
        rw [hoffset, List.size_toArray]
        omega
    refine hmember.bind fun out u hu => ?_
    obtain ⟨hu, hout⟩ := hu
    dsimp only
    split
    · rename_i e herror
      refine Ends.pure ⟨hu.trans ht, fun _ h => ?_, fun h => by cases h⟩
      cases h
      rw [Error.isConsume_within]
      exact hout e herror
    · exact (ih (f := f.push out.atom) hcontent hbits htail hword hrest u).mono fun _ _ h =>
        ⟨h.1.trans (hu.trans ht), h.2⟩

theorem heeds_loadUnion (hpart : Heeding env.rules part) {members : List (String × Layout κ)}
    (size : Nat) (hmembers : ∀ member ∈ members, member.2.Unforced env.rules
      ∧ ∃ fits ≤ size, member.2.staticSize = some fits) (frames : List (Frame κ)) {a : Atom κ}
    (hbits : a.isBits = false) (htail : a.info.tail = [])
    (hcovers : B.Covers a.info.offset a.info.offset) {s : LoadState κ} (hs : B.Has s.view) :
    Ends (loadUnion part members size frames a) s fun out t =>
      B.Has t.view ∧ out.Heeds B a.info.offset (some size) := by
  rw [loadUnion]
  refine (LoadM.readUpTo_readAt size hs hcovers.start).bind fun result t ht => ?_
  split
  · exact Ends.pure ⟨ht.has, .ofRead ht a⟩
  · rename_i backing
    have hlength := ht.length size rfl backing rfl
    have hread := ht.within backing rfl
    have hstop := B.word
    have hstart := hcovers.word
    refine (heeds_loadMembers hpart (f := (a.fill (.overlay backing) []).frame) frames rfl hbits htail
      (show a.info.offset + backing.length < pow2 64 by omega) (hlength ▸ hmembers) t).mono fun out u hu => ?_
    obtain ⟨hview, hshort, hsize⟩ := hu
    refine ⟨hview ▸ ht.has, fun herror => ?_, fun e he => Error.overruns_of_other (hshort e he),
      fun n h herror => ?_, fun _ _ _ e he => Error.wants_of_other (hshort e he)⟩
    · rw [hsize herror]
      exact hread
    · cases h
      rw [hsize herror, hlength]

/-! ## Hosts of bits -/

/-- Bits that were read, and how many bytes they are. -/
theorem BitLoadM.heeds_run (depth : Nat) (order : ByteOrder) {offset : Nat} (frames : List (Frame κ))
    {root : Atom κ} {layout : BitLayout κ} (hlayout : root.info.layout = .bits layout) {s : LoadState κ}
    (hs : B.At offset s.view) :
    Ends (BitLoadM.run order offset (loadBits env depth frames root)) s fun result t => B.Has t.view
      ∧ (result.1.error? = none → offset + bytesOfBits (result.1.atom.bitCount + result.2.width)
        ≤ max offset B.stop)
      ∧ (∀ e, result.1.error? = some e → e.Overruns B.stop)
      ∧ (∀ width, layout.staticBits = some width → result.1.error? = none →
        bytesOfBits (result.1.atom.bitCount + result.2.width) = bytesOfBits width)
      ∧ ∀ width, layout.staticBits = some width → ∀ e, result.1.error? = some e →
        e.Wants (offset + bytesOfBits width) := by
  have hheeds := heedsBits_loadBits env depth B layout frames root ⟨s, .new order, offset⟩ hlayout hs
  have hsettles := settles_loadBits env depth frames root 0 ⟨s, .new order, offset⟩
    (.inr ⟨by simp, by simp⟩)
  refine BitLoadM.ends_run ((hheeds.and hsettles).mono fun out t ht => ?_)
  obtain ⟨h, hfits⟩ := ht
  refine ⟨B.has_of_at h.ahead.stands, fun herror => ?_, h.overruns, fun width hwidth herror => ?_,
    fun width hwidth e he => h.asks width hwidth e he _ ?_⟩
  · have hcounted := h.counted herror
    have hwithin := h.ahead.within
    have hlength := t.length_pending
    simp only [BitLoadState.pending_mk, BitReader.pending_new, List.length_nil] at hcounted hwithin
    simp only [BitReader.width_pad, bytesOfBits]
    omega
  · obtain ⟨hcount, hhands⟩ := h.width width hwidth herror
    have hfit := (hfits.aligned herror).fits
    have hlength := t.length_pending
    simp only [Bitmap.Fits, BitReader.width_pad] at hfit
    simp only [BitLoadState.Hands, BitLoadState.pending_mk, BitReader.pending_new, List.length_nil] at hhands
    simp only [BitReader.width_pad, bytesOfBits, hcount]
    omega
  · simp only [BitLoadState.pending_mk, BitReader.pending_new, List.length_nil, bytesOfBits]
    omega

theorem heeds_loadRoot (depth : Nat) (order : ByteOrder) (frames : List (Frame κ)) {a root : Atom κ}
    {layout : BitLayout κ} (hlayout : root.info.layout = .bits layout)
    (hsome : layout.staticBits ≠ some 0) (hbits : a.isBits = false) (htail : a.info.tail = [])
    (hstart : B.start ≤ a.info.offset) {s : LoadState κ} (hs : B.Has s.view) :
    Ends (loadRoot env depth order frames a root) s fun out t => B.Has t.view
      ∧ out.Heeds B a.info.offset (layout.staticBits.map bytesOfBits) := by
  rw [loadRoot]
  refine (LoadM.bordered_seekTo 1 hs hstart).bind fun result t ht => ?_
  obtain ⟨hhas, hat, hrefused⟩ := ht
  split
  · rename_i e
    obtain ⟨hover, hwants⟩ := hrefused e rfl
    refine Ends.pure ⟨hhas, (fun h => by cases h), fun _ h => by cases h; exact hover,
      (fun _ _ h => by cases h),
      fun size hsize _ _ h => ?_⟩
    cases h
    rw [Option.map_eq_some_iff] at hsize
    obtain ⟨width, hwidth, rfl⟩ := hsize
    have hpos : width ≠ 0 := fun h => hsome (h ▸ hwidth)
    refine hwants.mono ?_
    rw [bytesOfBits]
    omega
  · refine (BitLoadM.heeds_run depth order _ hlayout (hat rfl)).bind fun result u hu => ?_
    obtain ⟨out, pad⟩ := result
    obtain ⟨hu, hwithin, hover, hsize, hwants⟩ := hu
    dsimp only
    split
    · rename_i e herror
      refine Ends.pure ⟨hu, (fun h => by cases h), fun _ h => by cases h; exact hover e herror,
        (fun _ _ h => by cases h),
        fun size h _ _ h' => ?_⟩
      cases h'
      rw [Option.map_eq_some_iff] at h
      obtain ⟨width, hwidth, rfl⟩ := h
      exact hwants width hwidth e herror
    · rename_i herror
      refine Ends.pure ⟨hu, fun _ => ?_, (fun _ h => by cases h), fun size h _ => ?_,
        fun _ _ _ _ h => by cases h⟩
      · rw [size_hostedBits hbits htail]
        exact hwithin herror
      · rw [size_hostedBits hbits htail]
        rw [Option.map_eq_some_iff] at h
        obtain ⟨width, hwidth, rfl⟩ := h
        exact hsize width hwidth herror

theorem heeds_loadHost (depth : Nat) {layout : BitLayout κ} {order : ByteOrder}
    (frames : List (Frame κ)) {a : Atom κ} (hbits : a.isBits = false) (htail : a.info.tail = [])
    (hstart : B.start ≤ a.info.offset) {s : LoadState κ} (hs : B.Has s.view) :
    Ends (loadHost env depth layout order frames a) s fun out t => B.Has t.view
      ∧ out.Heeds B a.info.offset (layout.staticBits.map bytesOfBits) := by
  rw [loadHost]
  split
  · rename_i e hposition
    refine Ends.pure ⟨hs, .other _ ?_⟩
    rw [bitPosition] at hposition
    split at hposition
    · cases hposition
    · cases hposition
      rfl
  · rename_i position _
    refine (LoadM.bordered_spawn "" (.bits layout) position hs).bind fun root t ht => ?_
    obtain ⟨-, hlayout, -, ht⟩ := ht
    split
    · rename_i hzero
      have hmade : Ends (LoadM.ofLedger (allocateBits env depth
          ((a.fill (.host .empty) []).frame :: frames) root)) t fun out u => B.Has u.view
            ∧ (out.error? = none → out.atom.bitCount = 0) ∧ out.NotShort :=
        ⟨ht, keepsWidth_allocateBits env depth _ root layout 0 t.ledger hlayout hzero,
          notShort_allocateBits env depth _ root t.ledger⟩
      refine hmade.bind fun out u hu => ?_
      obtain ⟨hu, hwidth, hshort⟩ := hu
      split
      · rename_i e herror
        exact Ends.pure ⟨hu, .other _ (hshort e herror)⟩
      · rename_i herror
        have hsize : (hostedBits a out.atom .empty).ready.size = 0 := by
          rw [size_hostedBits hbits htail, hwidth herror]
          rfl
        refine Ends.pure ⟨hu, fun _ => ?_, (fun _ h => by cases h), fun size h _ => ?_,
          fun _ _ _ _ h => by cases h⟩
        · rw [hsize]
          exact Nat.le_max_left _ _
        · rw [hzero] at h
          cases h
          exact hsize
    · rename_i hsome
      exact heeds_loadRoot depth order frames hlayout hsome hbits htail hstart ht

/-! ## Loading -/

/-- An atom of bytes heeds the end of the view. -/
theorem heeds_load (env : Env κ) (depth : Nat) (layout : Layout κ)
    (hlayout : layout.Unforced env.rules) (frames : List (Frame κ)) {a : Atom κ}
    (ha : a.info.layout = .bytes layout) (hstart : B.start ≤ a.info.offset)
    (hword : a.info.offset < pow2 64) {s : LoadState κ} (hs : B.Has s.view) :
    Ends (load env depth frames a) s fun out t =>
      B.Has t.view ∧ out.Heeds B a.info.offset layout.staticSize := by
  induction depth generalizing B layout frames a s with
  | zero => exact Ends.pure ⟨hs, .other _ rfl⟩
  | succ depth ih =>
    have hpart : Heeding env.rules (load env depth) := fun B layout frames a s hlayout _ ha hstart hword hs =>
      ih layout hlayout frames ha hstart hword hs
    rw [load, ha]
    have hclear : Ends (LoadM.ofLedger (LedgerM.clear a)) s fun b t =>
        b.IsBlank ∧ b.info.site = a.info.site ∧ B.Has t.view :=
      ⟨isBlank_cleared a, site_cleared a, hs⟩
    refine hclear.bind fun b t hb => ?_
    obtain ⟨hblank, hsite, ht⟩ := hb
    have hsame : b.info.layout = .bytes layout := (Info.layout_of_site hsite).trans ha
    have hbits : b.isBits = false := by rw [isBits, hsame]; rfl
    have hoffset := Info.offset_of_site hsite
    have hspanning : (b.fill .group []).frame.Spanning b.info.offset := .start hbits hblank.tail
    rw [← hoffset] at hstart hword ⊢
    have hcovers : B.Covers b.info.offset b.info.offset := ⟨hstart, hword, Nat.le_max_left _ _⟩
    cases layout
    case record name fields =>
      refine heeds_loadFields hpart frames hspanning hcovers 0 0 (fun field hfield => ?_)
        (fun size hsize => ⟨rfl, hsize⟩) ht
      exact ⟨hlayout.fields name fields (.here _) field hfield,
        fun inner hinner => hlayout.inner (.field hfield hinner (.here _))⟩
    case array element shape =>
      have helement : element.Unforced env.rules := hlayout.inner (.element (.here _))
      cases shape with
      | counted count =>
        refine heeds_loadCounted hpart helement frames count hspanning hcovers 0 (fun size hsize => ?_) ht
        rw [Layout.staticSize, Option.bind_eq_some_iff] at hsize
        obtain ⟨each, heach, hproduct⟩ := hsize
        exact ⟨each, heach, congrArg (b.info.offset + ·) (eq_of_word? hproduct)⟩
      | block extent => exact heeds_loadBlock hpart helement extent frames hspanning hcovers ht
      | terminated rule => exact heeds_loadOpen hpart helement _ frames _ hspanning hcovers 0 ht
      | unending => exact heeds_loadOpen hpart helement _ frames _ hspanning hcovers 0 ht
    case union name members size =>
      refine heeds_loadUnion hpart size (fun member hmember => ?_) frames hbits hblank.tail hcovers ht
      exact ⟨hlayout.inner (.member hmember (.here _)),
        hlayout.members name members size (.here _) member hmember⟩
    case bits root order => exact heeds_loadHost depth frames hbits hblank.tail hstart ht
    all_goals exact heeds_loadLeaf frames hbits hblank.tail hstart ht

end Load

end BinaryLayout
