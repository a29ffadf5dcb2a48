import BinaryLayout.Proofs.Layout.Uses
import BinaryLayout.Proofs.Locality.Bits

/-!
# Arrays of views that are alike

An atom loaded from two views that are alike is the same atom, as long as loading stays inside the
bound of the comparison. It goes astray when it fails, when an array is found to end with its source,
or when the atom ends past the bound. A part that went astray leaves the atom around it astray: its
size only grows, and no warning is forgotten.

The elements of a block array are loaded through a window. One that ends inside the bound is not told
apart at all, so that nothing in it can go astray, whatever reads it refuses; and one that ends past it
makes an array that does so too.

## Main definitions

* `Outcome.Strays`: loading an atom went astray.
* `Outcome.Alike`: what became of the same atom of two views.
* `LoadedAlike`: what two views that are alike make of an atom.

## Main statements

* `together_loadCounted`, `together_loadOpen`, `together_loadBlock`: arrays.
-/

namespace BinaryLayout

variable {κ α : Type} {mark : Nat → Nat} {L : Likeness}

open Atom

/-! ## Going astray -/

/-- An array was found to end with its source since the comparison began. -/
def LoadState.Noisy (bound? : Option Bound) (t : LoadState κ) : Prop :=
  ∃ b, bound? = some b ∧ b.unterminated < t.ledger.unterminated

/-- No warning is forgotten. -/
theorem LoadState.Noisy.mono {bound? : Option Bound} {t u : LoadState κ} (h : t.Noisy bound?)
    (hle : t.ledger.unterminated ≤ u.ledger.unterminated) : u.Noisy bound? := by
  obtain ⟨b, hb, hlt⟩ := h
  exact ⟨b, hb, Nat.lt_of_lt_of_le hlt hle⟩

/-- Loading goes on, and either no array was found to end with its source, or one was. -/
theorem LoadState.Alike.noisy_or {s s' t : LoadState κ} (h : s.Alike L mark s')
    (hgoes : ∀ b, L.bound? = some b → s.Goes b.data t) :
    t.Noisy L.bound? ∨ ∀ b, L.bound? = some b → t.ledger.unterminated = b.unterminated := by
  rcases hbound : L.bound? with _ | b
  · exact .inr nofun
  · have hle := (hgoes b hbound).unterminated
    rw [h.quiet b hbound] at hle
    rcases Nat.eq_or_lt_of_le hle with heq | hlt
    · exact .inr fun b' hb' => Option.some.inj hb' ▸ heq.symm
    · exact .inl ⟨b, rfl, hlt⟩

/-- Loading an atom at `offset` failed, or an array was found to end with its source, or the atom ends
past the bound. -/
def Outcome.Strays (bound? : Option Bound) (offset : Nat) (out : Outcome κ) (t : LoadState κ) : Prop :=
  ∃ b, bound? = some b ∧ (out.error?.isSome ∨ b.unterminated < t.ledger.unterminated
    ∨ b.stop < offset + out.atom.size)

/-- What became of the same atom of two views: loading went astray, or the atoms differ in handles
alone. -/
def Outcome.Alike (L : Likeness) (mark : Nat → Nat) (offset : Nat) (out : Outcome κ) (t : LoadState κ)
    (out' : Outcome κ) (t' : LoadState κ) : Prop :=
  out.Strays L.bound? offset t ∨ out.Matches mark out' ∧ t.Alike L mark t'

namespace Outcome.Strays

variable {bound? : Option Bound} {b : Bound} {offset start next : Nat} {out : Outcome κ}
  {t u : LoadState κ}

theorem failed (hb : bound? = some b) (a : Atom κ) (e : Error) :
    Outcome.Strays bound? offset ⟨a, some e⟩ t :=
  ⟨b, hb, .inl rfl⟩

theorem noisy (h : t.Noisy bound?) : out.Strays bound? offset t := by
  obtain ⟨b, hb, hlt⟩ := h
  exact ⟨b, hb, .inr (.inl hlt)⟩

/-- The atom ends past the bound, unless loading failed. -/
theorem past (hb : bound? = some b) (h : out.error? = none → b.stop < offset + out.atom.size) :
    out.Strays bound? offset t := by
  refine ⟨b, hb, ?_⟩
  cases herror : out.error? with
  | none => exact .inr (.inr (h herror))
  | some e => exact .inl rfl

/-- A part that went astray leaves the atom around it astray. -/
theorem after {part : Outcome κ} (h : part.Strays bound? start t) (herror : part.error? = none)
    (hspan : spanEnd start part.atom.size = .ok next) {data : Bytes}
    (hrest : out.Spans data offset next t u) : out.Strays bound? offset u := by
  obtain ⟨rfl, -⟩ := spanEnd_eq hspan
  obtain ⟨b, hb, hfailed | hmore | hpast⟩ := h
  · rw [herror] at hfailed
    cases hfailed
  · exact .noisy (.mono ⟨b, hb, hmore⟩ hrest.goes.unterminated)
  · exact .past hb fun hnone => Nat.lt_of_lt_of_le hpast (hrest.reaches hnone)

end Outcome.Strays

namespace Outcome.Alike

variable {offset : Nat} {out out' : Outcome κ} {t t' : LoadState κ}

theorem alike (h : out.Matches mark out') (ht : t.Alike L mark t') : out.Alike L mark offset t out' t' :=
  .inr ⟨h, ht⟩

theorem failed {b : Bound} (hb : L.bound? = some b) (a : Atom κ) (e : Error) :
    Outcome.Alike L mark offset ⟨a, some e⟩ t out' t' :=
  .inl (.failed hb a e)

end Outcome.Alike

/-! ## What changes no view -/

namespace LoadM

variable {s s' : LoadState κ}

theorem together_spawn (h : s.Alike L mark s') (name : String) (layout : AtomLayout κ) (offset : Nat) :
    Together (ofLedger (LedgerM.spawn name layout offset)) (ofLedger (LedgerM.spawn name layout offset))
      s s' fun a t a' t' => (a.IsBlank ∧ a.info.layout = layout ∧ a.info.offset = offset)
        ∧ a.rename mark = a'.rename mark ∧ t.Alike L mark t' := by
  obtain ⟨hatom, hledger⟩ := h.handles.spawn name layout offset
  refine ⟨⟨isBlank_blank _ _ _ _, rfl, rfl⟩, hatom, h.view, hledger, fun b hb => ?_⟩
  exact (Ledger.unterminated_take _).trans (h.quiet b hb)

theorem together_clear (h : s.Alike L mark s') {a a' : Atom κ} (ha : a.rename mark = a'.rename mark) :
    Together (ofLedger (LedgerM.clear a)) (ofLedger (LedgerM.clear a')) s s' fun b t b' t' =>
      (b.IsBlank ∧ b.info.site = a.info.site) ∧ b.rename mark = b'.rename mark ∧ t.Alike L mark t' := by
  obtain ⟨hatom, hledger⟩ := h.handles.clear ha
  refine ⟨⟨isBlank_cleared a, site_cleared a⟩, hatom, h.view, hledger, fun b hb => ?_⟩
  exact (Ledger.unterminated_releaseAll _ _).trans (h.quiet b hb)

theorem together_release (h : s.Alike L mark s') {a a' : Atom κ} (ha : a.rename mark = a'.rename mark) :
    Together (ofLedger (LedgerM.release a)) (ofLedger (LedgerM.release a')) s s' fun _ t _ t' =>
      t.Alike L mark t' :=
  ⟨h.view, h.handles.release ha, fun b hb => (Ledger.unterminated_release _ _).trans (h.quiet b hb)⟩

/-- A warning that does not say that an array ended with its source. -/
theorem together_warn (h : s.Alike L mark s') {w : Warning} (hw : w.isUnterminated = false) :
    Together (ofLedger (LedgerM.warn w)) (ofLedger (LedgerM.warn w)) s s' fun _ t _ t' =>
      t.Alike L mark t' :=
  ⟨h.view, h.handles, fun b hb =>
    (List.countP_cons_of_neg (by rw [hw]; exact Bool.false_ne_true)).trans (h.quiet b hb)⟩

/-- An array is found to end with its source. -/
theorem noisy_warn {b : Bound} (path : Path) (count : Nat) {s : LoadState κ}
    (hle : b.unterminated ≤ s.ledger.unterminated) :
    Ends (ofLedger (LedgerM.warn (.unterminatedArray path count))) s fun _ t =>
      b.unterminated < t.ledger.unterminated := by
  have hmore : (s.ledger.warn (.unterminatedArray path count)).unterminated =
      s.ledger.unterminated + 1 := Ledger.unterminated_warn_array _ _ _
  exact Nat.lt_of_le_of_lt hle (by rw [Nat.lt_iff_add_one_le]; exact Nat.le_of_eq hmore.symm)

end LoadM

section Load

variable {env : Env κ} {s s' : LoadState κ}

/-! ## Atoms without parts -/

/-- No warning about the bytes of an atom says that an array ended. -/
theorem Layout.isUnterminated_warning {layout : Layout κ} {path : Path} {raw : Bytes} {w : Warning}
    (h : layout.warning? path raw = some w) : w.isUnterminated = false := by
  rw [warning?.eq_def] at h
  repeat' split at h
  all_goals cases h
  all_goals rfl

theorem together_loadLeaf {layout : Layout κ} {frames frames' : List (Frame κ)}
    (hframes : frames.map (Frame.rename mark) = frames'.map (Frame.rename mark)) {a a' : Atom κ}
    (ha : a.rename mark = a'.rename mark) (hbits : a.isBits = false) (htail : a.info.tail = [])
    (hstart : L.start ≤ a.info.offset) (h : s.Alike L mark s') :
    Together (loadLeaf env layout frames a) (loadLeaf env layout frames' a') s s'
      (Outcome.Alike L mark a.info.offset) := by
  rw [loadLeaf, loadLeaf, ← offset_of_rename ha]
  refine (LoadM.together_readLeaf env.config hframes layout h hstart).bind fun result t result' t' ht => ?_
  rcases ht with ⟨b, hb, hpast⟩ | ⟨rfl, halike⟩
  · refine Together.left (p := fun out _ => out.error? = none →
      b.stop < a.info.offset + out.atom.size) ?_ fun out u _ _ hu => .inl (.past hb hu)
    split
    · exact Ends.pure fun h => by cases h
    · rename_i raw
      have hdone : b.stop < a.info.offset + ((a.mapInfo fun info =>
          { info with undecodable := layout.isUndecodable raw }).withBytes layout raw).ready.size := by
        rw [size_withBytes hbits htail]
        exact hpast raw rfl
      dsimp only
      split
      · exact (Ends.trivial _ t).bind fun _ _ _ => Ends.pure fun _ => hdone
      · exact Ends.pure fun _ => hdone
  · split
    · exact Together.pure (.alike ⟨ha, rfl⟩ halike)
    · rename_i raw
      rw [Place.path_of_rename (Place.rename_of ha hframes)]
      have hdone : Outcome.Matches mark
          ⟨((a.mapInfo fun info => { info with undecodable := layout.isUndecodable raw }).withBytes
            layout raw).ready, none⟩
          ⟨((a'.mapInfo fun info => { info with undecodable := layout.isUndecodable raw }).withBytes
            layout raw).ready, none⟩ := by
        refine ⟨?_, rfl⟩
        rw [rename_ready, rename_ready, rename_withBytes, rename_withBytes, rename_undecodable,
          rename_undecodable, ha]
      split
      · rename_i hwarning
        exact (LoadM.together_warn halike (Layout.isUnterminated_warning hwarning)).bind
          fun _ u _ u' hu => Together.pure (.alike hdone hu)
      · exact Together.pure (.alike hdone halike)

/-! ## Arrays -/

/-- What two views that are alike make of blank atoms of bytes that differ in handles alone. -/
def LoadedAlike (rules : Rules κ) (mark : Nat → Nat) (part : LoadPart (LoadM κ) κ) : Prop :=
  ∀ {L : Likeness} {frames frames' : List (Frame κ)} {a a' : Atom κ} {layout : Layout κ}
    {s s' : LoadState κ}, frames.map (Frame.rename mark) = frames'.map (Frame.rename mark) →
    a.rename mark = a'.rename mark → a.IsBlank → a.info.layout = .bytes layout →
    layout.WithoutUnending rules → L.start ≤ a.info.offset → s.Alike L mark s' →
      Together (part frames a) (part frames' a') s s' (Outcome.Alike L mark a.info.offset)

variable {part : LoadPart (LoadM κ) κ}

/-- A part, and how far it reaches. -/
theorem LoadedAlike.spanning (hpart : LoadedAlike env.rules mark part)
    (hspans : ∀ data, SpansBytes data part) {frames frames' : List (Frame κ)}
    (hframes : frames.map (Frame.rename mark) = frames'.map (Frame.rename mark)) {a a' : Atom κ}
    {layout : Layout κ} {offset : Nat}
    (hblank : a.IsBlank ∧ a.info.layout = .bytes layout ∧ a.info.offset = offset)
    (ha : a.rename mark = a'.rename mark) (hending : layout.WithoutUnending env.rules)
    (hstart : L.start ≤ offset) (h : s.Alike L mark s') :
    Together (part frames a) (part frames' a') s s' fun out t out' t' =>
      (∀ b, L.bound? = some b → out.Spans b.data offset offset s t)
        ∧ out.Alike L mark offset t out' t' := by
  obtain ⟨hempty, hlayout, rfl⟩ := hblank
  refine (hpart hframes ha hempty hlayout hending hstart h).andLeft fun b hb => ?_
  exact hspans b.data _ _ _ hempty (by rw [isBits, hlayout]; rfl) (h.shows hb)

theorem together_loadCounted (hspans : ∀ data, SpansBytes data part)
    (hpart : LoadedAlike env.rules mark part) {element : Layout κ}
    (hending : element.WithoutUnending env.rules) {frames frames' : List (Frame κ)}
    (hframes : frames.map (Frame.rename mark) = frames'.map (Frame.rename mark)) (count : Nat)
    {f f' : Frame κ} {cursor : Nat} (hf : f.rename mark = f'.rename mark) (hspanning : f.Spanning cursor)
    (index : Nat) (hstart : L.start ≤ cursor) (h : s.Alike L mark s') :
    Together (loadCounted part element frames count f index cursor)
      (loadCounted part element frames' count f' index cursor) s s'
      (Outcome.Alike L mark f.info.offset) := by
  induction count generalizing f f' index cursor s s' with
  | zero => exact Together.pure (.alike (Frame.matches_done hf) h)
  | succ count ih =>
    rw [loadCounted, loadCounted]
    refine (LoadM.together_spawn h (toString index) (.bytes element) cursor).bind
      fun blank t blank' t' ht => ?_
    refine (hpart.spanning hspans (Frame.rename_cons_of hf hframes) ht.1 ht.2.1 hending hstart
      ht.2.2).bind fun out u out' u' hu => ?_
    obtain ⟨hout, hu⟩ := hu
    obtain ⟨atom, error?⟩ := out
    rcases hu with hstray | ⟨⟨hatom, herror⟩, halike⟩
    · obtain ⟨b, hb, -⟩ := id hstray
      refine Together.left (p := Outcome.Strays L.bound? f.info.offset) ?_ fun _ _ _ _ h => .inl h
      dsimp only
      split
      · exact Ends.pure (.failed hb _ _)
      · split
        · exact Ends.pure (.failed hb _ _)
        · rename_i hspan
          exact (spans_loadCounted (hspans b.data) element frames count (hspanning.pushed hspan) _
            (hout b hb).goes.shows).mono fun _ _ hrest => hstray.after rfl hspan hrest
    · obtain ⟨atom', error?'⟩ := out'
      cases herror
      have hnew := Frame.rename_push_of hf hatom
      have hsize : atom.size = atom'.size := size_of_rename hatom
      dsimp only
      rw [hsize]
      split
      · exact Together.pure (.alike (Frame.matches_failed hnew _) halike)
      · split
        · exact Together.pure (.alike (Frame.matches_failed hnew _) halike)
        · rename_i hspan
          refine ih (f := f.push atom) hnew (hspanning.pushed (hsize ▸ hspan)) _ ?_ halike
          exact Nat.le_trans hstart ((spanEnd_eq hspan).1 ▸ Nat.le_add_right _ _)

/-- After an element that could not be completed a terminated array fails, or a warning says that it
was found to end with its source. -/
theorem ends_dropElement (a : Atom κ) (frames : List (Frame κ)) (f : Frame κ) (index : Nat) (e : Error)
    {b : Bound} (hle : b.unterminated ≤ s.ledger.unterminated) :
    Ends (do
        if !e.isConsume then return ⟨f.plug a, some (e.within [Path.index index])⟩
        LoadM.ofLedger (LedgerM.release a)
        if (← LoadM.viewEnd).isSome then
          LoadM.ofLedger (LedgerM.warn (.unterminatedArray (Place.path ⟨f.close, frames⟩) index))
          return (⟨f.close.ready, none⟩ : Outcome κ)
        return ⟨f.close, some (e.within [Path.index index])⟩) s
      fun out t => (∃ e, out.error? = some e) ∨ b.unterminated < t.ledger.unterminated := by
  split
  · exact .inl ⟨_, rfl⟩
  · have hrelease : Ends (LoadM.ofLedger (LedgerM.release a)) s fun _ t =>
        t.ledger.unterminated = s.ledger.unterminated := Ledger.unterminated_release s.ledger a
    refine hrelease.bind fun _ t ht => LoadM.goes_viewEnd.bind fun viewEnd? u hu => ?_
    subst hu
    split
    · exact (LoadM.noisy_warn _ _ (ht ▸ hle)).bind fun _ v hv => Ends.pure (.inr hv)
    · exact .inl ⟨_, rfl⟩

/-- Both fail or drop the element that could not be completed. -/
theorem together_dropElement {f f' : Frame κ} (hf : f.rename mark = f'.rename mark)
    {frames frames' : List (Frame κ)} {a a' : Atom κ} (ha : a.rename mark = a'.rename mark) (index : Nat)
    (e : Error) {offset : Nat}
    (h : s.Alike L mark s') :
    Together (do
        if !e.isConsume then return ⟨f.plug a, some (e.within [Path.index index])⟩
        LoadM.ofLedger (LedgerM.release a)
        if (← LoadM.viewEnd).isSome then
          LoadM.ofLedger (LedgerM.warn (.unterminatedArray (Place.path ⟨f.close, frames⟩) index))
          return (⟨f.close.ready, none⟩ : Outcome κ)
        return ⟨f.close, some (e.within [Path.index index])⟩)
      (do
        if !e.isConsume then return ⟨f'.plug a', some (e.within [Path.index index])⟩
        LoadM.ofLedger (LedgerM.release a')
        if (← LoadM.viewEnd).isSome then
          LoadM.ofLedger (LedgerM.warn (.unterminatedArray (Place.path ⟨f'.close, frames'⟩) index))
          return (⟨f'.close.ready, none⟩ : Outcome κ)
        return ⟨f'.close, some (e.within [Path.index index])⟩) s s' (Outcome.Alike L mark offset) := by
  rcases hbound : L.bound? with _ | b
  · split
    · exact Together.pure (.alike ⟨Frame.rename_plug_of hf ha, rfl⟩ h)
    · refine (LoadM.together_release h ha).bind fun _ t _ t' ht => ?_
      refine (LoadM.together_viewEnd hbound ht).bind fun viewEnd? u viewEnd?' u' hu => ?_
      obtain ⟨rfl, halike⟩ := hu
      split
      · have hwarned : u.ledger.InStep mark u'.ledger := halike.handles
        exact .alike (Frame.matches_done hf)
          ⟨halike.view, hwarned, fun b hb => by cases hbound.symm.trans hb⟩
      · exact Together.pure (.alike (Frame.matches_failed hf _) halike)
  · refine Together.left (ends_dropElement a frames f index e (Nat.le_of_eq (h.quiet b hbound).symm))
      fun out t _ _ ht => ?_
    rcases ht with ⟨e, herror⟩ | hmore
    · exact .inl (.past hbound fun hnone => by cases herror.symm.trans hnone)
    · exact .inl (.noisy ⟨b, hbound, hmore⟩)

/-- An array that a rule ends. -/
theorem together_loadOpen (hrules : env.rules.SeeOnly mark) (hspans : ∀ data, SpansBytes data part)
    (hpart : LoadedAlike env.rules mark part) {element : Layout κ}
    (hending : element.WithoutUnending env.rules) (rule : κ) {frames frames' : List (Frame κ)}
    (hframes : frames.map (Frame.rename mark) = frames'.map (Frame.rename mark)) (budget : Nat)
    {f f' : Frame κ} {cursor : Nat} (hf : f.rename mark = f'.rename mark) (hspanning : f.Spanning cursor)
    (index : Nat) (hstart : L.start ≤ cursor) (h : s.Alike L mark s') :
    Together (loadOpen env part element (some rule) frames budget f index cursor)
      (loadOpen env part element (some rule) frames' budget f' index cursor) s s'
      (Outcome.Alike L mark f.info.offset) := by
  induction budget generalizing f f' index cursor s s' with
  | zero => exact Together.pure (.alike (Frame.matches_failed hf _) h)
  | succ budget ih =>
    rw [loadOpen, loadOpen]
    have hview : Together LoadM.viewEnd LoadM.viewEnd s s' fun _ t _ t' => t = s ∧ t' = s' := ⟨rfl, rfl⟩
    refine hview.bind fun _ t _ t' ht => ?_
    obtain ⟨rfl, rfl⟩ := ht
    simp only [endsAt, Option.isNone_some, Bool.false_and, Bool.false_eq_true, if_false]
    refine (LoadM.together_spawn h (toString index) (.bytes element) cursor).bind
      fun blank t blank' t' ht => ?_
    refine (hpart.spanning hspans (Frame.rename_cons_of hf hframes) ht.1 ht.2.1 hending hstart
      ht.2.2).bind fun out u out' u' hu => ?_
    obtain ⟨hout, hu⟩ := hu
    obtain ⟨atom, error?⟩ := out
    have hinner := Frame.rename_cons_of hf hframes
    cases error? with
    | some e =>
      rcases hu with ⟨b, hb, -⟩ | ⟨⟨hatom, herror⟩, halike⟩
      · have hle : b.unterminated ≤ u.ledger.unterminated :=
          ht.2.2.quiet b hb ▸ (hout b hb).goes.unterminated
        refine Together.left (ends_dropElement atom frames f index e hle) fun out v _ _ hv => ?_
        rcases hv with ⟨e, herror⟩ | hmore
        · exact .inl (.past hb fun hnone => by cases herror.symm.trans hnone)
        · exact .inl (.noisy ⟨b, hb, hmore⟩)
      · obtain ⟨atom', error?'⟩ := out'
        cases herror
        exact together_dropElement hf hatom index e halike
    | none =>
      rcases hu with hstray | ⟨⟨hatom, herror⟩, halike⟩
      · obtain ⟨b, hb, -⟩ := id hstray
        refine Together.left (p := Outcome.Strays L.bound? f.info.offset) ?_ fun _ _ _ _ h => .inl h
        dsimp only
        split
        · exact Ends.pure (.failed hb _ _)
        · rename_i hspan
          have hnew := hspanning.pushed hspan
          split
          · exact Ends.pure (hstray.after rfl hspan (hnew.spans (.refl (hout b hb).goes.shows)))
          · exact (spans_loadOpen (hspans b.data) element (some rule) frames budget hnew _
              (hout b hb).goes.shows).mono fun _ _ hrest => hstray.after rfl hspan hrest
      · obtain ⟨atom', error?'⟩ := out'
        cases herror
        have hsize : atom.size = atom'.size := size_of_rename hatom
        have haccepts : isLast env (some rule) (index + 1) ⟨atom, f :: frames⟩ =
            isLast env (some rule) (index + 1) ⟨atom', f' :: frames'⟩ :=
          hrules.accepts (Place.rename_of hatom hinner)
        dsimp only
        rw [hsize, haccepts]
        split
        · exact Together.pure (.alike ⟨Frame.rename_plug_of hf hatom, rfl⟩ halike)
        · rename_i hspan
          split
          · refine Together.pure (.alike ⟨?_, rfl⟩ halike)
            rw [rename_ready, rename_ready, Frame.rename_plug_of hf hatom]
          · refine ih (f := f.push atom) (Frame.rename_push_of hf hatom)
              (hspanning.pushed (hsize ▸ hspan)) _ ?_ halike
            exact Nat.le_trans hstart ((spanEnd_eq hspan).1 ▸ Nat.le_add_right _ _)

/-! ## Windows -/

/-- The views that alike windows narrow are alike. -/
theorem Likeness.Windows.innermost {limit : Nat} {v w : View} (h : L.Windows limit v w) :
    L.Like (LoadM.innermost v.1, v.2) (LoadM.innermost w.1, w.2) := by
  cases h with
  | intro i j h => exact h

/-- A part that is loaded through a window inside the bound. -/
theorem LoadedAlike.inWindow (hpart : LoadedAlike env.rules mark part)
    (hspans : ∀ data, SpansBytes data part) {limit : Nat}
    (hlimit : ∀ b, L.bound? = some b → L.start < b.stop ∧ limit ≤ b.stop)
    {frames frames' : List (Frame κ)}
    (hframes : frames.map (Frame.rename mark) = frames'.map (Frame.rename mark)) {a a' : Atom κ}
    {layout : Layout κ} (hblank : a.IsBlank) (hlayout : a.info.layout = .bytes layout)
    (ha : a.rename mark = a'.rename mark) (hending : layout.WithoutUnending env.rules)
    (hstart : L.start ≤ a.info.offset) (h : s.Alike L mark s') :
    Together (LoadM.inWindow limit (part frames a)) (LoadM.inWindow limit (part frames' a')) s s'
      fun out t out' t' => (∀ b, L.bound? = some b → s.Goes b.data t) ∧ out.Matches mark out'
        ∧ (t.Noisy L.bound? ∨ t.Alike L mark t') := by
  let u : LoadState κ := { s with reader := .window s.reader limit 0 }
  let u' : LoadState κ := { s' with reader := .window s'.reader limit 0 }
  have hu : u.Alike (L.window limit hlimit) mark u' :=
    ⟨.intro 0 0 h.view, h.handles, fun b hb => nomatch hb⟩
  have hinside := hpart (L := L.window limit hlimit) hframes ha hblank hlayout hending hstart hu
  rcases hinside with ⟨b, hb, -⟩ | ⟨hmatches, halike⟩
  · exact nomatch hb
  · have hview := halike.view
    have hgoes (b : Bound) (hb : L.bound? = some b) :
        Ends (LoadM.inWindow limit (part frames a)) s fun _ t => s.Goes b.data t :=
      (LoadM.goes_inWindow (fun _ => True) limit (fun s hs =>
        (hspans b.data _ _ _ hblank (by rw [isBits, hlayout]; rfl) hs).mono fun _ _ hspan =>
          ⟨hspan.goes, trivial⟩) (h.shows hb)).mono fun _ _ ht => ht.1
    refine ⟨hgoes, hmatches, (h.noisy_or hgoes).imp_right fun hquiet => ?_⟩
    exact ⟨hview.innermost, halike.handles, hquiet⟩

/-- A part that is loaded through a window where there is no byte to compare. -/
theorem LoadedAlike.atBrink (hpart : LoadedAlike env.rules mark part) (limit : Nat) {b : Bound}
    (hbound : L.bound? = some b) (hstop : b.stop ≤ L.start) {frames frames' : List (Frame κ)}
    (hframes : frames.map (Frame.rename mark) = frames'.map (Frame.rename mark)) {a a' : Atom κ}
    {layout : Layout κ} (hblank : a.IsBlank) (hlayout : a.info.layout = .bytes layout)
    (ha : a.rename mark = a'.rename mark) (hending : layout.WithoutUnending env.rules)
    (hstart : L.start ≤ a.info.offset) (h : s.Alike L mark s') :
    Together (LoadM.inWindow limit (part frames a)) (LoadM.inWindow limit (part frames' a')) s s'
      (Outcome.Alike L mark a.info.offset) := by
  let u : LoadState κ := { s with reader := .window s.reader limit 0 }
  let u' : LoadState κ := { s' with reader := .window s'.reader limit 0 }
  have hu : u.Alike (L.brink limit hbound hstop) mark u' :=
    ⟨.intro 0 0 h.view, h.handles, fun b' hb => h.quiet b' (hbound.trans hb)⟩
  have hinside := hpart (L := L.brink limit hbound hstop) hframes ha hblank hlayout hending hstart hu
  rcases hinside with ⟨b', hb, hstray⟩ | ⟨hmatches, halike⟩
  · exact .inl ⟨b', hbound.trans hb, hstray⟩
  · have hview := halike.view
    exact .alike hmatches
      ⟨hview.innermost, halike.handles, fun b' hb => halike.quiet b' (hbound.symm.trans hb)⟩

/-! ## Block arrays -/

/-- What became of the elements of a block array in two views: an array was found to end with its
source, or the elements differ in handles alone. -/
def BlockOutcome.Alike (L : Likeness) (mark : Nat → Nat) (out : BlockOutcome κ) (t : LoadState κ)
    (out' : BlockOutcome κ) (t' : LoadState κ) : Prop :=
  t.Noisy L.bound? ∨ (out.atom.rename mark = out'.atom.rename mark ∧ out.cursor = out'.cursor
    ∧ out.error? = out'.error? ∧ L.start ≤ out.cursor) ∧ t.Alike L mark t'

/-- Elements up to `limit`, which is inside the bound. -/
theorem together_loadBlockElements (hspans : ∀ data, SpansBytes data part)
    (hpart : LoadedAlike env.rules mark part) {element : Layout κ}
    (hending : element.WithoutUnending env.rules) {limit : Nat}
    (hlimit : ∀ b, L.bound? = some b → limit ≤ b.stop) {frames frames' : List (Frame κ)}
    (hframes : frames.map (Frame.rename mark) = frames'.map (Frame.rename mark)) (fuel : Nat)
    {f f' : Frame κ} {cursor : Nat} (hf : f.rename mark = f'.rename mark) (hspanning : f.Spanning cursor)
    (index : Nat) (hstart : L.start ≤ cursor) (h : s.Alike L mark s') :
    Together (loadBlockElements part element limit frames fuel f index cursor)
      (loadBlockElements part element limit frames' fuel f' index cursor) s s'
      (BlockOutcome.Alike L mark) := by
  induction fuel generalizing f f' index cursor s s' with
  | zero => exact Together.pure (.inr ⟨⟨Frame.close_of_rename hf, rfl, rfl, hstart⟩, h⟩)
  | succ fuel ih =>
    rw [loadBlockElements, loadBlockElements]
    split
    · exact Together.pure (.inr ⟨⟨Frame.close_of_rename hf, rfl, rfl, hstart⟩, h⟩)
    · rename_i hroom
      split
      · exact Together.pure (.inr ⟨⟨Frame.close_of_rename hf, rfl, rfl, hstart⟩, h⟩)
      · rename_i layout hnext
        refine (LoadM.together_spawn h (toString index) (.bytes layout) cursor).bind
          fun blank t blank' t' ht => ?_
        obtain ⟨⟨hempty, hlayout, hoffset⟩, hblank, halike⟩ := ht
        have hinside (b : Bound) (hb : L.bound? = some b) : L.start < b.stop ∧ limit ≤ b.stop :=
          ⟨by have := hlimit b hb; omega, hlimit b hb⟩
        refine (hpart.inWindow hspans hinside (Frame.rename_cons_of hf hframes) hempty hlayout hblank
          (hending.nextInBlock hnext) (hoffset ▸ hstart) halike).bind fun out u out' u' hu => ?_
        obtain ⟨hgoes, ⟨hatom, herror⟩, hu⟩ := hu
        obtain ⟨atom, error?⟩ := out
        rcases hu with hnoisy | halike
        · obtain ⟨b, hb, -⟩ := id hnoisy
          refine Together.left (p := fun _ v => v.Noisy L.bound?) ?_ fun _ _ _ _ h => .inl h
          dsimp only
          split
          · split
            · exact (LoadM.goes_release atom (hgoes b hb).shows).bind fun _ v hv =>
                Ends.pure (hnoisy.mono hv.unterminated)
            · exact Ends.pure hnoisy
          · split
            · exact Ends.pure hnoisy
            · split
              · exact Ends.pure hnoisy
              · rename_i hspan
                exact (spans_loadBlockElements (hspans b.data) element limit frames fuel
                  (hspanning.pushed hspan) _ (hgoes b hb).shows).mono fun _ _ hrest =>
                    hnoisy.mono hrest.goes.unterminated
        · obtain ⟨atom', error?'⟩ := out'
          cases herror
          have hnew := Frame.rename_push_of hf hatom
          have hsize : atom.size = atom'.size := size_of_rename hatom
          dsimp only
          rw [hsize]
          split
          · split
            · exact (LoadM.together_release halike hatom).bind fun _ v _ v' hv =>
                Together.pure (.inr ⟨⟨Frame.close_of_rename hf, rfl, rfl, hstart⟩, hv⟩)
            · exact Together.pure
                (.inr ⟨⟨Frame.rename_plug_of hf hatom, rfl, rfl, hstart⟩, halike⟩)
          · split
            · exact Together.pure (.inr ⟨⟨Frame.close_of_rename hnew, rfl, rfl, hstart⟩, halike⟩)
            · split
              · exact Together.pure (.inr ⟨⟨Frame.close_of_rename hnew, rfl, rfl, hstart⟩, halike⟩)
              · rename_i hspan
                refine ih (f := f.push atom) hnew (hspanning.pushed (hsize ▸ hspan)) _ ?_ halike
                exact Nat.le_trans hstart ((spanEnd_eq hspan).1 ▸ Nat.le_add_right _ _)

/-- A read inside the bound fails or gives the same bytes. -/
theorem LoadM.together_readInside {offset amount : Nat}
    (hstop : ∀ b, L.bound? = some b → offset + amount ≤ b.stop) (hstart : L.start ≤ offset)
    (h : s.Alike L mark s') :
    Together (readAt offset amount) (readAt offset amount) s s'
      fun result t result' t' => ((∃ b, L.bound? = some b) ∧ ∃ e, result = .error e)
        ∨ result = result' ∧ t.Alike L mark t' := by
  refine ((together_readAt _ h hstart).andLeft (length_readAt _ _ s)).mono fun result t result' t' ht => ?_
  obtain ⟨hlength, ⟨b, hb, hpast⟩ | hsame⟩ := ht
  · cases result with
    | error e => exact .inl ⟨⟨b, hb⟩, e, rfl⟩
    | ok bytes =>
      have hpast := hpast bytes rfl
      rw [hlength bytes rfl] at hpast
      exact absurd (hstop b hb) (Nat.not_le.2 hpast)
  · exact .inr hsame

theorem together_loadBlock (hspans : ∀ data, SpansBytes data part)
    (hpart : LoadedAlike env.rules mark part) {element : Layout κ}
    (hending : element.WithoutUnending env.rules) (extent : Nat) {frames frames' : List (Frame κ)}
    (hframes : frames.map (Frame.rename mark) = frames'.map (Frame.rename mark)) {a a' : Atom κ}
    (ha : a.rename mark = a'.rename mark) (hspanning : a.frame.Spanning a.info.offset)
    (hstart : L.start ≤ a.info.offset) (h : s.Alike L mark s') :
    Together (loadBlock part element extent frames a) (loadBlock part element extent frames' a') s s'
      (Outcome.Alike L mark a.info.offset) := by
  rcases L.inside_or (a.info.offset + extent) with hlimit | ⟨b, hb, hpast⟩
  · rw [loadBlock, loadBlock, ← offset_of_rename ha]
    split
    · exact Together.pure (.alike ⟨ha, rfl⟩ h)
    · rename_i limit hspan
      obtain ⟨rfl, -⟩ := spanEnd_eq hspan
      have hframe : a.frame.rename mark = a'.frame.rename mark := by
        rw [Frame.rename_frame, Frame.rename_frame, ha]
      refine ((together_loadBlockElements hspans hpart hending hlimit hframes extent hframe hspanning 0
        hstart h).andLeft (p := fun _ t => ∀ b, L.bound? = some b → s.Goes b.data t) fun b hb =>
          (spans_loadBlockElements (hspans b.data) element _ frames extent hspanning 0
            (h.shows hb)).goes).bind fun out t out' t' ht => ?_
      obtain ⟨hgoes, hnoisy | ⟨⟨hatom, hcursor, herror, hreached⟩, halike⟩⟩ := ht
      · obtain ⟨b, hb, -⟩ := id hnoisy
        refine Together.left (p := fun _ u => u.Noisy L.bound?) ?_ fun _ _ _ _ hu => .inl (.noisy hu)
        split
        · exact Ends.pure hnoisy
        · split
          · exact Ends.pure hnoisy
          · refine (LoadM.goes_readAt _ _ (hgoes b hb).shows).bind fun result u hu => ?_
            have hlater := hnoisy.mono hu.1.unterminated
            split
            · exact Ends.pure hlater
            · exact (LoadM.goes_warn _ hu.1.shows).bind fun _ v hv =>
                Ends.pure (hlater.mono hv.unterminated)
      · obtain ⟨atom, cursor, error?⟩ := out
        obtain ⟨atom', cursor', error?'⟩ := out'
        cases herror
        cases hcursor
        dsimp only
        split
        · exact Together.pure (.alike ⟨hatom, rfl⟩ halike)
        · split
          · refine Together.pure (.alike ⟨?_, rfl⟩ halike)
            rw [rename_ready, rename_ready, hatom]
          · rename_i hshort
            have hleft : cursor + (a.info.offset + extent - cursor) = a.info.offset + extent :=
              Nat.add_sub_cancel' (Nat.le_of_lt (Nat.not_le.1 hshort))
            refine (LoadM.together_readInside (by rwa [hleft]) hreached halike).bind
              fun result u result' u' hu => ?_
            rcases hu with ⟨⟨b, hb⟩, e, rfl⟩ | ⟨rfl, halike⟩
            · exact .failed hb _ _
            · split
              · exact Together.pure (.alike ⟨hatom, rfl⟩ halike)
              · rename_i tail
                have htail : (atom.withTail tail).rename mark = (atom'.withTail tail).rename mark := by
                  rw [rename_withTail, rename_withTail, hatom]
                rw [Place.path_of_rename (Place.rename_of htail hframes)]
                refine (LoadM.together_warn halike rfl).bind fun _ v _ v' hv =>
                  Together.pure (.alike ⟨?_, rfl⟩ hv)
                rw [rename_ready, rename_ready, htail]
  · refine Together.left (spans_loadBlock (hspans b.data) element extent frames hspanning (h.shows hb))
      fun out t _ _ ht => .inl (.past hb fun herror => ?_)
    exact Nat.lt_of_lt_of_le hpast (Nat.add_le_add_left (ht.2 herror) _)

end Load

end BinaryLayout
