import BinaryLayout.Proofs.Layout.Uses
import BinaryLayout.Proofs.RoundTrip.Load
import BinaryLayout.Proofs.Span.Bits

/-!
# How far atoms reach

An atom that was loaded without an error ends inside the data that the view shows, unless it has no
bytes, and its size is what its parts and its tail add up to. Loading the rest of a record or of an
array only adds to the size, and it forgets no warning.

## Main definitions

* `LoadState.Goes`: loading goes on, and no warning is forgotten.
* `Outcome.Spans`: an atom that ends inside the data.
* `Frame.Spanning`: the size of the parts so far.

## Main statements

* `spans_load`: an atom of bytes that was loaded.
-/

namespace BinaryLayout

variable {κ α : Type} {data : Bytes}

open Atom

/-- Loading went on from one state to another, with the same data. -/
structure LoadState.Goes (data : Bytes) (s t : LoadState κ) : Prop where
  shows : t.Shows data
  unterminated : s.ledger.unterminated ≤ t.ledger.unterminated

theorem LoadState.Goes.refl {s : LoadState κ} (hs : s.Shows data) : s.Goes data s :=
  ⟨hs, Nat.le_refl _⟩

theorem LoadState.Goes.trans {s t u : LoadState κ} (hst : s.Goes data t) (htu : t.Goes data u) :
    s.Goes data u :=
  ⟨htu.shows, Nat.le_trans hst.unterminated htu.unterminated⟩

/-- What an atom at `offset` was made into, of which the bytes before `start` were there before. -/
structure Outcome.Spans (data : Bytes) (offset start : Nat) (s : LoadState κ) (out : Outcome κ)
    (t : LoadState κ) : Prop where
  goes : s.Goes data t
  reaches : out.error? = none → start ≤ offset + out.atom.size
  within : out.error? = none → offset + out.atom.size ≤ max start data.length

namespace Outcome.Spans

variable {offset start next : Nat} {s t u : LoadState κ} {out : Outcome κ}

theorem failed (h : s.Goes data t) (a : Atom κ) (e : Error) :
    Outcome.Spans data offset start s ⟨a, some e⟩ t :=
  ⟨h, nofun, nofun⟩

/-- Something was done before. -/
theorem ofGoes (hst : s.Goes data t) (h : out.Spans data offset start t u) :
    out.Spans data offset start s u :=
  ⟨hst.trans h.goes, h.reaches, h.within⟩

/-- Bytes from `start` to `next` were read before. -/
theorem after (hst : s.Goes data t) (hle : start ≤ next) (hmax : next ≤ max start data.length)
    (h : out.Spans data offset next t u) : out.Spans data offset start s u := by
  refine ⟨hst.trans h.goes, fun hnone => ?_, fun hnone => ?_⟩
  · exact Nat.le_trans hle (h.reaches hnone)
  · have hwithin := h.within hnone
    omega

/-- A part was loaded before, from `start` to `next`. -/
theorem afterPart {part : Outcome κ} {first : Nat} (hpart : part.Spans data first first s t)
    (hfirst : first = start) (herror : part.error? = none)
    (hspan : spanEnd start part.atom.size = .ok next) (h : out.Spans data offset next t u) :
    out.Spans data offset start s u := by
  subst hfirst
  obtain ⟨rfl, -⟩ := spanEnd_eq hspan
  exact h.after hpart.goes (Nat.le_add_right _ _) (hpart.within herror)

end Outcome.Spans

/-! ## Reading -/

theorem LoadState.Goes.of_leaves {m : LoadM κ α} {post : α → Prop} (hreads : Reads data m post)
    (hledger : Leaves LoadState.ledger m) {s : LoadState κ} (hs : s.Shows data) :
    Ends m s fun result t => s.Goes data t ∧ post result := by
  obtain ⟨hshows, hpost⟩ := hreads s hs
  exact ⟨⟨hshows, Nat.le_of_eq (congrArg _ (hledger s)).symm⟩, hpost⟩

/-- Bytes that are a stretch of the data end inside it. -/
theorem Copies.within {offset : Nat} {result : Except Error Bytes} (h : Copies data offset result)
    {bytes : Bytes} (hbytes : result = .ok bytes) : offset + bytes.length ≤ max offset data.length := by
  have hlength := (h bytes hbytes).length_le
  rw [List.length_drop] at hlength
  omega

namespace LoadM

variable {s : LoadState κ}

theorem goes_spawn (name : String) (layout : AtomLayout κ) (offset : Nat) (hs : s.Shows data) :
    Ends (ofLedger (LedgerM.spawn name layout offset)) s fun a t =>
      a.IsBlank ∧ a.info.layout = layout ∧ a.info.offset = offset ∧ s.Goes data t :=
  ⟨isBlank_blank _ _ _ _, rfl, rfl, hs, Nat.le_of_eq (Ledger.unterminated_take _).symm⟩

theorem goes_clear (a : Atom κ) (hs : s.Shows data) :
    Ends (ofLedger (LedgerM.clear a)) s fun b t =>
      b.IsBlank ∧ b.info.site = a.info.site ∧ s.Goes data t :=
  ⟨isBlank_cleared a, site_cleared a, hs, Nat.le_of_eq (Ledger.unterminated_releaseAll _ _).symm⟩

theorem goes_release (a : Atom κ) (hs : s.Shows data) :
    Ends (ofLedger (LedgerM.release a)) s fun _ t => s.Goes data t :=
  ⟨hs, Nat.le_of_eq (Ledger.unterminated_release _ _).symm⟩

theorem goes_warn (w : Warning) (hs : s.Shows data) :
    Ends (ofLedger (LedgerM.warn w)) s fun _ t => s.Goes data t :=
  ⟨hs, Ledger.unterminated_le_warn _ w⟩

theorem goes_viewEnd : Ends (viewEnd : LoadM κ (Option Nat)) s fun _ t => t = s := rfl

/-- A read at an offset, and how many bytes it gives. -/
theorem goes_readAt (offset amount : Nat) (hs : s.Shows data) :
    Ends (readAt offset amount) s fun result t => s.Goes data t ∧ ∀ bytes, result = .ok bytes →
      bytes.length = amount ∧ offset + amount ≤ max offset data.length := by
  have hreads : Reads data (readAt offset amount : LoadM κ (Except Error Bytes)) fun result =>
      Copies data offset result ∧ ∀ bytes, result = .ok bytes → bytes.length = amount :=
    (reads_readAt offset amount).andEnds (length_readAt offset amount)
  refine (LoadState.Goes.of_leaves hreads (leaves_readAt offset amount) hs).mono fun result t ht => ?_
  refine ⟨ht.1, fun bytes hbytes => ?_⟩
  have hlength := ht.2.2 bytes hbytes
  exact ⟨hlength, hlength ▸ ht.2.1.within hbytes⟩

/-- What is loaded through a window is loaded from the view that it narrows. -/
theorem goes_inWindow {m : LoadM κ α} (post : α → Prop) (limit : Nat)
    (h : ∀ s : LoadState κ, s.Shows data → Ends m s fun a t => s.Goes data t ∧ post a)
    (hs : s.Shows data) :
    Ends (inWindow limit m) s fun a t => s.Goes data t ∧ post a := by
  obtain ⟨hgoes, hpost⟩ := h { s with reader := .window s.reader limit 0 } hs
  exact ⟨⟨Reader.shows_innermost hgoes.shows, hgoes.unterminated⟩, hpost⟩

/-- Detached bytes are a view of themselves, with anything before them. -/
theorem shows_ofBytes (bytes : Bytes) (origin : Nat) (l : Ledger κ) :
    (⟨l, [], .ofBytes bytes origin⟩ : LoadState κ).Shows (List.replicate origin 0 ++ bytes) := by
  have hdrop : (List.replicate origin 0 ++ bytes).drop origin = bytes :=
    List.drop_left' List.length_replicate
  exact ⟨[], (List.append_nil _).trans hdrop.symm⟩

/-- Loading from detached bytes forgets no warning. -/
theorem goes_fromBytes {m : LoadM κ α} {post : α → Prop} (bytes : Bytes) (origin : Nat)
    (h : ∀ (bytes : Bytes) (s : LoadState κ), s.Shows bytes →
      Ends m s fun a t => s.Goes bytes t ∧ post a) (hs : s.Shows data) :
    Ends (fromBytes bytes origin m) s fun a t => s.Goes data t ∧ post a := by
  obtain ⟨hgoes, hpost⟩ := h _ _ (shows_ofBytes bytes origin s.ledger)
  exact ⟨⟨hs, hgoes.unterminated⟩, hpost⟩

end LoadM

/-! ## Parts one after another -/

/-- The parts before the gap are loaded, there are none after it, and they go up to `cursor`. -/
structure Frame.Spanning (f : Frame κ) (cursor : Nat) : Prop where
  content : f.content = .group
  right : f.right = []
  bits : f.info.layout.isBits = false
  tail : f.info.tail = []
  cursor : f.info.offset + sizes f.left = cursor

theorem Atom.sizes_reverse (as : List (Atom κ)) : sizes as.reverse = sizes as := by
  rw [sizes_eq, sizes_eq, List.map_reverse, List.sum_reverse]

@[simp] theorem Atom.size_ready (a : Atom κ) : a.ready.size = a.size := by
  obtain ⟨info, content, parts⟩ := a
  cases content <;> simp [ready, mapInfo, size, contentSize, bitCount]

theorem Atom.size_withTail (tail : Bytes) {a : Atom κ} :
    (a.withTail tail).size = a.contentSize + tail.length := by
  obtain ⟨info, content, parts⟩ := a
  cases content <;> simp [withTail, mapInfo, size, contentSize, bitCount]

namespace Frame.Spanning

variable {f : Frame κ} {cursor : Nat}

/-- A frame without parts. -/
theorem start {a : Atom κ} (hbits : a.isBits = false) (htail : a.info.tail = []) :
    (a.fill .group []).frame.Spanning a.info.offset :=
  ⟨rfl, rfl, hbits, htail, rfl⟩

theorem push (hf : f.Spanning cursor) (a : Atom κ) : (f.push a).Spanning (cursor + a.size) := by
  refine ⟨hf.content, hf.right, hf.bits, hf.tail, ?_⟩
  have hcursor := hf.cursor
  show f.info.offset + (a.contentSize + a.info.tail.length + sizes f.left) = cursor + a.size
  rw [size]
  omega

/-- One more part, up to `next`. -/
theorem pushed (hf : f.Spanning cursor) {a : Atom κ} {next : Nat}
    (hspan : spanEnd cursor a.size = .ok next) : (f.push a).Spanning next := by
  rw [(spanEnd_eq hspan).1]
  exact hf.push a

theorem contentSize (hf : f.Spanning cursor) : f.info.offset + f.close.contentSize = cursor := by
  have hsize : f.close.contentSize = sizes f.left := by
    rw [contentSize_of_bytes (a := f.close) hf.bits, content_close, hf.content, parts_close, hf.right,
      List.append_nil, sizes_reverse]
  rw [hsize]
  exact hf.cursor

theorem size (hf : f.Spanning cursor) : f.info.offset + f.close.size = cursor := by
  rw [Atom.size, info_close, hf.tail, List.length_nil, Nat.add_zero]
  exact hf.contentSize

/-- A complete atom. -/
theorem spans (hf : f.Spanning cursor) {s t : LoadState κ} (h : s.Goes data t) :
    Outcome.Spans data f.info.offset cursor s ⟨f.close.ready, none⟩ t := by
  have hsize : f.info.offset + f.close.ready.size = cursor := by rw [size_ready, hf.size]
  exact ⟨h, fun _ => Nat.le_of_eq hsize.symm,
    fun _ => Nat.le_trans (Nat.le_of_eq hsize) (Nat.le_max_left _ _)⟩

end Frame.Spanning

section Load

variable {env : Env κ}

/-- What blank atoms of bytes are made into. -/
def SpansBytes (data : Bytes) (part : LoadPart (LoadM κ) κ) : Prop :=
  ∀ frames a s, a.IsBlank → a.isBits = false → s.Shows data →
    Ends (part frames a) s (Outcome.Spans data a.info.offset a.info.offset s)

/-! ## Atoms without parts -/

/-- An atom without parts has the bytes that were read for it. -/
theorem Atom.size_withBytes {a : Atom κ} (hbits : a.isBits = false) (htail : a.info.tail = [])
    (layout : Layout κ) (raw : Bytes) (undecodable : Bool) :
    (((a.mapInfo fun info => { info with undecodable }).withBytes layout raw)).ready.size
      = raw.length := by
  obtain ⟨info, content, parts⟩ := a
  rw [isBits, info_node] at hbits
  rw [info_node] at htail
  rw [size_ready, withBytes_eq]
  cases layout <;> simp [mapInfo, fill, Layout.stored, size, contentSize, hbits, htail]

theorem spans_loadLeaf {layout : Layout κ} (frames : List (Frame κ)) {a : Atom κ}
    (hbits : a.isBits = false) (htail : a.info.tail = []) {s : LoadState κ} (hs : s.Shows data) :
    Ends (loadLeaf env layout frames a) s (Outcome.Spans data a.info.offset a.info.offset s) := by
  rw [loadLeaf]
  refine (LoadState.Goes.of_leaves (LoadM.reads_readLeaf env.config frames layout a.info.offset)
    (LoadM.leaves_readLeaf _ _ _ _) hs).bind fun result t ht => ?_
  split
  · exact Ends.pure (.failed ht.1 _ _)
  · rename_i raw
    have hdone (u : LoadState κ) (hu : s.Goes data u) : Outcome.Spans data a.info.offset a.info.offset s
        ⟨((a.mapInfo fun info =>
          { info with undecodable := layout.isUndecodable raw }).withBytes layout raw).ready, none⟩ u := by
      refine ⟨hu, fun _ => Nat.le_add_right _ _, fun _ => ?_⟩
      rw [size_withBytes hbits htail]
      exact ht.2.within rfl
    dsimp only
    split
    · exact (LoadM.goes_warn _ ht.1.shows).bind fun _ u hu => Ends.pure (hdone u (ht.1.trans hu))
    · exact Ends.pure (hdone t ht.1)

/-! ## Arrays -/

variable {part : LoadPart (LoadM κ) κ}

theorem spans_loadCounted (hpart : SpansBytes data part) (element : Layout κ)
    (frames : List (Frame κ)) (count : Nat) {f : Frame κ} {cursor : Nat} (hf : f.Spanning cursor)
    (index : Nat) {s : LoadState κ} (hs : s.Shows data) :
    Ends (loadCounted part element frames count f index cursor) s
      (Outcome.Spans data f.info.offset cursor s) := by
  induction count generalizing f index cursor s with
  | zero => exact Ends.pure (hf.spans (.refl hs))
  | succ count ih =>
    rw [loadCounted]
    refine (LoadM.goes_spawn (toString index) (.bytes element) cursor hs).bind fun blank t ht => ?_
    obtain ⟨hempty, hlayout, hoffset, ht⟩ := ht
    refine (hpart _ _ _ hempty (by rw [isBits, hlayout]; rfl) ht.shows).bind fun out u hu => ?_
    have hout := hu.ofGoes ht
    dsimp only
    split
    · exact Ends.pure (.failed hout.goes _ _)
    · rename_i herror
      split
      · exact Ends.pure (.failed hout.goes _ _)
      · rename_i hspan
        exact (ih (hf.pushed hspan) _ hout.goes.shows).mono fun _ _ hrest =>
          hout.afterPart hoffset herror hspan hrest

/-- What the elements of a block array were made into. -/
structure BlockOutcome.Spans (data : Bytes) (info : Info κ) (start : Nat) (s : LoadState κ)
    (out : BlockOutcome κ) (t : LoadState κ) : Prop where
  goes : s.Goes data t
  spanning : out.error? = none → ∃ g : Frame κ, out.atom = g.close ∧ g.info = info
    ∧ g.Spanning out.cursor
  reaches : out.error? = none → start ≤ out.cursor
  within : out.error? = none → out.cursor ≤ max start data.length

theorem BlockOutcome.Spans.failed {info : Info κ} {start cursor : Nat} {s t : LoadState κ}
    (h : s.Goes data t) (a : Atom κ) (e : Error) :
    BlockOutcome.Spans data info start s ⟨a, cursor, some e⟩ t :=
  ⟨h, nofun, nofun, nofun⟩

theorem Frame.Spanning.spansBlock {f : Frame κ} {cursor : Nat} (hf : f.Spanning cursor)
    {s t : LoadState κ} (h : s.Goes data t) :
    BlockOutcome.Spans data f.info cursor s ⟨f.close, cursor, none⟩ t :=
  ⟨h, fun _ => ⟨f, rfl, rfl, hf⟩, fun _ => Nat.le_refl _, fun _ => Nat.le_max_left _ _⟩

theorem spans_loadBlockElements (hpart : SpansBytes data part) (element : Layout κ) (limit : Nat)
    (frames : List (Frame κ)) (fuel : Nat) {f : Frame κ} {cursor : Nat} (hf : f.Spanning cursor)
    (index : Nat) {s : LoadState κ} (hs : s.Shows data) :
    Ends (loadBlockElements part element limit frames fuel f index cursor) s
      (BlockOutcome.Spans data f.info cursor s) := by
  induction fuel generalizing f index cursor s with
  | zero => exact Ends.pure (hf.spansBlock (.refl hs))
  | succ fuel ih =>
    rw [loadBlockElements]
    split
    · exact Ends.pure (hf.spansBlock (.refl hs))
    · split
      · exact Ends.pure (hf.spansBlock (.refl hs))
      · rename_i layout _
        refine (LoadM.goes_spawn (toString index) (.bytes layout) cursor hs).bind fun blank t ht => ?_
        obtain ⟨hempty, hlayout, hoffset, ht⟩ := ht
        have hwindow : Ends (LoadM.inWindow limit (part (f :: frames) blank)) t fun out u =>
            out.Spans data cursor cursor t u := by
          refine (LoadM.goes_inWindow (fun out => (out.error? = none → cursor ≤ cursor + out.atom.size)
            ∧ (out.error? = none → cursor + out.atom.size ≤ max cursor data.length)) limit
            (fun s hs => ?_) ht.shows).mono fun out u hu => ⟨hu.1, hu.2.1, hu.2.2⟩
          refine (hpart _ _ _ hempty (by rw [isBits, hlayout]; rfl) hs).mono fun out u hu => ?_
          rw [hoffset] at hu
          exact ⟨hu.goes, hu.reaches, hu.within⟩
        refine hwindow.bind fun out u hu => ?_
        have hgoes := ht.trans hu.goes
        split
        · split
          · exact (LoadM.goes_release out.atom hgoes.shows).bind fun _ v hv =>
              Ends.pure (hf.spansBlock (hgoes.trans hv))
          · exact Ends.pure (.failed hgoes _ _)
        · rename_i herror
          have hwithin := hu.within herror
          dsimp only
          split
          · rename_i hzero
            have hnew := hf.push out.atom
            rw [hzero, Nat.add_zero] at hnew
            exact Ends.pure (hnew.spansBlock hgoes)
          · split
            · exact Ends.pure (.failed hgoes _ _)
            · rename_i next hspan
              refine (ih (hf.pushed hspan) _ hgoes.shows).mono fun last v hv => ?_
              obtain ⟨rfl, -⟩ := spanEnd_eq hspan
              refine ⟨hgoes.trans hv.goes, hv.spanning, fun hnone => ?_, fun hnone => ?_⟩
              · exact Nat.le_trans (Nat.le_add_right _ _) (hv.reaches hnone)
              · have hfurther := hv.within hnone
                omega

/-- A block array has all its bytes. -/
theorem spans_loadBlock (hpart : SpansBytes data part) (element : Layout κ) (extent : Nat)
    (frames : List (Frame κ)) {a : Atom κ} (ha : a.frame.Spanning a.info.offset) {s : LoadState κ}
    (hs : s.Shows data) :
    Ends (loadBlock part element extent frames a) s fun out t =>
      out.Spans data a.info.offset a.info.offset s t ∧ (out.error? = none → extent ≤ out.atom.size) := by
  rw [loadBlock]
  split
  · exact Ends.pure ⟨.failed (.refl hs) _ _, fun h => by cases h⟩
  · rename_i limit hspan
    obtain ⟨rfl, -⟩ := spanEnd_eq hspan
    refine (spans_loadBlockElements hpart element _ frames extent ha 0 hs).bind fun out t ht => ?_
    split
    · exact Ends.pure ⟨.failed ht.goes _ _, fun h => by cases h⟩
    · rename_i herror
      obtain ⟨g, hatom, hinfo, hg⟩ := ht.spanning herror
      have hoffset : g.info.offset = a.info.offset := congrArg Info.offset hinfo
      have hcontent := hg.contentSize
      have hsize := hg.size
      have hwithin := ht.within herror
      rw [hoffset] at hcontent hsize
      rw [hatom]
      split
      · rename_i hfull
        refine Ends.pure ⟨⟨ht.goes, fun _ => Nat.le_add_right _ _, fun _ => ?_⟩, fun _ => ?_⟩ <;>
          rw [size_ready] <;> omega
      · rename_i hleft
        refine (LoadM.goes_readAt _ _ ht.goes.shows).bind fun result u hu => ?_
        have hgoes := ht.goes.trans hu.1
        split
        · exact Ends.pure ⟨.failed hgoes _ _, fun h => by cases h⟩
        · rename_i tail
          obtain ⟨hlength, hread⟩ := hu.2 tail rfl
          refine (LoadM.goes_warn _ hgoes.shows).bind fun _ v hv => ?_
          refine Ends.pure ⟨⟨hgoes.trans hv, fun _ => Nat.le_add_right _ _, fun _ => ?_⟩, fun _ => ?_⟩ <;>
            rw [size_ready, size_withTail, hlength] <;> omega

theorem spans_loadOpen (hpart : SpansBytes data part) (element : Layout κ) (rule? : Option κ)
    (frames : List (Frame κ)) (budget : Nat) {f : Frame κ} {cursor : Nat} (hf : f.Spanning cursor)
    (index : Nat) {s : LoadState κ} (hs : s.Shows data) :
    Ends (loadOpen env part element rule? frames budget f index cursor) s
      (Outcome.Spans data f.info.offset cursor s) := by
  induction budget generalizing f index cursor s with
  | zero => exact Ends.pure (.failed (.refl hs) _ _)
  | succ budget ih =>
    rw [loadOpen]
    refine LoadM.goes_viewEnd.bind fun viewEnd? s' hs' => ?_
    subst hs'
    split
    · exact Ends.pure (hf.spans (.refl hs))
    · refine (LoadM.goes_spawn (toString index) (.bytes element) cursor hs).bind fun blank t ht => ?_
      obtain ⟨hempty, hlayout, hoffset, ht⟩ := ht
      refine (hpart _ _ _ hempty (by rw [isBits, hlayout]; rfl) ht.shows).bind fun out u hu => ?_
      have hout := hu.ofGoes ht
      split
      · split
        · exact Ends.pure (.failed hout.goes _ _)
        · refine (LoadM.goes_release out.atom hout.goes.shows).bind fun _ v hv => ?_
          have hgoes := hout.goes.trans hv
          split
          · exact Ends.pure (hf.spans hgoes)
          · refine LoadM.goes_viewEnd.bind fun viewEnd? w hw => ?_
            subst hw
            split
            · exact (LoadM.goes_warn _ hgoes.shows).bind fun _ x hx =>
                Ends.pure (hf.spans (hgoes.trans hx))
            · exact Ends.pure (.failed hgoes _ _)
      · rename_i herror
        split
        · exact Ends.pure (.failed hout.goes _ _)
        · rename_i hspan
          have hnew := hf.pushed hspan
          split
          · exact Ends.pure (hout.afterPart hoffset herror hspan (hnew.spans (.refl hout.goes.shows)))
          · exact (ih hnew _ hout.goes.shows).mono fun _ _ hrest =>
              hout.afterPart hoffset herror hspan hrest

/-! ## Records and unions -/

/-- A field of a forced extent has all its bytes. -/
theorem spans_loadSized (hpart : SpansBytes data part) (frames : List (Frame κ)) {a : Atom κ}
    (ha : a.IsBlank) (hbits : a.isBits = false) (extent : Nat) {s : LoadState κ} (hs : s.Shows data) :
    Ends (loadSized part frames a extent) s fun out t =>
      out.Spans data a.info.offset a.info.offset s t ∧ (out.error? = none → extent ≤ out.atom.size) := by
  let sized := a.mapInfo fun info => { info with extent? := some extent }
  have hsite : sized.info.site = a.info.site := by
    cases a
    rfl
  have hsized : sized.IsBlank := by
    rw [isBlank_iff] at ha ⊢
    simpa [sized] using ha
  have hoffset : sized.info.offset = a.info.offset := Info.offset_of_site hsite
  rw [loadSized]
  dsimp only
  split
  · exact Ends.pure ⟨.failed (.refl hs) _ _, fun h => by cases h⟩
  · rename_i limit _
    have hwindow : Ends (LoadM.inWindow limit (part frames sized)) s fun out t =>
        s.Goes data t ∧ (out.error? = none →
          a.info.offset + out.atom.size ≤ max a.info.offset data.length) := by
      refine LoadM.goes_inWindow _ limit (fun s hs => ?_) hs
      refine (hpart _ _ _ hsized ((isBits_of_site hsite).trans hbits) hs).mono fun out u hu => ?_
      rw [hoffset] at hu
      exact ⟨hu.goes, hu.within⟩
    refine hwindow.bind fun out t ht => ?_
    obtain ⟨hgoes, hwithin⟩ := ht
    split
    · rename_i hdone
      refine Ends.pure ⟨⟨hgoes, fun _ => Nat.le_add_right _ _, hwithin⟩, fun herror => ?_⟩
      have hused : extent ≤ out.atom.contentSize := by simpa [herror] using hdone
      exact Nat.le_trans hused (Nat.le_add_right _ _)
    · rename_i hshort
      rw [not_or, Nat.not_le] at hshort
      have herror : out.error? = none := by simpa using hshort.1
      have hroom := hwithin herror
      refine (LoadM.goes_readAt _ _ hgoes.shows).bind fun result u hu => ?_
      split
      · exact Ends.pure ⟨.failed (hgoes.trans hu.1) _ _, fun h => by cases h⟩
      · rename_i tail
        obtain ⟨hlength, hread⟩ := hu.2 tail rfl
        rw [hoffset] at hread
        rw [size] at hroom
        refine Ends.pure ⟨⟨hgoes.trans hu.1, fun _ => Nat.le_add_right _ _, fun _ => ?_⟩, fun _ => ?_⟩ <;>
          rw [size_withTail, hlength] <;> omega

theorem spans_loadField (hpart : SpansBytes data part) (frames : List (Frame κ)) (f : Frame κ)
    (index : Nat) (extent? : Option κ) {blank : Atom κ} (hblank : blank.IsBlank)
    (hbits : blank.isBits = false) {s : LoadState κ} (hs : s.Shows data) :
    Ends (loadField env part frames f index extent? blank) s
      (Outcome.Spans data blank.info.offset blank.info.offset s) := by
  cases extent? with
  | none => exact hpart _ _ _ hblank hbits hs
  | some rule =>
    rw [loadField]
    split
    · exact Ends.pure (.failed (.refl hs) _ _)
    · exact (spans_loadSized hpart _ hblank hbits _ hs).mono fun _ _ h => h.1

theorem spans_loadFields (hpart : SpansBytes data part) (frames : List (Frame κ)) {f : Frame κ}
    {cursor : Nat} (hf : f.Spanning cursor) (index : Nat) (fields : List (Field κ (Layout κ)))
    {s : LoadState κ} (hs : s.Shows data) :
    Ends (loadFields env part frames f index cursor fields) s
      (Outcome.Spans data f.info.offset cursor s) := by
  induction fields generalizing f index cursor s with
  | nil => exact Ends.pure (hf.spans (.refl hs))
  | cons field fields ih =>
    rw [loadFields]
    split
    · exact Ends.pure (.failed (.refl hs) _ _)
    · rename_i layout _
      refine (LoadM.goes_spawn field.name (.bytes layout) cursor hs).bind fun blank t ht => ?_
      obtain ⟨hempty, hlayout, hoffset, ht⟩ := ht
      refine (spans_loadField hpart frames f index field.extent? hempty (by rw [isBits, hlayout]; rfl)
        ht.shows).bind fun out u hu => ?_
      have hout := hu.ofGoes ht
      dsimp only
      split
      · exact Ends.pure (.failed hout.goes _ _)
      · rename_i herror
        split
        · exact Ends.pure (.failed hout.goes _ _)
        · rename_i hspan
          exact (ih (hf.pushed hspan) _ hout.goes.shows).mono fun _ _ hrest =>
            hout.afterPart hoffset herror hspan hrest

/-- Members take no bytes besides those of their union. -/
theorem spans_loadMembers (hpart : ∀ bytes : Bytes, SpansBytes bytes part) {backing : Bytes}
    (frames : List (Frame κ)) {f : Frame κ} (hcontent : f.content = .overlay backing)
    (hbits : f.info.layout.isBits = false) (htail : f.info.tail = [])
    (members : List (String × Layout κ)) {s : LoadState κ} (hs : s.Shows data) :
    Ends (loadMembers part backing frames f members) s fun out t =>
      s.Goes data t ∧ (out.error? = none → out.atom.size = backing.length) := by
  induction members generalizing f s with
  | nil =>
    refine Ends.pure ⟨.refl hs, fun _ => ?_⟩
    rw [size_ready, size, contentSize_of_bytes (a := f.close) hbits, Frame.content_close, hcontent,
      Frame.info_close, htail]
    rfl
  | cons member members ih =>
    obtain ⟨name, layout⟩ := member
    rw [loadMembers]
    refine (LoadM.goes_spawn name (.bytes layout) f.info.offset hs).bind fun blank t ht => ?_
    obtain ⟨hempty, hlayout, -, ht⟩ := ht
    have hmember : Ends (LoadM.fromBytes backing f.info.offset (part (f :: frames) blank)) t
        fun _ u => t.Goes data u ∧ True :=
      LoadM.goes_fromBytes backing f.info.offset (fun bytes s hs =>
        (hpart bytes _ _ _ hempty (by rw [isBits, hlayout]; rfl) hs).mono fun _ _ h =>
          ⟨h.goes, trivial⟩) ht.shows
    refine hmember.bind fun out u hu => ?_
    have hgoes := ht.trans hu.1
    dsimp only
    split
    · exact Ends.pure ⟨hgoes, fun h => by cases h⟩
    · exact (ih (f := f.push out.atom) hcontent hbits htail hgoes.shows).mono fun _ _ hrest =>
        ⟨hgoes.trans hrest.1, hrest.2⟩

theorem spans_loadUnion (hpart : ∀ bytes : Bytes, SpansBytes bytes part)
    (members : List (String × Layout κ)) (size : Nat) (frames : List (Frame κ)) {a : Atom κ}
    (hbits : a.isBits = false) (htail : a.info.tail = []) {s : LoadState κ} (hs : s.Shows data) :
    Ends (loadUnion part members size frames a) s fun out t =>
      out.Spans data a.info.offset a.info.offset s t ∧ (out.error? = none → out.atom.size = size) := by
  rw [loadUnion]
  refine (LoadM.goes_readAt _ _ hs).bind fun result t ht => ?_
  split
  · exact Ends.pure ⟨.failed ht.1 _ _, fun h => by cases h⟩
  · rename_i backing
    obtain ⟨hlength, hread⟩ := ht.2 backing rfl
    refine (spans_loadMembers hpart (f := (a.fill (.overlay backing) []).frame) frames rfl hbits htail
      members ht.1.shows).mono fun out u hu => ?_
    obtain ⟨hgoes, hsize⟩ := hu
    rw [hlength] at hsize
    refine ⟨⟨ht.1.trans hgoes, fun _ => Nat.le_add_right _ _, fun herror => ?_⟩, hsize⟩
    rw [hsize herror]
    exact hread

/-! ## Hosts of bits -/

/-- A host has the bits of its root and the unused ones. -/
theorem Atom.size_hostedBits {a : Atom κ} (hbits : a.isBits = false) (htail : a.info.tail = [])
    (root : Atom κ) (pad : Bitmap) :
    (hostedBits a root pad).ready.size = bytesOfBits (root.bitCount + pad.width) := by
  rw [size_ready, size, contentSize_of_bytes (a := hostedBits a root pad) hbits]
  show bytesOfBits (bitCount root + 0 + pad.width) + a.info.tail.length = _
  rw [htail]
  rfl

/-- Bits that were read, and how many bytes they are. -/
theorem BitLoadM.goes_run {env : Env κ} (depth : Nat) (order : ByteOrder) (offset : Nat)
    (frames : List (Frame κ)) (root : Atom κ) {s : LoadState κ} (hs : s.Shows data)
    (hoffset : s.Stands offset) :
    Ends (BitLoadM.run order offset (loadBits env depth frames root)) s fun result t =>
      s.Goes data t ∧ (result.1.error? = none →
        offset + bytesOfBits (result.1.atom.bitCount + result.2.width) ≤ max offset data.length) := by
  have hrun := spansBits_loadBits env data depth frames root ⟨s, .new order, offset⟩ ⟨hs, hoffset⟩
  refine BitLoadM.ends_run (hrun.mono fun out t h => ?_)
  refine ⟨⟨h.advances.ready.shows, h.advances.unterminated⟩, fun herror => ?_⟩
  have hcounted := h.counted herror
  have hwithin := h.advances.within
  have hlength := t.length_pending
  simp only [BitLoadState.pending_mk, BitReader.pending_new, List.length_nil] at hcounted hwithin
  simp only [BitReader.width_pad, bytesOfBits]
  omega

theorem spans_loadRoot (depth : Nat) (order : ByteOrder) (frames : List (Frame κ)) {a : Atom κ}
    (root : Atom κ) (hbits : a.isBits = false) (htail : a.info.tail = []) {s : LoadState κ}
    (hs : s.Shows data) :
    Ends (loadRoot env depth order frames a root) s
      (Outcome.Spans data a.info.offset a.info.offset s) := by
  rw [loadRoot]
  have hseek : Ends (LoadM.seekTo a.info.offset 1) s fun result t => s.Goes data t
      ∧ (result = .ok () → t.Stands a.info.offset) :=
    ⟨⟨(LoadM.shows_seekTo _ _ hs).1, Nat.le_refl _⟩, (LoadM.shows_seekTo _ _ hs).2⟩
  refine hseek.bind fun result t ht => ?_
  split
  · exact Ends.pure (.failed ht.1 _ _)
  · refine (BitLoadM.goes_run depth order a.info.offset _ root ht.1.shows (ht.2 rfl)).bind
      fun result u hu => ?_
    obtain ⟨out, pad⟩ := result
    have hgoes := ht.1.trans hu.1
    dsimp only
    split
    · exact Ends.pure (.failed hgoes _ _)
    · rename_i herror
      refine Ends.pure ⟨hgoes, fun _ => Nat.le_add_right _ _, fun _ => ?_⟩
      rw [size_hostedBits hbits htail]
      exact hu.2 herror

theorem spans_loadHost (depth : Nat) {layout : BitLayout κ} {order : ByteOrder}
    (frames : List (Frame κ)) {a : Atom κ} (hbits : a.isBits = false) (htail : a.info.tail = [])
    {s : LoadState κ} (hs : s.Shows data) :
    Ends (loadHost env depth layout order frames a) s
      (Outcome.Spans data a.info.offset a.info.offset s) := by
  rw [loadHost]
  split
  · exact Ends.pure (.failed (.refl hs) _ _)
  · rename_i position _
    refine (LoadM.goes_spawn "" (.bits layout) position hs).bind fun root t ht => ?_
    obtain ⟨-, hlayout, -, ht⟩ := ht
    split
    · rename_i hzero
      have hmade : Ends (LoadM.ofLedger (allocateBits env depth
          ((a.fill (.host .empty) []).frame :: frames) root)) t fun out u =>
          t.Goes data u ∧ (out.error? = none → out.atom.bitCount = 0) :=
        ⟨⟨ht.shows, Nat.le_of_eq (congrArg (List.countP Warning.isUnterminated)
          (leaves_allocateBits env depth _ root t.ledger)).symm⟩,
          keepsWidth_allocateBits env depth _ root layout 0 t.ledger hlayout hzero⟩
      refine hmade.bind fun out u hu => ?_
      have hgoes := ht.trans hu.1
      split
      · exact Ends.pure (.failed hgoes _ _)
      · rename_i herror
        refine Ends.pure ⟨hgoes, fun _ => Nat.le_add_right _ _, fun _ => ?_⟩
        rw [size_hostedBits hbits htail, hu.2 herror]
        exact Nat.le_max_left _ _
    · exact (spans_loadRoot depth order frames root hbits htail ht.shows).mono fun _ _ h =>
        h.ofGoes ht

/-! ## Loading -/

/-- An atom of bytes that was loaded ends inside the data, whatever it held before. -/
theorem spans_load (env : Env κ) (data : Bytes) (depth : Nat) (frames : List (Frame κ)) (a : Atom κ)
    {s : LoadState κ} (hs : s.Shows data) :
    Ends (load env depth frames a) s (Outcome.Spans data a.info.offset a.info.offset s) := by
  induction depth generalizing data frames a s with
  | zero => exact Ends.pure (.failed (.refl hs) _ _)
  | succ depth ih =>
    have hpart (bytes : Bytes) : SpansBytes bytes (load env depth) := fun frames a s _ _ hs =>
      ih bytes frames a hs
    rw [load]
    split
    · exact Ends.pure (.failed (.refl hs) _ _)
    · rename_i layout hlayout
      refine (LoadM.goes_clear a hs).bind fun b t hb => ?_
      obtain ⟨hblank, hsite, ht⟩ := hb
      have hsame : b.info.layout = .bytes layout := (Info.layout_of_site hsite).trans hlayout
      have hbits : b.isBits = false := by rw [isBits, hsame]; rfl
      have hstart : (b.fill .group []).frame.Spanning b.info.offset :=
        .start hbits hblank.tail
      rw [← Info.offset_of_site hsite]
      have hback (out : Outcome κ) (u : LoadState κ)
          (h : out.Spans data b.info.offset b.info.offset t u) :
          out.Spans data b.info.offset b.info.offset s u := h.ofGoes ht
      cases layout
      case record name fields =>
        exact (spans_loadFields (hpart data) frames hstart 0 fields ht.shows).mono hback
      case array element shape =>
        cases shape with
        | counted count =>
          exact (spans_loadCounted (hpart data) element frames count hstart 0 ht.shows).mono hback
        | block extent =>
          exact (spans_loadBlock (hpart data) element extent frames hstart ht.shows).mono
            fun _ _ h => hback _ _ h.1
        | terminated rule =>
          exact (spans_loadOpen (hpart data) element _ frames _ hstart 0 ht.shows).mono hback
        | unending =>
          exact (spans_loadOpen (hpart data) element _ frames _ hstart 0 ht.shows).mono hback
      case union name members size =>
        exact (spans_loadUnion hpart members size frames hbits hblank.tail ht.shows).mono
          fun _ _ h => hback _ _ h.1
      case bits root order =>
        exact (spans_loadHost depth frames hbits hblank.tail ht.shows).mono hback
      all_goals exact (spans_loadLeaf frames hbits hblank.tail ht.shows).mono hback

end Load

end BinaryLayout
