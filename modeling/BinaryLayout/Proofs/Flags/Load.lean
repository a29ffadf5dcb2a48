import BinaryLayout.Proofs.Flags.Text
import BinaryLayout.Proofs.Making.Load

/-!
# Flags of atoms

An atom says of itself that its bytes do not decode, and that a null pointer refers to it, so that there is
nothing to be found where it would be. Loading sets the first of these flags by the bytes that it reads, and
allocating gives bytes that decode. Neither gives content to what a null pointer refers to unless it is asked
for exactly that, because such an atom is a part of its pointer alone.

## Main definitions

* `Leeway`: what is left open about the flags of atoms.
* `Atom.Flagged`: the flags of an atom tell the truth.
* `Atom.Truthful`: they do so in a whole tree, and the flag of a null referent on its top is known.

## Main statements

* `Makes.truthful`: the steps in which atoms are made leave flags that tell the truth.
* `truthful_load`, `truthful_allocate`, `truthful_allocateBits`: atoms that are made, whatever they held before.
-/

namespace BinaryLayout

variable {κ : Type}

open Atom

/-- What is left open about the flags of atoms. -/
structure Leeway where
  /-- What a null pointer refers to may have content. -/
  content : Prop
  /-- A text may have such bytes without being marked, whether they decode or not. -/
  bytes : Bytes → Prop

/-- The flags of the atom tell the truth, but for what is left open: a text is marked if and only if its bytes
do not decode, and what a null pointer refers to has no content. Only pointers refer to nothing. -/
structure Atom.Flagged (w : Leeway) (a : Atom κ) : Prop where
  marked : a.info.undecodable = true →
    a.info.null = false ∧ a.info.layout.isUndecodable a.content = true
  unmarked : a.info.layout.isUndecodable a.content = true →
    a.info.undecodable = true ∨ ∃ raw, a.content = .raw raw ∧ w.bytes raw
  null : a.info.null = true →
    w.content ∨ a.info.initialized = false ∧ a.content = .empty ∧ a.info.tail = []
  parts : (∀ wire, a.content ≠ .pointer wire) → ∀ part ∈ a.parts, part.info.null = false

/-- All flags in the tree tell the truth, and `null` is whether a null pointer refers to the atom on top. -/
structure Atom.Truthful (w : Leeway) (null : Bool) (a : Atom κ) : Prop where
  null : a.info.null = null
  flags : Everywhere (Flagged w) a

section Flags

variable {w : Leeway} {null : Bool}

namespace Atom

variable {a : Atom κ}

theorem IsBlank.undecodable (h : a.IsBlank) : a.info.undecodable = false := (isBlank_iff.1 h).2.2.1

/-- An atom without content says nothing that is not so. -/
theorem IsBlank.truthful (h : a.IsBlank) (hnull : a.info.null = null) : a.Truthful w null := by
  obtain ⟨htail, hinitialized, hundecodable, hcontent, hparts⟩ := isBlank_iff.1 h
  refine ⟨hnull, everywhere_iff.2
    ⟨⟨fun hmarked => ?_, fun hraw => ?_, fun _ => ?_, fun _ => ?_⟩, ?_⟩⟩
  · rw [hundecodable] at hmarked
    cases hmarked
  · obtain ⟨raw, hraw⟩ := AtomLayout.raw_of_isUndecodable hraw
    rw [hcontent] at hraw
    cases hraw
  · exact .inr ⟨hinitialized, hcontent, htail⟩
  · rw [hparts]
    exact nofun
  · rw [hparts]
    exact nofun

/-- Other content that is not that of a text, and other parts, in an atom that has content. -/
theorem Flagged.refill {b : Atom κ} (h : a.Flagged w) (hinfo : b.info = a.info)
    (hkind : b.content.kind = a.content.kind) (hraw : ∀ raw, a.content ≠ .raw raw)
    (hparts : (∀ wire, b.content ≠ .pointer wire) → ∀ part ∈ b.parts, part.info.null = false) :
    b.Flagged w := by
  have hplain {layout : AtomLayout κ} {content : Content} (hno : ∀ raw, content ≠ .raw raw) :
      layout.isUndecodable content = false := by
    refine Bool.eq_false_iff.2 fun hundecodable => ?_
    obtain ⟨raw, hcontent⟩ := AtomLayout.raw_of_isUndecodable hundecodable
    exact hno raw hcontent
  have hraw' (raw : Bytes) : b.content ≠ .raw raw := fun hcontent => by
    rw [hcontent] at hkind
    cases hown : a.content with
    | raw raw => exact hraw raw hown
    | empty | group | overlay | pointer | host | bits =>
      rw [hown] at hkind
      cases hkind
  refine ⟨fun hmarked => ?_, fun hundecodable => ?_, fun hnull => ?_, hparts⟩
  · have hundecodable := (h.marked (hinfo ▸ hmarked)).2
    cases hundecodable.symm.trans (hplain hraw)
  · cases hundecodable.symm.trans (hplain hraw')
  · rw [hinfo] at hnull ⊢
    refine (h.null hnull).imp_right fun ⟨hinitialized, hempty, htail⟩ => ⟨hinitialized, ?_, htail⟩
    rw [hempty] at hkind
    cases hcontent : b.content with
    | empty => rfl
    | raw | group | overlay | pointer | host | bits =>
      rw [hcontent] at hkind
      cases hkind

theorem null_cleared (a : Atom κ) : a.cleared.info.null = a.info.null := by
  obtain ⟨info, content, parts⟩ := a
  rfl

theorem layout_cleared (a : Atom κ) : a.cleared.info.layout = a.info.layout :=
  Info.layout_of_site (site_cleared a)

theorem undecodable_cleared (a : Atom κ) : a.cleared.info.undecodable = false :=
  (isBlank_cleared a).undecodable

/-- Other information does not matter, as long as a null referent stays without content. -/
theorem Truthful.mapInfo (h : a.Truthful w null) {change : Info κ → Info κ}
    (hlayout : (change a.info).layout = a.info.layout) (hnull : (change a.info).null = a.info.null)
    (hmark : (change a.info).undecodable = a.info.undecodable)
    (hkept : null = true → w.content
      ∨ (change a.info).initialized = a.info.initialized ∧ (change a.info).tail = a.info.tail) :
    (a.mapInfo change).Truthful w null := by
  obtain ⟨hsame, hflags⟩ := h
  obtain ⟨hhere, hparts⟩ := everywhere_iff.1 hflags
  refine ⟨by rw [info_mapInfo, hnull, hsame], everywhere_iff.2 ⟨⟨?_, ?_, ?_, ?_⟩, ?_⟩⟩
  · rw [info_mapInfo, content_mapInfo, hmark, hnull, hlayout]
    exact hhere.marked
  · rw [info_mapInfo, content_mapInfo, hmark, hlayout]
    exact hhere.unmarked
  · rw [info_mapInfo, content_mapInfo, hnull]
    intro hisnull
    rcases hkept (hsame.symm.trans hisnull) with hpermitted | ⟨hinitialized, htail⟩
    · exact .inl hpermitted
    · rw [hinitialized, htail]
      exact hhere.null hisnull
  · rw [content_mapInfo, parts_mapInfo]
    exact hhere.parts
  · rw [parts_mapInfo]
    exact hparts

/-- An atom that may have content is ready. -/
theorem Truthful.ready (h : a.Truthful w null) (hnull : null = true → w.content) :
    a.ready.Truthful w null :=
  h.mapInfo rfl rfl rfl fun hisnull => .inl (hnull hisnull)

theorem Truthful.withTail (h : a.Truthful w null) (hnull : null = true → w.content) (tail : Bytes) :
    (a.withTail tail).Truthful w null :=
  h.mapInfo rfl rfl rfl fun hisnull => .inl (hnull hisnull)

theorem Truthful.forceExtent (h : a.Truthful w null) (hnull : null = true → w.content)
    (config : Config) (extent : Nat) : (a.forceExtent config extent).Truthful w null :=
  h.mapInfo rfl rfl rfl fun hisnull => .inl (hnull hisnull)

/-- An atom that is not marked as undecodable gets content that is none of a text, and parts. -/
theorem truthful_fill (hisnull : a.info.null = null) (hnull : null = true → w.content)
    (hmark : a.info.undecodable = false) (content : Content) (hcontent : ∀ raw, content ≠ .raw raw)
    {parts : List (Atom κ)} (hparts : ∀ part ∈ parts, Everywhere (Flagged w) part)
    (hnulls : (∀ wire, content ≠ .pointer wire) → ∀ part ∈ parts, part.info.null = false) :
    (a.fill content parts).Truthful w null := by
  refine ⟨hisnull, everywhere_iff.2
    ⟨⟨fun hmarked => ?_, fun hraw => ?_, fun h => ?_, hnulls⟩, hparts⟩⟩
  · rw [info_fill, hmark] at hmarked
    cases hmarked
  · obtain ⟨raw, hraw⟩ := AtomLayout.raw_of_isUndecodable hraw
    exact absurd hraw (hcontent raw)
  · exact .inl (hnull (hisnull.symm.trans h))

theorem truthful_fill_nil (hisnull : a.info.null = null) (hnull : null = true → w.content)
    (hmark : a.info.undecodable = false) (content : Content) (hcontent : ∀ raw, content ≠ .raw raw) :
    (a.fill content []).Truthful w null :=
  truthful_fill hisnull hnull hmark content hcontent (fun _ h => nomatch h) fun _ _ h => nomatch h

/-- One more part, which a null pointer refers to only if this is one. -/
theorem Truthful.push (h : a.Truthful w null) {b : Atom κ} (hb : Everywhere (Flagged w) b)
    (hnull : (∀ wire, a.content ≠ .pointer wire) → b.info.null = false) : (a.push b).Truthful w null := by
  obtain ⟨hhere, hparts⟩ := everywhere_iff.1 h.flags
  refine ⟨h.null, everywhere_iff.2 ⟨⟨hhere.marked, hhere.unmarked, hhere.null, fun hpointer => ?_⟩, ?_⟩⟩
  · rw [parts_push]
    exact List.forall_mem_append.2 ⟨hhere.parts hpointer, List.forall_mem_singleton.2 (hnull hpointer)⟩
  · rw [parts_push]
    exact List.forall_mem_append.2 ⟨hparts, List.forall_mem_singleton.2 hb⟩

/-- An atom gets bytes, and is marked if they do not decode. -/
theorem truthful_withBytes {layout : Layout κ} (hlayout : a.info.layout = .bytes layout)
    (hisnull : a.info.null = null) (hnull : null = true → w.content) (undecodable : Bool) (raw : Bytes)
    (hmarked : undecodable = true → null = false ∧ layout.isUndecodable raw = true)
    (hunmarked : layout.isUndecodable raw = true → undecodable = true ∨ w.bytes raw) :
    ((a.mapInfo fun info => { info with undecodable }).withBytes layout raw).Truthful w null := by
  rw [withBytes_eq]
  refine ⟨by rwa [info_fill, info_mapInfo], everywhere_iff.2 ⟨⟨?_, ?_, ?_, fun _ => nofun⟩, nofun⟩⟩
  · rw [info_fill, info_mapInfo, content_fill, hisnull, hlayout, AtomLayout.isUndecodable_stored]
    exact hmarked
  · rw [info_fill, info_mapInfo, content_fill, hlayout, AtomLayout.isUndecodable_stored]
    refine fun hraw => (hunmarked hraw).imp_right fun hgiven => ⟨raw, ?_, hgiven⟩
    cases layout
    case text => rfl
    all_goals cases hraw
  · rw [info_fill, info_mapInfo]
    exact fun h => .inl (hnull (hisnull.symm.trans h))

end Atom

/-! ## Parts one after another -/

/-- The frame of an atom that is no pointer and gets one part after another. -/
structure Frame.Truthful (w : Leeway) (f : Frame κ) : Prop where
  null : f.info.null = true → w.content
  mark : f.info.undecodable = false
  raw : ∀ raw, f.content ≠ .raw raw
  left : ∀ part ∈ f.left, part.Truthful w false
  right : ∀ part ∈ f.right, part.Truthful w false

namespace Frame.Truthful

variable {f : Frame κ}

/-- The frame of an atom that gets its parts next. -/
theorem of_fill {a : Atom κ} (hnull : a.info.null = true → w.content) (hmark : a.info.undecodable = false)
    {content : Content} (hcontent : ∀ raw, content ≠ .raw raw) : (a.fill content []).frame.Truthful w :=
  ⟨hnull, hmark, hcontent, nofun, nofun⟩

theorem push (hf : f.Truthful w) {a : Atom κ} (ha : a.Truthful w false) :
    (f.push a).Truthful w :=
  ⟨hf.null, hf.mark, hf.raw, List.forall_mem_cons.2 ⟨ha, hf.left⟩, hf.right⟩

theorem close (hf : f.Truthful w) : f.close.Truthful w f.info.null := by
  have hparts : ∀ part ∈ f.left.reverseAux f.right, part.Truthful w false := by
    rw [List.reverseAux_eq]
    exact List.forall_mem_append.2 ⟨fun part hpart => hf.left part (List.mem_reverse.1 hpart), hf.right⟩
  exact truthful_fill (a := f.close) rfl hf.null hf.mark _ hf.raw
    (fun part hpart => (hparts part hpart).flags) fun _ part hpart => (hparts part hpart).null

end Frame.Truthful

/-- A new atom. -/
theorem LedgerM.truthful_spawn (w : Leeway) (name : String) (layout : AtomLayout κ) (offset : Nat)
    (l : Ledger κ) : Ends (LedgerM.spawn name layout offset) l fun a _ => a.Truthful w false :=
  (isBlank_blank ..).truthful rfl

theorem LoadM.truthful_spawn (w : Leeway) (name : String) (layout : AtomLayout κ) (offset : Nat)
    (s : LoadState κ) :
    Ends (LoadM.ofLedger (LedgerM.spawn name layout offset)) s fun a _ => a.Truthful w false :=
  (isBlank_blank ..).truthful rfl

/-! ## The steps -/

/-- The unused bits of a host do not matter. -/
theorem Atom.Flagged.fixPad {a : Atom κ} (h : Everywhere (Flagged w) a) :
    Everywhere (Flagged w) a.fixPad := by
  obtain ⟨info, content, parts⟩ := a
  cases content
  case host pad =>
    refine everywhere_iff.2 ⟨h.here.refill rfl rfl nofun ?_, fun _ => h.part⟩
    exact fun _ => h.here.parts nofun
  all_goals exact h

/-- An atom is blank before it is made, and the flags of the parts that it has so far tell the truth. -/
def Stage.Truthful (w : Leeway) : Stage κ → Prop
  | atom a => a.IsBlank
  | parts f _ _ => f.Truthful w

/-- The flags of an atom that is made tell the truth. What a null pointer refers to is given content only where
that is left open, and then it must not be marked. -/
theorem Makes.truthful {frames : List (Frame κ)} {stage : Stage κ} {l m : Ledger κ} {out : Outcome κ}
    (h : Makes frames stage l out m) (hstage : stage.Truthful w)
    (hnull : stage.top.info.null = true → w.content ∧ out.atom.info.undecodable = false) :
    out.atom.Truthful w stage.top.info.null := by
  induction h with
  | refused => exact IsBlank.truthful hstage rfl
  | @leaf _ a _ layout raw marked hlayout hstores =>
    rw [withBytes_eq, info_fill, info_mapInfo] at hnull
    refine truthful_withBytes hlayout rfl (fun h => (hnull h).1) marked raw (fun hmarked => ?_) fun hraw => ?_
    · refine ⟨Bool.eq_false_iff.2 fun h => ?_, ?_⟩
      · cases hmarked.symm.trans (hnull h).2
      · rcases hstores.marked with hraw | ⟨hunmarked, -⟩
        · exact hraw.symm.trans hmarked
        · cases hunmarked.symm.trans hmarked
    · rcases hstores.marked with hmarked | ⟨-, config, frames, offset, hdefault⟩
      · exact .inl (hmarked.trans hraw)
      · cases (Layout.isUndecodable_defaultBytes hdefault).symm.trans hraw
  | bits _ value =>
    exact truthful_fill_nil rfl (fun h => (hnull h).1) (IsBlank.undecodable hstage) (.bits value)
      fun _ h => by cases h
  | @host _ _ _ _ _ _ _ _ pad _ _ _ _ ih =>
    have hroot := ih (isBlank_blank ..) fun h => by cases h
    exact truthful_fill rfl (fun h => (hnull h).1) (IsBlank.undecodable hstage) (.host pad) (fun _ h => by cases h)
      (List.forall_mem_singleton.2 hroot.flags) fun _ => List.forall_mem_singleton.2 hroot.null
  | sized extent _ ih =>
    rw [Stage.top, info_mapInfo] at ih
    exact ih (IsBlank.sized hstage extent) hnull
  | compound _ hcontent _ ih =>
    refine ih (.of_fill (fun h => (hnull h).1) (IsBlank.undecodable hstage) fun raw h => ?_) hnull
    rcases hcontent with hgroup | ⟨backing, hoverlay⟩
    · cases hgroup.symm.trans h
    · cases hoverlay.symm.trans h
  | complete | stopped => exact Frame.Truthful.close hstage
  | next _ _ _ _ _ ihpart ihrest =>
    exact ihrest (Frame.Truthful.push hstage (ihpart (isBlank_blank ..) fun h => by cases h)) hnull
  | dropped _ _ _ _ ihrest => exact ihrest hstage hnull
  | amended hamends _ ih =>
    rw [info_mapInfo, hamends.undecodable] at hnull
    exact (ih hstage hnull).mapInfo (Info.layout_of_site hamends.site) (Info.null_of_site hamends.site)
      hamends.undecodable fun h => .inl (hnull h).1
  | failed _ _ ih | warned _ _ ih => exact ih hstage hnull

/-- Only texts are ever marked. -/
theorem Makes.unmarked {frames : List (Frame κ)} {stage : Stage κ} {l m : Ledger κ} {out : Outcome κ}
    (h : Makes frames stage l out m) (htext : ∀ format, stage.top.info.layout ≠ .bytes (.text format))
    (hmark : stage.top.info.undecodable = false) : out.atom.info.undecodable = false := by
  induction h with
  | refused | bits | host | complete | stopped => exact hmark
  | @leaf _ _ _ layout _ _ hlayout hstores =>
    rw [withBytes_eq, info_fill, info_mapInfo]
    rcases hstores.marked with hmarked | ⟨hunmarked, -⟩
    · rw [hmarked]
      cases layout
      case text format => exact absurd hlayout (htext format)
      all_goals rfl
    · exact hunmarked
  | sized _ _ ih =>
    rw [Stage.top, info_mapInfo] at ih
    exact ih htext hmark
  | compound _ _ _ ih | failed _ _ ih | warned _ _ ih => exact ih htext hmark
  | next _ _ _ _ _ _ ihrest | dropped _ _ _ _ ihrest => exact ihrest htext hmark
  | amended hamends _ ih =>
    rw [info_mapInfo, hamends.undecodable]
    exact ih htext hmark

theorem MakesOver.unmarked {restarts : Prop} {frames : List (Frame κ)} {a : Atom κ} {l m : Ledger κ}
    {out : Outcome κ} (h : MakesOver restarts frames a l out m) (hrestarts : restarts)
    (htext : ∀ format, a.info.layout ≠ .bytes (.text format)) : out.atom.info.undecodable = false := by
  rcases h with ⟨-, h⟩ | ⟨hstays, -⟩
  · exact h.unmarked (layout_cleared a ▸ htext) (undecodable_cleared a)
  · exact absurd hrestarts hstays

/-- An atom that is emptied first, or else tells the truth, tells it afterwards. -/
theorem MakesOver.truthful {restarts : Prop} {frames : List (Frame κ)} {a : Atom κ} {l m : Ledger κ}
    {out : Outcome κ} (h : MakesOver restarts frames a l out m) (ha : a.Truthful w a.info.null ∨ restarts)
    (hnull : restarts → a.info.null = true → w.content ∧ out.atom.info.undecodable = false) :
    out.atom.Truthful w a.info.null := by
  rcases h with ⟨hrestarts, h⟩ | ⟨hstays, rfl, e, rfl⟩
  · have hblank := hnull hrestarts
    rw [← null_cleared] at hblank ⊢
    exact h.truthful (isBlank_cleared a) hblank
  · exact ha.resolve_right hstays

/-! ## Loading and allocating -/

variable (env : Env κ) (depth : Nat) (frames : List (Frame κ)) {a : Atom κ}

/-- An atom of bytes that is loaded, whatever it held before. -/
theorem truthful_load (hnull : a.info.null = false) (ha : a.Truthful w false ∨ 0 < depth ∧ a.isBits = false)
    (s : LoadState κ) : Ends (load env depth frames a) s fun out _ => out.atom.Truthful w false :=
  (makesOver_load env depth frames a s).mono fun _ _ h =>
    hnull ▸ h.truthful (hnull.symm ▸ ha) fun _ h => by cases hnull.symm.trans h

/-- Default content for an atom of bits, whatever it held before. -/
theorem truthful_allocateBits (hnull : a.info.null = true → w.content)
    (ha : a.Truthful w a.info.null ∨ 0 < depth ∧ a.isBits = true) (l : Ledger κ) :
    Ends (allocateBits env depth frames a) l fun out _ => out.atom.Truthful w a.info.null := by
  refine (makesOver_allocateBits env depth frames a l).mono fun out m h => h.truthful ha fun hbits hisnull => ?_
  refine ⟨hnull hisnull, h.unmarked hbits fun format hlayout => ?_⟩
  rw [isBits, hlayout] at hbits
  cases hbits.2

/-- Default bytes decode. -/
theorem unmarked_allocate (hdepth : 0 < depth) (l : Ledger κ) :
    Ends (allocate env depth frames a) l fun out _ => out.atom.info.undecodable = false := by
  by_cases htext : ∃ format, a.info.layout = .bytes (.text format)
  · obtain ⟨format, hlayout⟩ := htext
    cases depth with
    | zero => cases hdepth
    | succ depth =>
      rw [allocate, hlayout]
      refine Ends.via (fun b _ => b = a.cleared) rfl fun b m hb => ?_
      subst hb
      refine Ends.pure ?_
      rw [allocateLeaf]
      split
      · exact undecodable_cleared a
      · rw [withBytes_eq]
        exact undecodable_cleared a
  · exact (makesOver_allocate env depth frames a l).mono fun _ _ h =>
      h.unmarked hdepth fun format hlayout => htext ⟨format, hlayout⟩

/-- Default content for an atom, whatever it held before. -/
theorem truthful_allocate (hnull : a.info.null = true → w.content)
    (ha : a.Truthful w a.info.null ∨ 0 < depth) (l : Ledger κ) :
    Ends (allocate env depth frames a) l fun out _ => out.atom.Truthful w a.info.null := by
  have hmark : Ends (allocate env depth frames a) l fun out _ =>
      0 < depth → out.atom.info.undecodable = false := fun hdepth => unmarked_allocate env depth frames hdepth l
  exact ((makesOver_allocate env depth frames a l).and hmark).mono fun _ _ h =>
    h.1.truthful ha fun hdepth hisnull => ⟨hnull hisnull, h.2 hdepth⟩

end Flags

end BinaryLayout
