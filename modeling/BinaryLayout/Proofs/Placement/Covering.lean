import BinaryLayout.Proofs.Extent.Document

/-!
# The atom at an offset

The search for the atom at an offset asks the parts of a record or an array one after another and takes
the first answer. In a tree that is laid out, and that does not reach the end of the address space, at
most one part has the byte at the offset, and none of them has it only where the byte is behind all of
them, in the tail of the atom. So the search finds the innermost atom that records and arrays lead to.

## Main definitions

* `Atom.Spans`: the bytes of an atom include the one at an offset.
* `Place.Leads`: an atom is reached through fields and elements only.
* `Place.DeepestAt`: the innermost atom at an offset.

## Main statements

* `Atom.InTurn.exists_spans`, `Atom.InTurn.eq_of_spans`: atoms in turn share out the bytes among them.
* `Place.covering?_spec`: what the search finds.
-/

namespace BinaryLayout

variable {κ : Type}

open Atom

theorem AtomLayout.isRun_of_group {layout : AtomLayout κ} (h : layout.admits .group = true) :
    layout.isRun = true := by
  cases layout with
  | bytes layout => cases layout <;> first | rfl | cases h
  | bits layout => cases layout <;> first | rfl | cases h

/-! ## Bytes shared out -/

namespace Atom

/-- The bytes of the atom include the one at the offset. -/
def Spans (a : Atom κ) (offset : Nat) : Prop :=
  a.byteOffset ≤ offset ∧ offset < a.byteOffset + a.size

/-- The byte after the last one of the atom has an offset too. -/
def Bounded (a : Atom κ) : Prop := a.byteOffset + a.size < pow2 64

theorem byteOffset_of_bytes {a : Atom κ} (h : a.isBits = false) : a.byteOffset = a.info.offset := by
  rw [byteOffset, h]
  rfl

theorem covers_iff {a : Atom κ} (h : a.Bounded) {offset : Nat} :
    Place.covers a offset = true ↔ a.Spans offset := by
  rw [Place.covers, Nat.mod_eq_of_lt h, decide_eq_true_iff, Spans]

namespace InTurn

variable {cursor offset : Nat} {a : Atom κ} {as : List (Atom κ)}

theorem tail_of_lt (h : InTurn false cursor (a :: as)) (hend : cursor + sizes (a :: as) < pow2 64) :
    InTurn false (cursor + a.size) as ∧ cursor + a.size + sizes as < pow2 64 := by
  change cursor + (a.size + sizes as) < pow2 64 at hend
  have hnext := h.2
  rw [satAdd_of_lt (by rw [step]; simp only [Bool.false_eq_true, if_false]; omega)] at hnext
  exact ⟨hnext, by omega⟩

/-- Atoms in turn stand between the offset of the first and the end of the last. -/
theorem within (h : InTurn false cursor as) (hend : cursor + sizes as < pow2 64) (ha : a ∈ as) :
    cursor ≤ a.info.offset ∧ a.info.offset + a.size ≤ cursor + sizes as := by
  induction as generalizing cursor with
  | nil => cases ha
  | cons b as ih =>
    have hsizes : sizes (b :: as) = b.size + sizes as := rfl
    rcases List.mem_cons.1 ha with rfl | ha
    · have hfirst := h.1
      omega
    · obtain ⟨hnext, hrest⟩ := h.tail_of_lt hend
      have hbounds := ih hnext hrest ha
      omega

/-- Atoms in turn leave no byte out. -/
theorem exists_spans (h : InTurn false cursor as) (hend : cursor + sizes as < pow2 64)
    (hlow : cursor ≤ offset) (hhigh : offset < cursor + sizes as) :
    ∃ a ∈ as, a.info.offset ≤ offset ∧ offset < a.info.offset + a.size := by
  induction as generalizing cursor with
  | nil => exact absurd hhigh (Nat.not_lt.2 hlow)
  | cons b as ih =>
    have hsizes : sizes (b :: as) = b.size + sizes as := rfl
    have hfirst := h.1
    by_cases hhere : offset < cursor + b.size
    · exact ⟨b, List.mem_cons_self, by omega⟩
    · obtain ⟨hnext, hrest⟩ := h.tail_of_lt hend
      obtain ⟨a, ha, hspans⟩ := ih hnext hrest (by omega) (by omega)
      exact ⟨a, List.mem_cons_of_mem _ ha, hspans⟩

/-- Atoms in turn share no byte. -/
theorem eq_of_spans {frames : List (Frame κ)} {info : Info κ} {content : Content}
    {left : List (Atom κ)} (h : InTurn false cursor as) (hend : cursor + sizes as < pow2 64)
    {p q : Place κ} (hp : p ∈ Place.partsAmong frames info content left as)
    (hq : q ∈ Place.partsAmong frames info content left as)
    (hspans : p.atom.info.offset ≤ offset ∧ offset < p.atom.info.offset + p.atom.size)
    (hspans' : q.atom.info.offset ≤ offset ∧ offset < q.atom.info.offset + q.atom.size) : p = q := by
  induction as generalizing cursor left with
  | nil => cases hp
  | cons b as ih =>
    have hfirst := h.1
    obtain ⟨hnext, hrest⟩ := h.tail_of_lt hend
    -- every atom after the first one stands behind it
    have hbehind {r : Place κ} (hr : r ∈ Place.partsAmong frames info content (b :: left) as) :
        cursor + b.size ≤ r.atom.info.offset := by
      obtain ⟨before, after, heq, -⟩ := Place.mem_partsAmong.1 hr
      exact (hnext.within hrest (heq ▸ List.mem_append_right _ List.mem_cons_self)).1
    rw [Place.partsAmong, List.mem_cons] at hp hq
    rcases hp with rfl | hp <;> rcases hq with rfl | hq
    · rfl
    · have := hbehind hq
      simp only at hspans
      omega
    · have := hbehind hp
      simp only at hspans'
      omega
    · exact ih hnext hrest hp hq

end InTurn

end Atom

/-! ## The search -/

namespace Place

theorem coveringParts_eq (offset : Nat) (frames : List (Frame κ)) (info : Info κ) (content : Content)
    (left as : List (Atom κ)) :
    coveringParts offset frames info content left as =
      (partsAmong frames info content left as).findSome? fun q => q.covering? offset := by
  induction as generalizing left with
  | nil => rfl
  | cons a as ih =>
    rw [coveringParts, partsAmong, List.findSome?_cons, ih, covering?]
    cases coveringIn offset (⟨info, content, left, as⟩ :: frames) a <;> rfl

/-- An atom that has the byte answers with the answer of its parts, or else with itself. -/
theorem covering?_eq (p : Place κ) (offset : Nat) :
    p.covering? offset =
      if covers p.atom offset then
        if !p.atom.isBits && p.atom.content == .group then
          some ((p.parts.findSome? fun q => q.covering? offset).getD p)
        else some p
      else none := by
  obtain ⟨⟨info, content, parts⟩, frames⟩ := p
  rw [covering?, coveringIn, coveringParts_eq]
  rfl

/-- The second place is the first one or is reached from it through the fields of records and the
elements of arrays. -/
inductive Leads : Place κ → Place κ → Prop
  | refl (p : Place κ) : Leads p p
  | part {p q d : Place κ} (hrun : p.atom.info.layout.isRun = true) (hpart : q ∈ p.parts)
      (hrest : Leads q d) : Leads p d

/-- The innermost of the atoms with the byte at the offset that records and arrays lead to. -/
structure DeepestAt (r : Place κ) (offset : Nat) (d : Place κ) : Prop where
  mem : d ∈ r.preorder
  leads : r.Leads d
  spans : d.atom.Spans offset
  /-- A record or an array has the byte in its tail, after all of its parts. -/
  tail : d.atom.info.layout.isRun = true →
    d.atom.info.offset + d.atom.contentSize ≤ offset ∧ ∀ q ∈ d.parts, ¬ q.atom.Spans offset
  /-- All atoms with the byte are around it. -/
  deepest : ∀ e, r.Leads e → e.atom.Spans offset → e.Leads d

/-! ## What it finds -/

/-- What the search needs to know of the tree below an atom of bytes. -/
structure Laid (p : Place κ) : Prop where
  laid : Everywhere LaidOut p.atom
  shaped : Everywhere Shaped p.atom
  isBits : p.atom.isBits = false
  ends : p.atom.Bounded

namespace Laid

variable {p q : Place κ} {offset : Nat}

/-- The parts of a record or an array stand in turn. -/
theorem inTurn (hp : p.Laid) (hgroup : p.atom.content = .group) :
    InTurn false p.atom.info.offset p.atom.parts
      ∧ p.atom.info.offset + sizes p.atom.parts < pow2 64 := by
  have hseats := hp.laid.here.seats
  have hends : p.atom.byteOffset + (p.atom.contentSize + p.atom.info.tail.length) < pow2 64 := hp.ends
  rw [hgroup, hp.isBits] at hseats
  rw [byteOffset_of_bytes hp.isBits, contentSize_of_bytes hp.isBits, hgroup] at hends
  exact ⟨hseats, by simp only at hends; omega⟩

theorem part (hp : p.Laid) (hgroup : p.atom.content = .group) (hq : q ∈ p.parts) : q.Laid := by
  have hmem := mem_parts_atom hq
  have hbits : q.atom.isBits = false := by
    have hholds := hp.shaped.here.holds
    rw [hgroup] at hholds
    exact (hholds _ hmem).trans hp.isBits
  obtain ⟨hturn, hends⟩ := hp.inTurn hgroup
  refine ⟨hp.laid.part hmem, hp.shaped.part hmem, hbits, ?_⟩
  have hwithin := hturn.within hends hmem
  rw [Bounded, byteOffset_of_bytes hbits]
  omega

/-- Only a record or an array that was loaded or allocated has parts. -/
theorem group_of_part (hp : p.Laid) (hrun : p.atom.info.layout.isRun = true) (hq : q ∈ p.parts) :
    p.atom.content = .group := by
  refine (AtomLayout.content_of_isRun hp.shaped.here.admits hrun).resolve_left fun hempty => ?_
  have hholds := hp.shaped.here.holds
  rw [hempty] at hholds
  have hnil : p.atom.parts = [] := hholds
  exact List.not_mem_nil (hnil ▸ mem_parts_atom hq)

theorem spans_iff (hp : p.Laid) : p.atom.Spans offset ↔
    p.atom.info.offset ≤ offset ∧ offset < p.atom.info.offset + p.atom.size := by
  rw [Spans, byteOffset_of_bytes hp.isBits]

/-- What is inside a record or an array has its bytes from there. -/
theorem spans_of_leads (hp : p.Laid) (h : p.Leads q) (hspans : q.atom.Spans offset) :
    p.atom.Spans offset := by
  induction h with
  | refl p => exact hspans
  | @part p q d hrun hpart _ ih =>
    have hgroup := hp.group_of_part hrun hpart
    have hq := hp.part hgroup hpart
    obtain ⟨hturn, hends⟩ := hp.inTurn hgroup
    have hwithin := hturn.within hends (mem_parts_atom hpart)
    have hsize : p.atom.size = sizes p.atom.parts + p.atom.info.tail.length := by
      rw [size, contentSize_of_bytes hp.isBits, hgroup]
    have hbyte := hq.spans_iff.1 (ih hq hspans)
    rw [hp.spans_iff]
    omega

/-- Only one part has the byte. -/
theorem part_unique (hp : p.Laid) {q' : Place κ} (hgroup : p.atom.content = .group)
    (hq : q ∈ p.parts) (hq' : q' ∈ p.parts) (hspans : q.atom.Spans offset)
    (hspans' : q'.atom.Spans offset) : q = q' := by
  obtain ⟨hturn, hends⟩ := hp.inTurn hgroup
  exact hturn.eq_of_spans hends hq hq' ((hp.part hgroup hq).spans_iff.1 hspans)
    ((hp.part hgroup hq').spans_iff.1 hspans')

/-- A byte that no part has is in the tail, or outside. -/
theorem tail_of_parts (hp : p.Laid) (hgroup : p.atom.content = .group)
    (hspans : p.atom.Spans offset) (hnone : ∀ q ∈ p.parts, ¬ q.atom.Spans offset) :
    p.atom.info.offset + p.atom.contentSize ≤ offset := by
  by_contra hlt
  obtain ⟨hturn, hends⟩ := hp.inTurn hgroup
  rw [contentSize_of_bytes hp.isBits, hgroup, Nat.not_le] at hlt
  obtain ⟨a, ha, hbyte⟩ := hturn.exists_spans hends (hp.spans_iff.1 hspans).1 hlt
  obtain ⟨before, after, hparts⟩ := List.append_of_mem ha
  have hq : (⟨a, ⟨p.atom.info, p.atom.content, before.reverse, after⟩ :: p.frames⟩ : Place κ)
      ∈ p.parts := mem_partsAmong.2 ⟨before, after, hparts, by simp⟩
  exact hnone _ hq ((hp.part hgroup hq).spans_iff.2 hbyte)

/-- The search finds something exactly where the atom has bytes. -/
theorem covering?_eq_none_iff (hp : p.Laid) : p.covering? offset = none ↔ ¬ p.atom.Spans offset := by
  rw [← covers_iff hp.ends, covering?_eq]
  cases covers p.atom offset with
  | false => simp
  | true =>
    rw [if_pos rfl]
    split <;> simp

/-- Nothing is inside an atom that is no record and no array. -/
theorem deepestAt_self_of_content (hp : p.Laid) (hgroup : p.atom.content ≠ .group)
    (hspans : p.atom.Spans offset) : p.DeepestAt offset p := by
  have hparts (hrun : p.atom.info.layout.isRun = true) (q : Place κ) : ¬ q ∈ p.parts :=
    fun hq => hgroup (hp.group_of_part hrun hq)
  refine ⟨p.self_mem_preorder, .refl p, hspans, fun hrun => ⟨?_, fun q hq => absurd hq (hparts hrun q)⟩,
    fun e hleads _ => ?_⟩
  · have hempty := (AtomLayout.content_of_isRun hp.shaped.here.admits hrun).resolve_right hgroup
    rw [contentSize_of_bytes hp.isBits, hempty]
    exact (hp.spans_iff.1 hspans).1
  · cases hleads with
    | refl => exact .refl p
    | part hrun hpart _ => exact absurd hpart (hparts hrun _)

/-- A byte that no part of a record or an array has belongs to its tail. -/
theorem deepestAt_self_of_tail (hp : p.Laid) (hgroup : p.atom.content = .group)
    (hspans : p.atom.Spans offset) (hnone : ∀ q ∈ p.parts, ¬ q.atom.Spans offset) :
    p.DeepestAt offset p := by
  refine ⟨p.self_mem_preorder, .refl p, hspans,
    fun _ => ⟨hp.tail_of_parts hgroup hspans hnone, hnone⟩, fun e hleads hbyte => ?_⟩
  cases hleads with
  | refl => exact .refl p
  | part _ hpart hrest =>
    exact absurd ((hp.part hgroup hpart).spans_of_leads hrest hbyte) (hnone _ hpart)

/-- The innermost atom of a part is that of the record or the array. -/
theorem deepestAt_of_part (hp : p.Laid) (hgroup : p.atom.content = .group) {d : Place κ}
    (hq : q ∈ p.parts) (h : q.DeepestAt offset d) : p.DeepestAt offset d := by
  have hrun := AtomLayout.isRun_of_group (hgroup ▸ hp.shaped.here.admits)
  have hqspans := (hp.part hgroup hq).spans_of_leads h.leads h.spans
  refine ⟨mem_preorder_of_part hq h.mem, .part hrun hq h.leads, h.spans, h.tail,
    fun e hleads hbyte => ?_⟩
  cases hleads with
  | refl => exact .part hrun hq h.leads
  | part _ hpart hrest =>
    have hspans := (hp.part hgroup hpart).spans_of_leads hrest hbyte
    obtain rfl := hp.part_unique hgroup hpart hq hspans hqspans
    exact h.deepest e hrest hbyte

/-- What the search finds is the innermost atom with the byte. -/
theorem deepestAt_covering? (hp : p.Laid) {d : Place κ} (h : p.covering? offset = some d) :
    p.DeepestAt offset d := by
  induction p using induction_parts generalizing d with
  | h p ih =>
    have hspans : p.atom.Spans offset := by
      by_contra hnot
      cases (hp.covering?_eq_none_iff.2 hnot).symm.trans h
    rw [covering?_eq, if_pos ((covers_iff hp.ends).2 hspans), hp.isBits] at h
    by_cases hgroup : p.atom.content = .group
    · rw [hgroup, if_pos (by simp), Option.some.injEq] at h
      cases hfound : p.parts.findSome? fun q => q.covering? offset with
      | none =>
        rw [hfound, Option.getD_none] at h
        subst h
        refine hp.deepestAt_self_of_tail hgroup hspans fun q hq => ?_
        exact (hp.part hgroup hq).covering?_eq_none_iff.1 (List.findSome?_eq_none_iff.1 hfound q hq)
      | some found =>
        rw [hfound, Option.getD_some] at h
        subst h
        obtain ⟨q, hq, hcovering⟩ := List.exists_of_findSome?_eq_some hfound
        exact hp.deepestAt_of_part hgroup hq (ih q hq (hp.part hgroup hq) hcovering)
    · have hne : (p.atom.content == .group) = false := beq_false_of_ne hgroup
      rw [hne, Bool.and_false, if_neg Bool.false_ne_true, Option.some.injEq] at h
      exact h ▸ hp.deepestAt_self_of_content hgroup hspans

end Laid

/-- The search from an atom of bytes that is laid out, and that ends inside the address space, finds
nothing at an offset outside, and otherwise the innermost atom that records and arrays lead to. -/
theorem covering?_spec {r : Place κ} (hlaid : Everywhere LaidOut r.atom)
    (hshaped : Everywhere Shaped r.atom) (hbits : r.atom.isBits = false)
    (hend : r.atom.info.offset + r.atom.size < pow2 64) (offset : Nat) :
    (r.covering? offset = none
      ↔ ¬ (r.atom.info.offset ≤ offset ∧ offset < r.atom.info.offset + r.atom.size))
    ∧ ∀ d, r.covering? offset = some d → r.DeepestAt offset d := by
  have hr : r.Laid := ⟨hlaid, hshaped, hbits, by rwa [Bounded, byteOffset_of_bytes hbits]⟩
  exact ⟨by rw [hr.covering?_eq_none_iff, hr.spans_iff], fun d h => hr.deepestAt_covering? h⟩

end Place

/-! ## A tail -/

namespace SizedText

open Document

/-- A number, a field without bytes, a record with as many bytes as the number says, and a byte. -/
def pair : Layout Unit :=
  .record "R" [⟨"n", .given (.int .u8), none, none⟩, ⟨"e", .given (.block 0), none, none⟩,
    ⟨"s", .given (.record "S" [⟨"x", .given (.int .u8), none, none⟩]), some (), none⟩,
    ⟨"z", .given (.int .u8), none, none⟩]

/-- The number is three. -/
def unread : Document Unit where
  env := ⟨{}, rules⟩
  sources := [.memory #[3, 7, 8, 9, 5] false 0]
  source := 0

def read : Document Unit := ((Operation.loadNew pair "r" 0).run.run unread).2

/-- The inner record has two bytes after its field. -/
theorem covering?_in_tail : ∃ r ∈ read.places, ∃ d, r.covering? 2 = some d ∧ d.path = ["r", "s"]
    ∧ r.DeepestAt 2 d := by
  have hread : Attained read := by
    refine .step (.loadNew pair "r" 0) (.empty ..) (fun id hid => ?_) trivial
      (ok_of_toOption (by decide +kernel))
    cases hid
  obtain ⟨r, hr, hfind, -⟩ := find?_of_live (show read.Live 0 by decide +kernel)
  have hshown : (read.find? 0).map (fun r => (r.atom.isBits, r.atom.info.offset, r.atom.size,
      (r.covering? 2).map Place.path)) = some (false, 0, 5, some ["r", "s"]) := by
    decide +kernel
  rw [hfind, Option.map_some, Option.some.injEq, Prod.mk.injEq, Prod.mk.injEq, Prod.mk.injEq] at hshown
  obtain ⟨hbits, hoffset, hsize, hpath⟩ := hshown
  obtain ⟨d, hd, hpath⟩ := Option.map_eq_some_iff.1 hpath
  refine ⟨r, hr, d, hd, hpath, ?_⟩
  have hlaid := (hread.inPlace.place hr).of_assemble
  have hshaped := (hread.reachable.balanced.shaped_place hr).of_assemble
  exact (Place.covering?_spec hlaid hshaped hbits (by rw [hoffset, hsize]; decide) 2).2 d hd

end SizedText

end BinaryLayout
