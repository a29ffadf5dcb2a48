import BinaryLayout.Allocate.Bits
import BinaryLayout.Load.Leaf
import BinaryLayout.Proofs.Tree.Walk

/-!
# The shape of atoms

What an atom may hold follows from its layout: a record has fields, a host of bits exactly one root,
an integer of bits no parts at all. Loading may stop anywhere, and then the atom may also be empty or
have fewer parts than its layout asks for; but it never holds anything else.

Loading, allocating and editing leave the *site* of an atom alone: its handle, its name, its layout,
its offset and whether a null pointer refers to it.

## Main definitions

* `Info.site`: what loading leaves alone.
* `Atom.IsBlank`: an atom that was spawned or emptied.
* `AtomLayout.admits`: the contents that a layout may have.
* `Atom.Shaped`: content and parts of an atom fit its layout.
* `Frame.Takes`: parts of bytes or of bits may be added in a frame.

## Main statements

* `Frame.shaped_push`: an atom with one more part.
* `Atom.shaped_assemble_of`: an atom replaced in its surroundings.
-/

namespace BinaryLayout

variable {κ : Type}

/-- An atom's info without what loading and editing change. -/
def Info.site (info : Info κ) : Info κ :=
  { info with initialized := false, dirty := false, undecodable := false, extent? := none, tail := [] }

theorem Info.id_of_site {i j : Info κ} (h : i.site = j.site) : i.id = j.id :=
  (congrArg Info.id h : i.site.id = j.site.id)

theorem Info.name_of_site {i j : Info κ} (h : i.site = j.site) : i.name = j.name :=
  (congrArg Info.name h : i.site.name = j.site.name)

theorem Info.layout_of_site {i j : Info κ} (h : i.site = j.site) : i.layout = j.layout :=
  (congrArg Info.layout h : i.site.layout = j.site.layout)

theorem Info.null_of_site {i j : Info κ} (h : i.site = j.site) : i.null = j.null :=
  (congrArg Info.null h : i.site.null = j.site.null)

theorem Info.offset_of_site {i j : Info κ} (h : i.site = j.site) : i.offset = j.offset :=
  (congrArg Info.offset h : i.site.offset = j.site.offset)

namespace Atom

theorem isBits_of_site {a b : Atom κ} (h : a.info.site = b.info.site) : a.isBits = b.isBits := by
  rw [isBits, isBits, Info.layout_of_site h]

/-- The atom has no content, no parts and no tail. -/
def IsBlank (a : Atom κ) : Prop := a.cleared = a

theorem isBlank_blank (id : Nat) (name : String) (layout : AtomLayout κ) (offset : Nat) :
    (blank id name layout offset).IsBlank := rfl

theorem isBlank_cleared (a : Atom κ) : a.cleared.IsBlank := by
  obtain ⟨info, content, parts⟩ := a
  rfl

theorem isBlank_iff {a : Atom κ} :
    a.IsBlank ↔ a.info.tail = [] ∧ a.info.initialized = false ∧ a.info.undecodable = false
      ∧ a.content = .empty ∧ a.parts = [] := by
  obtain ⟨⟨id, name, layout, offset, initialized, dirty, undecodable, null, extent?, tail⟩, content,
    parts⟩ := a
  simp only [IsBlank, cleared, info_node, content_node, parts_node, node.injEq, Info.mk.injEq]
  grind

theorem IsBlank.content {a : Atom κ} (h : a.IsBlank) : a.content = .empty := by
  rw [← h]
  cases a
  rfl

theorem IsBlank.parts {a : Atom κ} (h : a.IsBlank) : a.parts = [] := by
  rw [← h]
  cases a
  rfl

theorem IsBlank.tail {a : Atom κ} (h : a.IsBlank) : a.info.tail = [] := by
  rw [← h]
  cases a
  rfl

@[simp] theorem site_cleared (a : Atom κ) : a.cleared.info.site = a.info.site := by
  cases a
  rfl

@[simp] theorem site_ready (a : Atom κ) : a.ready.info.site = a.info.site := by
  cases a
  rfl

@[simp] theorem site_withTail (tail : Bytes) (a : Atom κ) :
    (a.withTail tail).info.site = a.info.site := by
  cases a
  rfl

@[simp] theorem parts_ready (a : Atom κ) : a.ready.parts = a.parts := parts_mapInfo _ a

@[simp] theorem content_ready (a : Atom κ) : a.ready.content = a.content := content_mapInfo _ a

@[simp] theorem parts_withTail (tail : Bytes) (a : Atom κ) : (a.withTail tail).parts = a.parts :=
  parts_mapInfo _ a

@[simp] theorem content_withTail (tail : Bytes) (a : Atom κ) :
    (a.withTail tail).content = a.content :=
  content_mapInfo _ a

end Atom

/-- Atoms of the layout have no parts; their content is a stretch of bytes. -/
def Layout.isLeaf : Layout κ → Bool
  | .record .. | .array .. | .union .. | .pointer .. | .bits .. => false
  | _ => true

/-- Atoms of the layout may have the content. -/
def AtomLayout.admits : AtomLayout κ → Content → Bool
  | _, .empty => true
  | .bits (.int ..), .bits _ => true
  | .bits (.record ..), .group | .bits (.array ..), .group => true
  | .bytes (.record ..), .group | .bytes (.array ..), .group => true
  | .bytes (.union ..), .overlay _ => true
  | .bytes (.pointer ..), .pointer _ => true
  | .bytes (.bits ..), .host _ => true
  | .bytes layout, .raw _ => layout.isLeaf
  | _, _ => false

/-- Which unused bits a host has does not matter. -/
theorem AtomLayout.admits_host (layout : AtomLayout κ) (pad pad' : Bitmap) :
    layout.admits (.host pad) = layout.admits (.host pad') := by
  cases layout with
  | bytes layout => cases layout <;> rfl
  | bits layout => cases layout <;> rfl

/-- Which bytes the members of a union share does not matter. -/
theorem AtomLayout.admits_overlay (layout : AtomLayout κ) (bytes bytes' : Bytes) :
    layout.admits (.overlay bytes) = layout.admits (.overlay bytes') := by
  cases layout with
  | bytes layout => cases layout <;> rfl
  | bits layout => cases layout <;> rfl

/-- Which number a pointer stores does not matter. -/
theorem AtomLayout.admits_pointer (layout : AtomLayout κ) (wire wire' : Bytes) :
    layout.admits (.pointer wire) = layout.admits (.pointer wire') := by
  cases layout with
  | bytes layout => cases layout <;> rfl
  | bits layout => cases layout <;> rfl

/-- The content by which an atom of the layout, which is no compound one, holds its bytes. -/
def Layout.stored (layout : Layout κ) (raw : Bytes) : Content :=
  match layout with
  | .pointer .. => .pointer raw
  | _ => .raw raw

theorem Atom.withBytes_eq (layout : Layout κ) (raw : Bytes) (a : Atom κ) :
    a.withBytes layout raw = a.fill (layout.stored raw) [] := by
  cases layout <;> rfl

/-- The parts that an atom with the content may have, when it is measured in bits or in bytes. -/
def Content.Holds (inBits : Bool) (parts : List (Atom κ)) : Content → Prop
  | .empty | .raw _ | .bits _ => parts = []
  | .group => ∀ part ∈ parts, part.isBits = inBits
  | .overlay _ => ∀ part ∈ parts, part.isBits = false
  | .pointer _ => parts.length ≤ 1 ∧ ∀ part ∈ parts, part.isBits = false
  | .host _ => ∃ root, parts = [root] ∧ root.isBits = true

/-- Only number and measures of the parts matter. -/
theorem Content.Holds.of_isBits {content : Content} {inBits : Bool} {parts parts' : List (Atom κ)}
    (h : content.Holds inBits parts) (hsame : parts'.map Atom.isBits = parts.map Atom.isBits) :
    content.Holds inBits parts' := by
  have hlength : parts'.length = parts.length := by simpa using congrArg List.length hsame
  have hall (b : Bool) (hb : ∀ part ∈ parts, part.isBits = b) : ∀ part ∈ parts', part.isBits = b := by
    intro part hpart
    have hmem : part.isBits ∈ parts.map Atom.isBits := hsame ▸ List.mem_map_of_mem hpart
    obtain ⟨other, hother, heq⟩ := List.mem_map.1 hmem
    rw [← heq, hb other hother]
  cases content with
  | empty | raw | bits =>
    have hnil : parts = [] := h
    exact List.length_eq_zero_iff.1 (by rw [hlength, hnil, List.length_nil])
  | group => exact hall _ h
  | overlay backing => exact hall _ h
  | pointer wire => exact ⟨hlength ▸ h.1, hall _ h.2⟩
  | host pad =>
    obtain ⟨root, hroot, hbits⟩ := h
    rw [hroot] at hall hlength
    obtain ⟨root', hroot'⟩ := List.length_eq_one_iff.1 hlength
    exact ⟨root', hroot', hall true (by simpa using hbits) root' (by simp [hroot'])⟩

theorem Layout.holds_stored (layout : Layout κ) (raw : Bytes) (inBits : Bool) :
    (layout.stored raw).Holds inBits ([] : List (Atom κ)) := by
  cases layout <;> simp [Layout.stored, Content.Holds]

theorem Layout.stored_ne_empty (layout : Layout κ) (raw : Bytes) : layout.stored raw ≠ .empty := by
  cases layout <;> simp [Layout.stored]

namespace Atom

/-- Content and parts of the atom fit its layout. -/
structure Shaped (a : Atom κ) : Prop where
  admits : a.info.layout.admits a.content = true
  holds : a.content.Holds a.isBits a.parts

/-- Info that keeps the layout does not matter. -/
theorem Shaped.of_layout {a b : Atom κ} (h : a.Shaped) (hl : b.info.layout = a.info.layout)
    (hc : b.content = a.content) (hp : b.parts = a.parts) : b.Shaped := by
  refine ⟨by rw [hl, hc]; exact h.admits, ?_⟩
  rw [hc, hp, isBits, hl]
  exact h.holds

theorem Everywhere.shaped_of_layout {a b : Atom κ} (h : Everywhere Shaped a)
    (hl : b.info.layout = a.info.layout) (hc : b.content = a.content) (hp : b.parts = a.parts) :
    Everywhere Shaped b := by
  rw [everywhere_iff] at h ⊢
  exact ⟨h.1.of_layout hl hc hp, hp ▸ h.2⟩

theorem IsBlank.shaped {a : Atom κ} (h : a.IsBlank) : Everywhere Shaped a := by
  rw [everywhere_iff, h.parts]
  refine ⟨⟨by rw [h.content]; cases a.info.layout <;> rfl, ?_⟩, by simp⟩
  rw [h.content]
  exact h.parts

/-- Flags and a tail do not matter. -/
theorem Everywhere.shaped_mapInfo {a : Atom κ} (h : Everywhere Shaped a)
    {change : Info κ → Info κ} (hsite : (change a.info).site = a.info.site) :
    Everywhere Shaped (a.mapInfo change) := by
  refine h.shaped_of_layout ?_ (content_mapInfo _ a) (parts_mapInfo _ a)
  rw [info_mapInfo, Info.layout_of_site hsite]

@[simp] theorem info_fixPad (a : Atom κ) : a.fixPad.info = a.info := by
  obtain ⟨info, content, parts⟩ := a
  cases content <;> rfl

@[simp] theorem parts_fixPad (a : Atom κ) : a.fixPad.parts = a.parts := by
  obtain ⟨info, content, parts⟩ := a
  cases content <;> rfl

/-- The unused bits of a host do not matter. -/
theorem Everywhere.shaped_fixPad {a : Atom κ} (h : Everywhere Shaped a) :
    Everywhere Shaped a.fixPad := by
  obtain ⟨info, content, parts⟩ := a
  cases content
  case host pad =>
    refine everywhere_iff.2 ⟨⟨?_, h.here.holds⟩, fun _ => h.part⟩
    exact (info.layout.admits_host _ pad).trans h.here.admits
  all_goals exact h

/-- An integer of bits has no parts. -/
theorem Shaped.parts_of_int {a : Atom κ} (h : a.Shaped) {bits : Nat} {signed : Bool}
    (hlayout : a.info.layout = .bits (.int bits signed)) : a.parts = [] := by
  have hadmits := h.admits
  have hholds := h.holds
  rw [hlayout] at hadmits
  cases hcontent : a.content with
  | empty | bits =>
    rw [hcontent] at hholds
    exact hholds
  | raw | group | overlay | pointer | host =>
    rw [hcontent] at hadmits
    exact absurd hadmits Bool.false_ne_true

/-- An atom without parts but with content. -/
theorem shaped_fill {a : Atom κ} {content : Content} (h : a.info.layout.admits content = true)
    (hc : content.Holds a.isBits ([] : List (Atom κ))) : Everywhere Shaped (a.fill content []) := by
  rw [everywhere_iff]
  exact ⟨⟨h, hc⟩, by simp⟩

end Atom

namespace Frame

open Atom

/-- The frame is that of fields, elements or union members which are measured in bits or in bytes,
so that one more may be added. -/
def Takes (f : Frame κ) (inBits : Bool) : Prop :=
  f.content = .group ∧ f.info.layout.isBits = inBits ∨
    (∃ backing, f.content = .overlay backing) ∧ inBits = false

theorem Takes.push {f : Frame κ} {inBits : Bool} (h : f.Takes inBits) (a : Atom κ) :
    (f.push a).Takes inBits := h

@[simp] theorem info_close (f : Frame κ) : f.close.info = f.info := rfl

@[simp] theorem content_close (f : Frame κ) : f.close.content = f.content := rfl

@[simp] theorem parts_close (f : Frame κ) : f.close.parts = f.left.reverse ++ f.right :=
  List.reverseAux_eq

/-- Parts around one of them. -/
theorem parts_around {parts : List (Atom κ)} {i : Nat} {a : Atom κ} (h : parts[i]? = some a)
    {info : Info κ} {content : Content} :
    (plug ⟨info, content, (parts.take i).reverse, parts.drop (i + 1)⟩ a).parts = parts := by
  obtain ⟨hi, rfl⟩ := List.getElem?_eq_some_iff.1 h
  rw [parts_plug, List.reverse_reverse, ← List.drop_eq_getElem_cons hi, List.take_append_drop]

/-- An atom with one more part. -/
theorem shaped_push {f : Frame κ} {inBits : Bool} {a : Atom κ} (ht : f.Takes inBits)
    (hf : Everywhere Shaped f.close) (ha : Everywhere Shaped a) (hb : a.isBits = inBits) :
    Everywhere Shaped (f.push a).close := by
  rw [everywhere_close] at hf
  refine everywhere_close.2 ⟨⟨hf.1.admits, ?_⟩, ?_, hf.2.2⟩
  · have hold := hf.1.holds
    show f.content.Holds f.info.layout.isBits (f.push a).close.parts
    change f.content.Holds f.info.layout.isBits f.close.parts at hold
    rw [parts_close] at hold ⊢
    rcases ht with ⟨hc, hi⟩ | ⟨⟨backing, hc⟩, hi⟩ <;> rw [hc] at hold ⊢ <;>
      simp only [Content.Holds, Frame.push, List.reverse_cons, List.mem_append, List.mem_reverse,
        List.mem_singleton] at hold ⊢ <;> grind
  · intro part hp
    rcases List.mem_cons.1 hp with rfl | hp
    · exact ha
    · exact hf.2.1 part hp

end Frame

namespace Atom

/-- An atom replaced by one of the same measure keeps the shape of what is around it. -/
theorem shaped_plug_of {f : Frame κ} {x y : Atom κ} (hxy : x.isBits = y.isBits)
    (h : (f.plug x).Shaped) : (f.plug y).Shaped := by
  exact ⟨h.admits, h.holds.of_isBits (by simp [hxy])⟩

/-- An atom replaced by a well-shaped one of the same measure. -/
theorem shaped_assemble_of {frames : List (Frame κ)} {x y : Atom κ} (hxy : x.isBits = y.isBits)
    (hy : Everywhere Shaped y) (h : Everywhere Shaped (Place.assemble x frames)) :
    Everywhere Shaped (Place.assemble y frames) :=
  everywhere_assemble_of (R := fun x y => x.isBits = y.isBits)
    (fun _ _ _ hxy hf => ⟨shaped_plug_of hxy hf, rfl⟩) hxy hy h

end Atom

end BinaryLayout
