import BinaryLayout.Proofs.Handles.Load
import BinaryLayout.Proofs.Span.Load

/-!
# Extents that are kept to

A record may force the extent of a field, and a block array has the extent of its layout. An atom
keeps to its extent when it takes exactly these bytes; only a field whose content needs more than the
record forces takes more. Forced extents stand on fields that have a rule for them and nowhere else,
so that a field without such a rule may be laid out anew by its layout alone.

## Main definitions

* `AtomLayout.Forces`: the extent of a field is forced by a rule.
* `Atom.Honours`: an atom keeps to the extents that are declared for it and its parts.
* `Atom.Made`: an atom that keeps to them but, perhaps, for its own forced extent.
* `Frame.Filling`: parts so far that keep to them.

## Main statements

* `Atom.Made.honours`, `Atom.Made.honours_of_size`: an atom that was made.
* `Frame.Filling.made`: an atom that got all its parts.
-/

namespace BinaryLayout

variable {κ : Type}

open Atom

/-- The extent of the field at an index is forced by a rule. -/
def AtomLayout.Forces (layout : AtomLayout κ) (i : Nat) : Prop :=
  ∃ name fields field, layout = .bytes (.record name fields) ∧ fields[i]? = some field
    ∧ field.extent? ≠ none

namespace Atom

/-- The layout is that of a block array of so many bytes. -/
def IsBlockArray (extent : Nat) (layout : AtomLayout κ) : Prop :=
  ∃ element, layout = .bytes (.array element (.block extent))

/-- The atom keeps to the extents that are declared for it and for its parts. -/
structure Honours (a : Atom κ) : Prop where
  /-- A content that fits into the extent that the record forces is filled up to it. -/
  forced : a.isBits = false → ∀ extent, a.info.extent? = some extent → a.contentSize ≤ extent →
    a.size = extent
  /-- A block array has the bytes of its layout, where the record forces no others. -/
  block : ∀ extent, IsBlockArray extent a.info.layout → a.info.extent? = none →
    a.info.initialized = true → a.size = extent
  /-- Extents are forced by rules. -/
  ruled : ∀ i part, a.parts[i]? = some part → part.isBits = false → part.info.extent? ≠ none →
    a.content = .group ∧ a.info.layout.Forces i

/-- The atom was made where one with this info stood: everything in it keeps to its extents, and so
does the atom, unless an extent is forced on it. -/
structure Made (info : Info κ) (a : Atom κ) : Prop where
  layout : a.info.layout = info.layout
  extent : a.info.extent? = info.extent?
  block : ∀ extent, IsBlockArray extent info.layout → info.extent? = none → a.size = extent
  ruled : ∀ i part, a.parts[i]? = some part → part.isBits = false → part.info.extent? ≠ none →
    a.content = .group ∧ info.layout.Forces i
  parts : ∀ part ∈ a.parts, Everywhere Honours part

namespace Made

variable {info : Info κ} {a : Atom κ}

/-- An atom whose extent is not forced. -/
theorem honours (h : a.Made info) (hextent : info.extent? = none) : Everywhere Honours a := by
  refine everywhere_iff.2 ⟨⟨fun _ extent hforced => ?_, fun extent hblock _ _ => ?_, ?_⟩, h.parts⟩
  · rw [h.extent, hextent] at hforced
    cases hforced
  · rw [h.layout] at hblock
    exact h.block extent hblock hextent
  · rw [h.layout]
    exact h.ruled

/-- An atom that was filled up to the extent that is forced on it. -/
theorem honours_of_size (h : a.Made info) {extent : Nat} (hextent : info.extent? = some extent)
    (hsize : a.contentSize ≤ extent → a.size = extent) : Everywhere Honours a := by
  refine everywhere_iff.2 ⟨⟨fun _ other hforced => ?_, fun _ _ hnone => ?_, ?_⟩, h.parts⟩
  · rw [h.extent, hextent] at hforced
    cases hforced
    exact hsize
  · rw [h.extent, hextent] at hnone
    cases hnone
  · rw [h.layout]
    exact h.ruled

/-- The tail of a field is what its extent leaves. -/
theorem withTail (h : a.Made info) {extent : Nat} (hextent : info.extent? = some extent)
    (tail : Bytes) : (a.withTail tail).Made info := by
  obtain ⟨own, content, parts⟩ := a
  refine ⟨h.layout, h.extent, fun _ _ hnone => ?_, h.ruled, h.parts⟩
  rw [hextent] at hnone
  cases hnone

/-- An atom without parts. -/
theorem of_nil (hlayout : a.info.layout = info.layout) (hextent : a.info.extent? = info.extent?)
    (hblock : ∀ extent, IsBlockArray extent info.layout → info.extent? = none → a.size = extent)
    (hparts : a.parts = []) : a.Made info := by
  refine ⟨hlayout, hextent, hblock, fun i part hpart => ?_, fun part hpart => ?_⟩ <;>
    rw [hparts] at hpart <;> cases hpart

/-- A property of the bytes alone does not see whether the atom is initialized. -/
theorem ready (h : a.Made info) : a.ready.Made info := by
  obtain ⟨own, content, parts⟩ := a
  refine ⟨h.layout, h.extent, fun extent hblock hextent => ?_, h.ruled, h.parts⟩
  rw [size_ready]
  exact h.block extent hblock hextent

end Made

/-- Atoms of bits have no extents. -/
theorem honours_of_isBits {a : Atom κ} (hbits : a.isBits = true)
    (hparts : ∀ part ∈ a.parts, part.isBits = true) : a.Honours := by
  refine ⟨fun h => ?_, fun extent hblock => ?_, fun i part hpart h => ?_⟩
  · rw [hbits] at h
    cases h
  · obtain ⟨element, hlayout⟩ := hblock
    rw [isBits, hlayout] at hbits
    cases hbits
  · rw [hparts part (List.mem_of_getElem? hpart)] at h
    cases h

/-- There is nothing but bits in an atom of bits, which is no pointer. -/
theorem Shaped.of_isBits {a : Atom κ} (h : a.Shaped) (hbits : a.isBits = true) :
    (∀ wire, a.content ≠ .pointer wire) ∧ ∀ part ∈ a.parts, part.isBits = true := by
  have hadmits := h.admits
  have hholds := h.holds
  obtain ⟨layout, hlayout⟩ : ∃ layout, a.info.layout = .bits layout := by
    cases hlayout : a.info.layout with
    | bits layout => exact ⟨layout, rfl⟩
    | bytes layout =>
      rw [isBits, hlayout] at hbits
      cases hbits
  rw [hlayout] at hadmits
  rw [hbits] at hholds
  cases hcontent : a.content with
  | empty | raw | bits =>
    rw [hcontent] at hholds
    rw [show a.parts = [] from hholds]
    refine ⟨fun wire h => ?_, fun part hpart => ?_⟩
    · cases h
    · cases hpart
  | group =>
    rw [hcontent] at hholds
    refine ⟨fun wire h => ?_, hholds⟩
    cases h
  | overlay | pointer | host =>
    rw [hcontent] at hadmits
    cases layout <;> cases hadmits

mutual

/-- There is nothing but bits below an atom of bits. -/
theorem honours_of_bits : ∀ a : Atom κ, Everywhere Shaped a → a.isBits = true → Everywhere Honours a
  | .node info content parts, h, hbits => by
    have hhere : Shaped (.node info content parts) := h.1
    have hparts : ∀ part ∈ parts, part.isBits = true := (hhere.of_isBits hbits).2
    exact ⟨honours_of_isBits hbits hparts, honours_of_allBits parts h.2 hparts⟩

theorem honours_of_allBits : ∀ as : List (Atom κ), EverywhereIn Shaped as →
    (∀ a ∈ as, a.isBits = true) → EverywhereIn Honours as
  | [], _, _ => trivial
  | a :: as, h, hbits =>
    ⟨honours_of_bits a h.1 (hbits a List.mem_cons_self),
      honours_of_allBits as h.2 fun b hb => hbits b (List.mem_cons_of_mem _ hb)⟩

end

end Atom

/-! ## Parts one after another -/

/-- The parts before the gap keep to their extents, and they go up to `cursor`. -/
structure Frame.Filling (f : Frame κ) (cursor : Nat) : Prop where
  spanning : f.Spanning cursor
  parts : ∀ part ∈ f.left, Everywhere Honours part
  ruled : ∀ i part, f.left.reverse[i]? = some part → part.isBits = false →
    part.info.extent? ≠ none → f.info.layout.Forces i

namespace Frame.Filling

variable {f : Frame κ} {cursor : Nat}

/-- A frame without parts. -/
theorem start {a : Atom κ} (hbits : a.isBits = false) (htail : a.info.tail = []) :
    (a.fill .group []).frame.Filling a.info.offset := by
  refine ⟨.start hbits htail, fun part hpart => ?_, fun i part hpart => ?_⟩ <;> cases hpart

/-- One more part, on which an extent is forced only by a rule. -/
theorem push (hf : f.Filling cursor) {a : Atom κ} (ha : Everywhere Honours a)
    (hruled : a.info.extent? ≠ none → f.info.layout.Forces f.left.length) :
    (f.push a).Filling (cursor + a.size) := by
  refine ⟨hf.spanning.push a, List.forall_mem_cons.2 ⟨ha, hf.parts⟩, fun i part hpart hbits hextent => ?_⟩
  rw [Frame.push, List.reverse_cons, List.getElem?_append] at hpart
  split at hpart
  · exact hf.ruled i part hpart hbits hextent
  · rename_i hi
    rw [List.getElem?_singleton] at hpart
    split at hpart
    · rename_i hzero
      cases hpart
      rw [List.length_reverse] at hi hzero
      obtain rfl : i = f.left.length := by omega
      exact hruled hextent
    · cases hpart

/-- An atom that got all its parts. -/
theorem made (hf : f.Filling cursor) (hblock : ∀ extent, IsBlockArray extent f.info.layout →
    f.info.extent? = none → f.info.offset + extent = cursor) : f.close.Made f.info := by
  refine ⟨rfl, rfl, fun extent hlayout hextent => ?_, ?_, ?_⟩
  · have hsize := hf.spanning.size
    have hcursor := hblock extent hlayout hextent
    omega
  · rw [parts_close, hf.spanning.right, List.append_nil]
    exact fun i part hpart hbits hextent => ⟨hf.spanning.content, hf.ruled i part hpart hbits hextent⟩
  · rw [parts_close, hf.spanning.right, List.append_nil]
    exact fun part hpart => hf.parts part (List.mem_reverse.1 hpart)

/-- A block array whose elements leave bytes for a tail. -/
theorem made_withTail (hf : f.Filling cursor) {tail : Bytes} (extent : Nat)
    (hlayout : ∀ other, IsBlockArray other f.info.layout → other = extent)
    (hsize : f.info.offset + extent = cursor + tail.length) :
    (f.close.withTail tail).Made f.info := by
  refine ⟨rfl, rfl, fun other hother _ => ?_, ?_, ?_⟩
  · have hcontent := hf.spanning.contentSize
    rw [hlayout other hother, size_withTail]
    omega
  · rw [parts_withTail, parts_close, hf.spanning.right, List.append_nil]
    exact fun i part hpart hbits hextent => ⟨hf.spanning.content, hf.ruled i part hpart hbits hextent⟩
  · rw [parts_withTail, parts_close, hf.spanning.right, List.append_nil]
    exact fun part hpart => hf.parts part (List.mem_reverse.1 hpart)

end Frame.Filling

end BinaryLayout
