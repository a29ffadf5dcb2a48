import BinaryLayout.Proofs.Run
import BinaryLayout.Proofs.Tree.Arrange

/-!
# Parts as they are declared

The layout of an atom says which parts it has. A record has its fields, in order and under their names, as
far as it got; an array has elements that bear their indices; a host of bits has a root without a name, and
what a pointer refers to is called `*`. The layout of a part is declared too, unless a rule decides it, but
for the last element of a block array, which may be a block that was cut short.

An atom is known to the atom around it by its name and its layout alone. So one atom may be put in the place
of another that has the same label.

## Main definitions

* `Info.label`: the name and the layout of an atom.
* `AtomLayout.Declares`: the labels that the part at an index may have.
* `AtomLayout.Lists`: parts as the layout declares them, from some part on.
* `Atom.Conforms`: the parts of an atom are as its layout declares them.
* `Atom.Suits`: everything in a tree is as it was declared, and the label of its top is known.
* `Frame.NextAt`: a frame whose next part is the one at some index.

## Main statements

* `Frame.NextAt.push`: one more part that was declared.
* `conforms_assemble_of`: an atom replaced in its surroundings.
-/

namespace BinaryLayout

variable {κ : Type}

open Atom

/-- Name and layout. -/
def Info.label (info : Info κ) : String × AtomLayout κ := (info.name, info.layout)

theorem Info.label_of_site {i j : Info κ} (h : i.site = j.site) : i.label = j.label := by
  rw [label, label, Info.name_of_site h, Info.layout_of_site h]

theorem Info.layout_of_label {i j : Info κ} (h : i.label = j.label) : i.layout = j.layout :=
  congrArg Prod.snd h

namespace AtomLayout

/-- What the part at an index of an atom of this layout may be called, and which layout it may have. A rule
may decide the layout of a field. The last element of a block array may be a shorter block. -/
def Declares : AtomLayout κ → Nat → String × AtomLayout κ → Prop
  | .bytes (.record _ fields), i, (name, part) => ∃ field, fields[i]? = some field ∧ name = field.name
      ∧ ∀ layout, field.layout = .given layout → part = .bytes layout
  | .bits (.record _ fields), i, (name, part) => ∃ field, fields[i]? = some field ∧ name = field.name
      ∧ ∀ layout, field.layout = .given layout → part = .bits layout
  | .bytes (.union _ members _), i, (name, part) => ∃ layout, members[i]? = some (name, layout)
      ∧ part = .bytes layout
  | .bytes (.array element _), i, (name, part) => name = toString i
      ∧ (part = .bytes element ∨ element.isBlock = true ∧ ∃ length, part = .bytes (.block length))
  | .bits (.array element _), i, (name, part) => name = toString i ∧ part = .bits element
  | .bytes (.bits root _), i, (name, part) => i = 0 ∧ name = "" ∧ part = .bits root
  | .bytes (.pointer _ target _), i, (name, part) => i = 0 ∧ name = "*" ∧ part = .bytes target
  | _, _, _ => False

/-- The atoms are those that the layout declares from the part at an index on. -/
def Lists (layout : AtomLayout κ) : Nat → List (Atom κ) → Prop
  | _, [] => True
  | i, a :: as => layout.Declares i a.info.label ∧ layout.Lists (i + 1) as

variable {layout : AtomLayout κ} {i : Nat} {as bs : List (Atom κ)}

theorem lists_append : layout.Lists i (as ++ bs) ↔ layout.Lists i as ∧ layout.Lists (i + as.length) bs := by
  induction as generalizing i with
  | nil => simp [Lists]
  | cons a as ih => rw [List.cons_append, Lists, Lists, ih, List.length_cons, Nat.succ_add_eq_add_succ, and_assoc]

/-- Only labels matter. -/
theorem Lists.of_labels (h : layout.Lists i as)
    (hsame : bs.map (fun b => b.info.label) = as.map fun a => a.info.label) : layout.Lists i bs := by
  induction as generalizing bs i with
  | nil =>
    rw [List.map_nil, List.map_eq_nil_iff] at hsame
    rw [hsame]
    trivial
  | cons a as ih =>
    obtain ⟨b, bs, rfl, hb, hbs⟩ := List.map_eq_cons_iff.1 hsame
    exact ⟨hb ▸ h.1, ih h.2 hbs⟩

theorem Lists.declares (h : layout.Lists i as) {j : Nat} {a : Atom κ} (ha : as[j]? = some a) :
    layout.Declares (i + j) a.info.label := by
  induction as generalizing i j with
  | nil => cases ha
  | cons b as ih =>
    cases j with
    | zero =>
      cases ha
      exact h.1
    | succ j =>
      rw [← Nat.succ_add_eq_add_succ]
      exact ih h.2 ha

end AtomLayout

namespace Atom

/-- The parts of the atom are as its layout declares them. -/
def Conforms (a : Atom κ) : Prop := a.info.layout.Lists 0 a.parts

/-- The label on top is known, and every atom of the tree has parts as its layout declares them. -/
structure Suits (label : String × AtomLayout κ) (a : Atom κ) : Prop where
  label : a.info.label = label
  conforms : Everywhere Conforms a

variable {a b : Atom κ}

/-- Only labels matter. -/
theorem Conforms.of_labels (h : a.Conforms) (hlayout : b.info.layout = a.info.layout)
    (hparts : b.parts.map (fun b => b.info.label) = a.parts.map fun a => a.info.label) : b.Conforms := by
  rw [Conforms, hlayout]
  exact AtomLayout.Lists.of_labels h hparts

theorem conforms_of_parts (h : a.parts = []) : Everywhere Conforms a := by
  rw [everywhere_iff, Conforms, h]
  exact ⟨trivial, nofun⟩

theorem IsBlank.conforms (h : a.IsBlank) : Everywhere Conforms a := conforms_of_parts h.parts

theorem Everywhere.suits (h : Everywhere Conforms a) : a.Suits a.info.label := ⟨rfl, h⟩

/-- What is not in the label does not matter. -/
theorem Suits.mapInfo {label : String × AtomLayout κ} (h : a.Suits label) {change : Info κ → Info κ}
    (hlabel : (change a.info).label = a.info.label) : (a.mapInfo change).Suits label := by
  refine ⟨by rw [info_mapInfo, hlabel, h.label], ?_⟩
  rw [everywhere_iff, parts_mapInfo]
  refine ⟨h.conforms.here.of_labels ?_ (by rw [parts_mapInfo]), fun _ => h.conforms.part⟩
  rw [info_mapInfo, Info.layout_of_label hlabel]

theorem Suits.ready {label : String × AtomLayout κ} (h : a.Suits label) : a.ready.Suits label := h.mapInfo rfl

theorem Suits.withTail {label : String × AtomLayout κ} (h : a.Suits label) (tail : Bytes) :
    (a.withTail tail).Suits label :=
  h.mapInfo rfl

/-- An atom with content but without parts. -/
theorem suits_fill_nil (content : Content) (a : Atom κ) : (a.fill content []).Suits a.info.label :=
  ⟨rfl, conforms_of_parts rfl⟩

/-- An atom with bytes of its own. -/
theorem suits_withBytes (layout : Layout κ) (raw : Bytes) (a : Atom κ) :
    (a.withBytes layout raw).Suits a.info.label := by
  rw [withBytes_eq]
  exact suits_fill_nil _ a

theorem label_cleared (a : Atom κ) : a.cleared.info.label = a.info.label :=
  Info.label_of_site (site_cleared a)

/-- The unused bits of a host do not matter. -/
theorem Suits.fixPad {label : String × AtomLayout κ} (h : a.Suits label) : a.fixPad.Suits label := by
  refine ⟨by rw [info_fixPad, h.label], ?_⟩
  rw [everywhere_iff, parts_fixPad]
  exact ⟨h.conforms.here.of_labels (by rw [info_fixPad]) (by rw [parts_fixPad]), fun _ => h.conforms.part⟩

/-- Moving atoms does not matter. -/
theorem conforms_of_unplaced (h : b.unplaced = a.unplaced) (ha : Everywhere Conforms a) :
    Everywhere Conforms b := by
  have hsame (a : Atom κ) : a.unplaced.Conforms ↔ a.Conforms := by
    have hlayout : a.unplaced.info.layout = a.info.layout := by rw [info_unplaced]
    have hparts : a.unplaced.parts.map (fun b => b.info.label) = a.parts.map fun a => a.info.label := by
      rw [parts_unplaced, List.map_map]
      exact List.map_congr_left fun part _ => by rw [Function.comp_apply, info_unplaced, Info.label, Info.label]
    exact ⟨fun h => h.of_labels hlayout.symm hparts.symm, fun h => h.of_labels hlayout hparts⟩
  rw [← everywhere_unplaced hsame, h, everywhere_unplaced hsame]
  exact ha

end Atom

/-! ## Atoms in their surroundings -/

section Plug

variable {f : Frame κ} {a b : Atom κ}

/-- An atom with its gap filled. -/
theorem conforms_plug : (f.plug a).Conforms ↔ f.info.layout.Lists 0 f.left.reverse
    ∧ f.info.layout.Declares f.left.length a.info.label
    ∧ f.info.layout.Lists (f.left.length + 1) f.right := by
  rw [Conforms, Frame.parts_plug, Frame.info_plug, AtomLayout.lists_append, List.length_reverse, Nat.zero_add,
    AtomLayout.Lists]

/-- A part replaced by one of the same label. -/
theorem conforms_plug_of (hlabel : b.info.label = a.info.label) (h : (f.plug a).Conforms) :
    (f.plug b).Conforms := by
  rw [conforms_plug] at h ⊢
  rwa [hlabel]

/-- An atom replaced in its surroundings. -/
theorem conforms_assemble_of {frames : List (Frame κ)} (hb : Everywhere Conforms b)
    (h : Everywhere Conforms (Place.assemble a frames)) (hlabel : b.info.label = a.info.label) :
    Everywhere Conforms (Place.assemble b frames) :=
  everywhere_assemble_of (R := fun a b => b.info.label = a.info.label)
    (fun _ _ _ hxy hx => ⟨conforms_plug_of hxy hx, rfl⟩) hlabel hb h

end Plug

/-! ## Parts one after another -/

/-- The frame of an atom that gets one part after another, and next the one at `index`. -/
structure Frame.NextAt (f : Frame κ) (index : Nat) : Prop where
  left : f.left.length = index
  right : f.right = []
  conforms : Everywhere Conforms f.close

namespace Frame.NextAt

variable {f : Frame κ} {index : Nat}

/-- The frame of an atom that gets its parts next. -/
theorem start (content : Content) (a : Atom κ) : (a.fill content []).frame.NextAt 0 :=
  ⟨rfl, rfl, conforms_of_parts rfl⟩

theorem push (hf : f.NextAt index) {a : Atom κ} {label : String × AtomLayout κ} (ha : a.Suits label)
    (hlabel : f.info.layout.Declares index label) : (f.push a).NextAt (index + 1) := by
  refine ⟨congrArg Nat.succ hf.left, hf.right, ?_⟩
  obtain ⟨hhere, hleft, hright⟩ := everywhere_close.1 hf.conforms
  refine everywhere_close.2 ⟨?_, List.forall_mem_cons.2 ⟨ha.conforms, hleft⟩, hright⟩
  rw [Conforms, Frame.parts_close, Frame.info_close, AtomLayout.lists_append] at hhere
  rw [Frame.close_push, conforms_plug, hf.left, ha.label, hf.right]
  exact ⟨hhere.1, hlabel, trivial⟩

/-- What there is so far. -/
theorem close (hf : f.NextAt index) : f.close.Suits f.info.label := ⟨rfl, hf.conforms⟩

end Frame.NextAt

/-- Atoms are made that keep their labels, with parts as they are declared. -/
def MakesSuitable {σ : Type} (part : LoadPart (StateM σ) κ) : Prop :=
  ∀ frames a s, Everywhere Conforms a → Ends (part frames a) s fun out _ => out.atom.Suits a.info.label

/-! ## New atoms -/

/-- A new atom has the label that it was made for, and no parts. -/
structure Atom.IsNew (label : String × AtomLayout κ) (a : Atom κ) : Prop where
  label : a.info.label = label
  blank : a.IsBlank

theorem LedgerM.isNew_spawn (name : String) (layout : AtomLayout κ) (offset : Nat) (l : Ledger κ) :
    Ends (LedgerM.spawn name layout offset) l fun a _ => a.IsNew (name, layout) :=
  ⟨rfl, isBlank_blank ..⟩

theorem LoadM.isNew_spawn (name : String) (layout : AtomLayout κ) (offset : Nat) (s : LoadState κ) :
    Ends (LoadM.ofLedger (LedgerM.spawn name layout offset)) s fun a _ => a.IsNew (name, layout) :=
  ⟨rfl, isBlank_blank ..⟩

/-- A new atom that is made into something. -/
theorem MakesSuitable.suits {σ : Type} {part : LoadPart (StateM σ) κ} (hpart : MakesSuitable part)
    (frames : List (Frame κ)) {a : Atom κ} {label : String × AtomLayout κ} (ha : a.IsNew label) (s : σ) :
    Ends (part frames a) s fun out _ => out.atom.Suits label :=
  ha.label ▸ hpart frames a s ha.blank.conforms

end BinaryLayout
