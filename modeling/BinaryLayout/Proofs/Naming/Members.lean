import BinaryLayout.Proofs.Naming.Basic
import BinaryLayout.Proofs.Naming.Text
import BinaryLayout.Proofs.Tree.Outline
import BinaryLayout.Proofs.Tree.Walk

/-!
# Segments of paths

The path from one atom down to another one inside it has a segment for each step. The segment of a member of a
record or a union is its name, and the segment of an element is written from its index, because parts have the
names that their layout declares. The root of bits has no name and leaves no trace.

## Main definitions

* `AtomLayout.memberNames`: the names of members, for those that have names.
* `AtomLayout.Legible`: members that can be told apart in a written path.
* `Place.inside`: the segments from an atom down to one inside it.
* `AtomLayout.Marks`: the segments of parts.

## Main statements

* `Place.path_append_inside`: a path goes on inside an atom.
* `Atom.Conforms.marks`: the segment of a part.
-/

namespace BinaryLayout

variable {κ : Type}

open Atom

/-- The names of members. Elements have their indices instead. -/
def AtomLayout.memberNames : AtomLayout κ → List String
  | .bytes (.record _ fields) => fields.map Field.name
  | .bits (.record _ fields) => fields.map BitField.name
  | .bytes (.union _ members _) => members.map Prod.fst
  | _ => []

/-- Members can be told apart in a written path: their names are read as names, and they are different, as the
checked constructors of layouts see to. -/
structure AtomLayout.Legible (layout : AtomLayout κ) : Prop where
  names : ∀ name ∈ layout.memberNames, Path.IsName name
  distinct : layout.memberNames.Nodup

instance (name : String) : Decidable (Path.IsName name) :=
  decidable_of_iff (name ≠ "" ∧ '.' ∉ name.toList ∧ '[' ∉ name.toList)
    ⟨fun h => ⟨h.1, h.2.1, h.2.2⟩, fun h => ⟨h.nonempty, h.dot, h.bracket⟩⟩

instance (layout : AtomLayout κ) : Decidable layout.Legible :=
  decidable_of_iff ((∀ name ∈ layout.memberNames, Path.IsName name) ∧ layout.memberNames.Nodup)
    ⟨fun h => ⟨h.1, h.2⟩, fun h => ⟨h.names, h.distinct⟩⟩

/-- The segment that the part at an index adds to a path. -/
inductive AtomLayout.Marks (layout : AtomLayout κ) (i : Nat) : String → Prop
  | name {name : String} (hname : layout.memberNames[i]? = some name) : Marks layout i name
  | index (harray : layout.isArray = true) : Marks layout i (Path.index i)
  | root {root : BitLayout κ} {order : ByteOrder} (hlayout : layout = .bytes (.bits root order)) (hi : i = 0) :
    Marks layout i ""

namespace AtomLayout

variable {layout part : AtomLayout κ} {i : Nat} {name : String}

/-- A part has a name of its own, or its index, or no name. A referent has no place in paths that lead back. -/
theorem Declares.marks (h : layout.Declares i (name, part))
    (hpointer : ∀ wire target policy, layout ≠ .bytes (.pointer wire target policy)) :
    layout.Marks i (if layout.isArray then Path.element name else name) := by
  cases layout with
  | bytes layout =>
    cases layout with
    | record recordName fields =>
      obtain ⟨field, hfield, rfl, -⟩ := h
      exact .name (by rw [memberNames, List.getElem?_map, hfield]; rfl)
    | union unionName members size =>
      obtain ⟨memberLayout, hmember, -⟩ := h
      exact .name (by rw [memberNames, List.getElem?_map, hmember]; rfl)
    | array element shape =>
      obtain ⟨rfl, -⟩ := h
      exact .index rfl
    | bits root order =>
      obtain ⟨rfl, rfl, -⟩ := h
      exact .root rfl rfl
    | pointer wire target policy => exact absurd rfl (hpointer wire target policy)
    | _ => exact h.elim
  | bits layout =>
    cases layout with
    | record recordName fields =>
      obtain ⟨field, hfield, rfl, -⟩ := h
      exact .name (by rw [memberNames, List.getElem?_map, hfield]; rfl)
    | array element shape =>
      obtain ⟨rfl, -⟩ := h
      exact .index rfl
    | int bits signed => exact h.elim

/-- Members that have names have those of the layout. -/
theorem Declares.memberName (h : layout.Declares i (name, part)) (hnamed : layout.memberNames ≠ []) :
    layout.memberNames[i]? = some name := by
  have hpointer (wire target policy) : layout ≠ .bytes (.pointer wire target policy) := by
    rintro rfl
    exact hnamed rfl
  have harray : layout.isArray = false := by
    cases hkind : layout.isArray with
    | false => rfl
    | true => rcases layout with layout | layout <;> cases layout <;> first | exact absurd rfl hnamed | cases hkind
  have hmarks := h.marks hpointer
  rw [harray, if_neg Bool.false_ne_true] at hmarks
  generalize name = segment at hmarks ⊢
  cases hmarks with
  | name hname => exact hname
  | index hkind =>
    rw [harray] at hkind
    cases hkind
  | root hlayout =>
    subst hlayout
    exact absurd rfl hnamed

end AtomLayout

namespace Atom

variable {a part : Atom κ} {i : Nat}

theorem Conforms.declares (h : a.Conforms) (hpart : a.parts[i]? = some part) :
    a.info.layout.Declares i part.info.label := by
  have hdeclares := AtomLayout.Lists.declares h hpart
  rwa [Nat.zero_add] at hdeclares

/-- The segment of a part. -/
theorem Conforms.marks (h : a.Conforms) (hpart : a.parts[i]? = some part)
    (hpointer : ∀ wire target policy, a.info.layout ≠ .bytes (.pointer wire target policy)) :
    a.info.layout.Marks i (Place.segment a.info part.info.name) :=
  AtomLayout.Declares.marks (h.declares hpart) hpointer

/-- Members that have names have different ones. -/
theorem Conforms.nodup_names (h : a.Conforms) (hnamed : a.info.layout.memberNames ≠ [])
    (hdistinct : a.info.layout.memberNames.Nodup) : (a.parts.map fun part => part.info.name).Nodup := by
  have htaken : a.parts.map (fun part => part.info.name) = a.info.layout.memberNames.take a.parts.length := by
    refine List.ext_getElem? fun i => ?_
    rw [List.getElem?_map, List.getElem?_take]
    split
    · rename_i hi
      have hpart := List.getElem?_eq_getElem hi
      rw [hpart, Option.map_some, AtomLayout.Declares.memberName (h.declares hpart) hnamed]
    · rename_i hi
      rw [List.getElem?_eq_none (Nat.le_of_not_lt hi), Option.map_none]
  rw [htaken]
  exact hdistinct.sublist (List.take_sublist _ _)

/-- What is no pointer and has parts has not the layout of a pointer. -/
theorem Shaped.layout_ne_pointer (h : a.Shaped) (hparts : a.parts ≠ []) (hcontent : ∀ wire, a.content ≠ .pointer wire)
    (wire : IntFormat) (target : Layout κ) (policy : AddressPolicy κ) :
    a.info.layout ≠ .bytes (.pointer wire target policy) := by
  intro hlayout
  have hadmits := h.admits
  have hholds := h.holds
  rw [hlayout] at hadmits
  cases hkind : a.content with
  | empty =>
    rw [hkind] at hholds
    exact hparts hholds
  | pointer wire => exact hcontent wire hkind
  | _ =>
    rw [hkind] at hadmits
    cases hadmits

end Atom

namespace Place

/-! ## Paths -/

/-- The segments from an atom down to one inside it. -/
def inside (p q : Place κ) : Path := q.path.drop p.path.length

variable {p q r x : Place κ}

theorem path_of_mem_parts (h : q ∈ p.parts) : q.path = p.path ++ [segment p.atom.info q.atom.info.name] := by
  obtain ⟨before, after, -, hframes⟩ := mem_partsAmong.1 h
  rw [path, hframes, pathOnto, pathOnto_eq]
  rfl

/-- A path goes on inside an atom. -/
theorem path_append_inside (h : x ∈ r.preorder) : r.path ++ r.inside x = x.path := by
  suffices hgoes : ∃ inner, x.path = r.path ++ inner by
    obtain ⟨inner, hx⟩ := hgoes
    rw [inside, hx, List.drop_left]
  induction r using induction_parts with
  | h r ih =>
    rw [preorder_eq, List.mem_cons, List.mem_flatMap] at h
    rcases h with rfl | ⟨q, hq, hx⟩
    · exact ⟨[], (List.append_nil _).symm⟩
    · obtain ⟨inner, hinner⟩ := ih q hq hx
      exact ⟨_, by rw [hinner, path_of_mem_parts hq, List.append_assoc]⟩

@[simp] theorem inside_self (r : Place κ) : r.inside r = [] := by rw [inside, List.drop_length]

theorem inside_part (hq : q ∈ r.parts) (hx : x ∈ q.preorder) :
    r.inside x = segment r.atom.info q.atom.info.name :: q.inside x := by
  rw [inside, ← path_append_inside hx, path_of_mem_parts hq, List.append_assoc, List.drop_left]
  rfl

/-- A part stands at an index. -/
theorem down?_of_mem_parts (h : q ∈ p.parts) : ∃ i, p.atom.parts[i]? = some q.atom ∧ p.down? i = some q := by
  obtain ⟨before, after, heq, hframes⟩ := mem_partsAmong.1 h
  refine ⟨before.length, by simp [heq], ?_⟩
  rw [down?_of_parts heq]
  rw [List.append_nil] at hframes
  exact congrArg some (by rw [← hframes])

end Place

end BinaryLayout
