import BinaryLayout.Atom.Walk
import Mathlib.Algebra.GroupWithZero.Nat

/-!
# Walks and traversals

The walk with a stack visits the places of the recursive traversal in the same order. It has one
visit for each atom of the tree, so the count that serves it as fuel is exactly enough.

A property of single atoms holds everywhere in a tree when it holds of the atom on top and
everywhere in its parts. It may look at the parts of the atom, so that an invariant which relates an
atom to its parts is a property of single atoms too.

When one atom deep in a tree is replaced, the atoms around it stay as they are but for that part.
`Atom.everywhere_assemble_of` says when a property survives this: the old and the new atom have to
agree in what the atoms around them look at.

## Main definitions

* `Atom.Everywhere`, `Atom.EverywhereIn`: a property of all atoms of a tree, and of some trees.

## Main statements

* `Place.walk_eq_preorder`: the walk is the traversal.
* `Place.mem_parts`: the moves in and out.
* `Place.induction_parts`: induction from the parts.
* `Place.mem_preorder_root`: the traversal from an outermost atom and the way back to it.
* `Atom.everywhere_plug`: an atom with its gap filled.
* `Atom.everywhere_assemble_of`: an atom replaced in its surroundings.
* `Place.everywhere_preorder`: the atoms of a tree are those of its traversal.
-/

namespace BinaryLayout

variable {κ : Type}

open Atom

/-! ## Heights -/

namespace Atom

theorem heights_mem {part : Atom κ} {as : List (Atom κ)} (h : part ∈ as) : part.height ≤ heights as := by
  induction as with
  | nil => cases h
  | cons a as ih =>
    rw [heights]
    rcases List.mem_cons.1 h with rfl | h
    · exact Nat.le_max_left _ _
    · exact Nat.le_trans (ih h) (Nat.le_max_right _ _)

theorem height_part {a part : Atom κ} (h : part ∈ a.parts) : part.height < a.height := by
  obtain ⟨info, content, parts⟩ := a
  rw [height]
  exact Nat.lt_succ_of_le (heights_mem h)

end Atom

namespace Place

theorem preorderParts_eq (frames : List (Frame κ)) (info : Info κ) (content : Content)
    (left as : List (Atom κ)) :
    preorderParts frames info content left as =
      (partsAmong frames info content left as).flatMap preorder := by
  induction as generalizing left with
  | nil => rfl
  | cons a as ih => rw [preorderParts, partsAmong, List.flatMap_cons, ih, preorder]

/-- An atom comes before its parts. -/
theorem preorder_eq (p : Place κ) : p.preorder = p :: p.parts.flatMap preorder := by
  obtain ⟨⟨info, content, parts⟩, frames⟩ := p
  rw [preorder, preorderIn, preorderParts_eq]
  rfl

theorem sum_count_partsAmong (frames : List (Frame κ)) (info : Info κ) (content : Content)
    (left as : List (Atom κ)) :
    ((partsAmong frames info content left as).map fun q => q.atom.count).sum = counts as := by
  induction as generalizing left with
  | nil => rfl
  | cons a as ih => rw [partsAmong, List.map_cons, List.sum_cons, ih, counts]

theorem count_eq (p : Place κ) : p.atom.count = (p.parts.map fun q => q.atom.count).sum + 1 := by
  rw [parts, sum_count_partsAmong]
  cases p.atom
  rfl

/-- With fuel for each atom on the stack the walk visits all of them. -/
theorem walkFrom_eq (fuel : Nat) (stack : List (Place κ))
    (h : (stack.map fun p => p.atom.count).sum ≤ fuel) :
    walkFrom fuel stack = stack.flatMap preorder := by
  induction fuel generalizing stack with
  | zero =>
    cases stack with
    | nil => rfl
    | cons p stack =>
      rw [List.map_cons, List.sum_cons, count_eq] at h
      omega
  | succ fuel ih =>
    cases stack with
    | nil => rfl
    | cons p stack =>
      have hrest : ((p.parts ++ stack).map fun q => q.atom.count).sum ≤ fuel := by
        rw [List.map_cons, List.sum_cons, count_eq] at h
        rw [List.map_append, List.sum_append]
        omega
      rw [walkFrom, ih _ hrest, List.flatMap_append, List.flatMap_cons, preorder_eq, List.cons_append]

/-- The walk is the traversal. -/
theorem walk_eq_preorder (p : Place κ) : p.walk = p.preorder := by
  rw [walk, walkFrom_eq _ _ (by simp), List.flatMap_cons, List.flatMap_nil, List.append_nil]

/-! ## Moves -/

theorem mem_partsAmong {frames : List (Frame κ)} {info : Info κ} {content : Content}
    {left as : List (Atom κ)} {q : Place κ} :
    q ∈ partsAmong frames info content left as ↔ ∃ before after, as = before ++ q.atom :: after
      ∧ q.frames = ⟨info, content, before.reverse ++ left, after⟩ :: frames := by
  induction as generalizing left with
  | nil => simp [partsAmong]
  | cons a as ih =>
    rw [partsAmong, List.mem_cons, ih]
    constructor
    · rintro (rfl | ⟨before, after, rfl, hframes⟩)
      · exact ⟨[], as, rfl, rfl⟩
      · exact ⟨a :: before, after, rfl, by simpa using hframes⟩
    · rintro ⟨before, after, heq, hframes⟩
      obtain _ | ⟨b, before⟩ := before
      · obtain ⟨rfl, rfl⟩ := List.cons.inj heq
        obtain ⟨b, fs⟩ := q
        exact .inl (by simpa using hframes)
      · obtain ⟨rfl, rfl⟩ := List.cons.inj heq
        exact .inr ⟨before, after, rfl, by simpa using hframes⟩

/-- The parts of a place are the places that it is around. -/
theorem mem_parts {p q : Place κ} : q ∈ p.parts ↔ q.up? = some p := by
  obtain ⟨⟨info, content, as⟩, frames⟩ := p
  obtain ⟨b, gs⟩ := q
  rw [parts, mem_partsAmong]
  constructor
  · rintro ⟨before, after, heq, hframes⟩
    simp only [parts_node] at heq
    simp only at hframes
    subst heq hframes
    simp [up?, Frame.plug, List.reverseAux_eq]
  · intro hup
    obtain _ | ⟨⟨i, c, left, right⟩, gs⟩ := gs
    · simp [up?] at hup
    · simp only [up?, Frame.plug, List.reverseAux_eq, Option.some.injEq, Place.mk.injEq,
        node.injEq] at hup
      obtain ⟨⟨rfl, rfl, rfl⟩, rfl⟩ := hup
      exact ⟨left.reverse, right, rfl, by simp⟩

theorem self_mem_preorder (p : Place κ) : p ∈ p.preorder := by
  rw [preorder_eq]
  exact List.mem_cons_self

/-- The atom of a part is one of the atom's parts. -/
theorem mem_parts_atom {p q : Place κ} (h : q ∈ p.parts) : q.atom ∈ p.atom.parts := by
  obtain ⟨before, after, heq, -⟩ := mem_partsAmong.1 h
  exact heq ▸ List.mem_append_right _ List.mem_cons_self

/-- Everything in a part is in the atom. -/
theorem mem_preorder_of_part {p q r : Place κ} (h : q ∈ p.parts) (hr : r ∈ q.preorder) :
    r ∈ p.preorder := by
  rw [preorder_eq p]
  exact List.mem_cons_of_mem _ (List.mem_flatMap.2 ⟨q, h, hr⟩)

/-- What holds of a place whenever it holds of its parts holds of every place. -/
theorem induction_parts {P : Place κ → Prop} (h : ∀ p : Place κ, (∀ q ∈ p.parts, P q) → P p)
    (p : Place κ) : P p := by
  induction hheight : p.atom.height using Nat.strongRecOn generalizing p with
  | ind height ih =>
    subst hheight
    exact h p fun q hq => ih _ (height_part (mem_parts_atom hq)) q rfl

mutual

theorem subset_preorderIn {q : Place κ} : ∀ (frames : List (Frame κ)) (a : Atom κ),
    q ∈ preorderIn frames a → ∀ r ∈ q.parts, r ∈ preorderIn frames a
  | frames, .node info content parts, hq, r, hr => by
    rw [preorderIn, List.mem_cons] at hq ⊢
    rcases hq with rfl | hq
    · rw [preorderParts_eq]
      exact .inr (List.mem_flatMap.2 ⟨r, hr, self_mem_preorder r⟩)
    · exact .inr (subset_preorderParts frames info content [] parts hq r hr)

theorem subset_preorderParts {q : Place κ} (frames : List (Frame κ)) (info : Info κ)
    (content : Content) : ∀ left as : List (Atom κ),
    q ∈ preorderParts frames info content left as → ∀ r ∈ q.parts,
      r ∈ preorderParts frames info content left as
  | _, [], hq, _, _ => nomatch hq
  | left, a :: as, hq, r, hr => by
    rw [preorderParts, List.mem_append] at hq ⊢
    exact hq.imp (fun h => subset_preorderIn _ a h r hr)
      fun h => subset_preorderParts frames info content (a :: left) as h r hr

end

mutual

theorem root_of_mem_preorderIn {q : Place κ} : ∀ (frames : List (Frame κ)) (a : Atom κ),
    q ∈ preorderIn frames a → q.root = ⟨assemble a frames, []⟩
  | frames, .node info content parts, hq => by
    rw [preorderIn, List.mem_cons] at hq
    rcases hq with rfl | hq
    · rfl
    · exact root_of_mem_preorderParts frames info content [] parts hq

theorem root_of_mem_preorderParts {q : Place κ} (frames : List (Frame κ)) (info : Info κ)
    (content : Content) : ∀ left as : List (Atom κ),
    q ∈ preorderParts frames info content left as →
      q.root = ⟨assemble (.node info content (left.reverseAux as)) frames, []⟩
  | _, [], hq => nomatch hq
  | left, a :: as, hq => by
    rw [preorderParts, List.mem_append] at hq
    rcases hq with hq | hq
    · exact root_of_mem_preorderIn _ a hq
    · exact root_of_mem_preorderParts frames info content (a :: left) as hq

end

/-- The traversal from an outermost atom has all places of its tree. -/
theorem mem_preorder_root {a : Atom κ} {q : Place κ} :
    q ∈ preorder ⟨a, []⟩ ↔ q.root = ⟨a, []⟩ := by
  constructor
  · exact root_of_mem_preorderIn [] a
  · intro hroot
    obtain ⟨b, frames⟩ := q
    induction frames generalizing b with
    | nil =>
      rw [root_mk] at hroot
      rw [hroot]
      exact self_mem_preorder _
    | cons f frames ih =>
      have houter := ih (f.plug b) hroot
      exact subset_preorderIn [] a houter _ (mem_parts.2 rfl)

/-! ## Names and paths -/

/-- A path that goes on from an atom. -/
theorem pathOnto_eq (inner : Path) (name : String) (frames : List (Frame κ)) :
    pathOnto inner name frames = pathOnto [] name frames ++ inner := by
  induction frames generalizing inner name with
  | nil => rfl
  | cons f frames ih =>
    rw [pathOnto, pathOnto, ih (segment f.info name :: inner), ih [segment f.info name],
      List.append_assoc, List.singleton_append]

/-- Members of different names are found by their names. -/
theorem indexOf?_of_part {a part : Atom κ}
    (hcontent : a.content = .group ∨ ∃ backing, a.content = .overlay backing)
    (hnodup : (a.parts.map fun part => part.info.name).Nodup) {i : Nat} (hpart : a.parts[i]? = some part) :
    indexOf? a part.info.name = some i := by
  have hmembers : a.members = a.parts := by
    obtain ⟨info, content, parts⟩ := a
    rcases hcontent with rfl | ⟨backing, rfl⟩ <;> rfl
  obtain ⟨hi, rfl⟩ := List.getElem?_eq_some_iff.1 hpart
  rw [indexOf?, hmembers, List.findIdx?_eq_some_iff_getElem]
  refine ⟨hi, beq_self_eq_true _, fun j hj hsame => ?_⟩
  exact List.pairwise_iff_getElem.1 (List.pairwise_map.1 hnodup) j i (Nat.lt_trans hj hi) hi hj
    (eq_of_beq hsame)

end Place

/-! ## What holds of every atom of a tree -/

namespace Atom

mutual

/-- A property holds of an atom and of all below it. -/
def Everywhere (P : Atom κ → Prop) : Atom κ → Prop
  | .node info content parts => P (.node info content parts) ∧ EverywhereIn P parts

/-- A property holds of all atoms of these trees. -/
def EverywhereIn (P : Atom κ → Prop) : List (Atom κ) → Prop
  | [] => True
  | a :: as => Everywhere P a ∧ EverywhereIn P as

end

variable {P Q : Atom κ → Prop}

theorem everywhereIn_iff {as : List (Atom κ)} :
    EverywhereIn P as ↔ ∀ a ∈ as, Everywhere P a := by
  induction as with
  | nil => simp [EverywhereIn]
  | cons a as ih => simp [EverywhereIn, ih]

theorem everywhere_iff {a : Atom κ} :
    Everywhere P a ↔ P a ∧ ∀ part ∈ a.parts, Everywhere P part := by
  obtain ⟨info, content, parts⟩ := a
  simp [Everywhere, everywhereIn_iff]

theorem Everywhere.here {a : Atom κ} (h : Everywhere P a) : P a := (everywhere_iff.1 h).1

theorem Everywhere.part {a part : Atom κ} (h : Everywhere P a) (hp : part ∈ a.parts) :
    Everywhere P part :=
  (everywhere_iff.1 h).2 part hp

mutual

theorem Everywhere.mono (h : ∀ a, P a → Q a) : ∀ a : Atom κ, Everywhere P a → Everywhere Q a
  | .node _ _ parts, ha => ⟨h _ ha.1, EverywhereIn.mono h parts ha.2⟩

theorem EverywhereIn.mono (h : ∀ a, P a → Q a) :
    ∀ as : List (Atom κ), EverywhereIn P as → EverywhereIn Q as
  | [], _ => trivial
  | a :: as, ha => ⟨Everywhere.mono h a ha.1, EverywhereIn.mono h as ha.2⟩

end

mutual

theorem Everywhere.and : ∀ a : Atom κ, Everywhere P a → Everywhere Q a →
    Everywhere (fun a => P a ∧ Q a) a
  | .node _ _ parts, hp, hq => ⟨⟨hp.1, hq.1⟩, EverywhereIn.and parts hp.2 hq.2⟩

theorem EverywhereIn.and : ∀ as : List (Atom κ), EverywhereIn P as → EverywhereIn Q as →
    EverywhereIn (fun a => P a ∧ Q a) as
  | [], _, _ => trivial
  | a :: as, hp, hq => ⟨Everywhere.and a hp.1 hq.1, EverywhereIn.and as hp.2 hq.2⟩

end

mutual

/-- What a whole tree shows of the atom on top holds of every atom of the tree. -/
theorem Everywhere.deep (h : ∀ a, Everywhere P a → Q a) : ∀ a : Atom κ, Everywhere P a → Everywhere Q a
  | .node _ _ parts, ha => ⟨h _ ha, EverywhereIn.deep h parts ha.2⟩

theorem EverywhereIn.deep (h : ∀ a, Everywhere P a → Q a) :
    ∀ as : List (Atom κ), EverywhereIn P as → EverywhereIn Q as
  | [], _ => trivial
  | a :: as, ha => ⟨Everywhere.deep h a ha.1, EverywhereIn.deep h as ha.2⟩

end

/-- An atom with its gap filled. -/
theorem everywhere_plug {f : Frame κ} {a : Atom κ} :
    Everywhere P (f.plug a) ↔ P (f.plug a) ∧ (∀ part ∈ f.left, Everywhere P part)
      ∧ Everywhere P a ∧ ∀ part ∈ f.right, Everywhere P part := by
  rw [everywhere_iff, Frame.parts_plug]
  simp only [List.mem_append, List.mem_reverse, List.mem_cons]
  grind

/-- An atom with its gap closed. -/
theorem everywhere_close {f : Frame κ} :
    Everywhere P f.close ↔ P f.close ∧ (∀ part ∈ f.left, Everywhere P part)
      ∧ ∀ part ∈ f.right, Everywhere P part := by
  rw [everywhere_iff]
  simp only [Frame.close, parts_node, List.reverseAux_eq, List.mem_append, List.mem_reverse]
  grind

/-- What holds everywhere in a whole holds everywhere in its innermost atom. -/
theorem Everywhere.of_assemble {frames : List (Frame κ)} {a : Atom κ}
    (h : Everywhere P (Place.assemble a frames)) : Everywhere P a := by
  induction frames generalizing a with
  | nil => exact h
  | cons f frames ih => exact (everywhere_plug.1 (ih h)).2.2.1

theorem Everywhere.of_assemble_cons {f : Frame κ} {frames : List (Frame κ)} {a : Atom κ}
    (h : Everywhere P (Place.assemble a (f :: frames))) : Everywhere P (f.plug a) := by
  rw [Place.assemble] at h
  exact h.of_assemble

/-- An atom may be replaced in its surroundings when the property cannot tell, in any atom around
them, the old one from the new one. What the property looks at is a relation that the atoms around
inherit. -/
theorem everywhere_assemble_of {R : Atom κ → Atom κ → Prop}
    (hR : ∀ (f : Frame κ) x y, R x y → P (f.plug x) → P (f.plug y) ∧ R (f.plug x) (f.plug y))
    {frames : List (Frame κ)} {x y : Atom κ} (hxy : R x y) (hy : Everywhere P y)
    (h : Everywhere P (Place.assemble x frames)) : Everywhere P (Place.assemble y frames) := by
  induction frames generalizing x y with
  | nil => exact hy
  | cons f frames ih =>
    have hx := everywhere_plug.1 (Everywhere.of_assemble h : Everywhere P (f.plug x))
    have hf := hR f x y hxy hx.1
    exact ih hf.2 (everywhere_plug.2 ⟨hf.1, hx.2.1, hy, hx.2.2.2⟩) h

end Atom

namespace Place

open Atom

variable {P : Atom κ → Prop}

mutual

/-- The atoms of a tree are those of its traversal. -/
theorem everywhere_preorderIn (frames : List (Frame κ)) : ∀ a : Atom κ,
    (∀ p ∈ preorderIn frames a, P p.atom) ↔ Everywhere P a
  | .node info content parts => by
    simp only [preorderIn, Everywhere, List.mem_cons, forall_eq_or_imp,
      everywhere_preorderParts frames info content [] parts]

theorem everywhere_preorderParts (frames : List (Frame κ)) (info : Info κ) (content : Content) :
    ∀ left as : List (Atom κ),
      (∀ p ∈ preorderParts frames info content left as, P p.atom) ↔ EverywhereIn P as
  | _, [] => by simp [preorderParts, EverywhereIn]
  | left, a :: as => by
    simp only [preorderParts, EverywhereIn, List.mem_append, or_imp, forall_and,
      everywhere_preorderIn _ a, everywhere_preorderParts frames info content (a :: left) as]

end

theorem everywhere_preorder {p : Place κ} :
    (∀ q ∈ p.preorder, P q.atom) ↔ Everywhere P p.atom :=
  everywhere_preorderIn p.frames p.atom

end Place

end BinaryLayout
