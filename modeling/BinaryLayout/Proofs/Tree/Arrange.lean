import BinaryLayout.Edit.Offsets
import BinaryLayout.Proofs.Tree.Recast
import BinaryLayout.Proofs.Tree.Shape

/-!
# Atoms that only move

Moving an atom, and putting its parts in order, changes offsets and nothing else. So a measure, the
bytes and the handles of an atom that moved are those that it had. All of this follows from one
equation: the atom without its offsets stays the same.

## Main definitions

* `Atom.partsAt`: the parts of an atom at an offset.
* `Atom.unplaced`: an atom without offsets.

## Main statements

* `Atom.unplaced_moveTo`, `Atom.unplaced_arranged`: moving changes nothing but offsets.
* `Atom.size_unplaced`: what offsets do not change.
-/

namespace BinaryLayout

variable {κ : Type}

namespace Atom

/-- Parts where an atom at the offset, with the content, has them. -/
def partsAt (inBits : Bool) (content : Content) (offset : Nat) (parts : List (Atom κ)) :
    List (Atom κ) :=
  match content with
  | .group => moveInTurn inBits offset parts
  | .overlay _ => moveAll offset parts
  | .host _ => moveAll (hostedAt offset) parts
  | _ => parts

/-- The parts are moved one after another, or all to one offset, or left alone. -/
theorem partsAt_cases {P : List (Atom κ) → Prop} {inBits : Bool} (content : Content) {offset : Nat}
    {parts : List (Atom κ)} (hturn : P (moveInTurn inBits offset parts))
    (hall : ∀ offset, P (moveAll offset parts)) (hsame : P parts) :
    P (partsAt inBits content offset parts) := by
  cases content with
  | group => exact hturn
  | overlay | host => exact hall _
  | empty | raw | pointer | bits => exact hsame

theorem moveTo_node (offset : Nat) (info : Info κ) (content : Content) (parts : List (Atom κ)) :
    moveTo offset (.node info content parts) =
      if info.offset = offset then .node info content parts
      else .node { info with offset } content (partsAt info.layout.isBits content offset parts) := by
  rw [moveTo.eq_def]
  cases content <;> rfl

theorem arranged_eq (a : Atom κ) :
    a.arranged = .node a.info a.content (partsAt a.isBits a.content a.info.offset a.parts) := by
  obtain ⟨info, content, parts⟩ := a
  cases content <;> rfl

/-! ## Atoms without offsets -/

mutual

def unplaced : Atom κ → Atom κ
  | .node info content parts => .node { info with offset := 0 } content (unplacedAll parts)

def unplacedAll : List (Atom κ) → List (Atom κ)
  | [] => []
  | a :: as => unplaced a :: unplacedAll as

end

@[simp] theorem unplacedAll_eq (as : List (Atom κ)) : unplacedAll as = as.map unplaced := by
  induction as with
  | nil => rfl
  | cons a as ih => rw [unplacedAll, ih, List.map_cons]

theorem unplaced_node (info : Info κ) (content : Content) (parts : List (Atom κ)) :
    unplaced (.node info content parts) =
      .node { info with offset := 0 } content (parts.map unplaced) := by
  rw [unplaced, unplacedAll_eq]

@[simp] theorem info_unplaced (a : Atom κ) : a.unplaced.info = { a.info with offset := 0 } := by
  cases a
  rfl

@[simp] theorem content_unplaced (a : Atom κ) : a.unplaced.content = a.content := by
  cases a
  rfl

@[simp] theorem parts_unplaced (a : Atom κ) : a.unplaced.parts = a.parts.map unplaced := by
  obtain ⟨info, content, parts⟩ := a
  rw [unplaced_node, parts_node, parts_node]

mutual

/-- Taking the offsets away changes infos alone. -/
theorem unplaced_eq_recast : ∀ a : Atom κ,
    a.unplaced = a.recast fun info => { info with offset := 0 }
  | .node info content parts => by rw [unplaced, recast, unplacedAll_eq_recastAll parts]

theorem unplacedAll_eq_recastAll : ∀ as : List (Atom κ),
    unplacedAll as = recastAll (fun info => { info with offset := 0 }) as
  | [] => rfl
  | a :: as => by rw [unplacedAll, recastAll, unplaced_eq_recast a, unplacedAll_eq_recastAll as]

end

theorem keeping_unplaced : Info.Keeping fun info : Info κ => { info with offset := 0 } :=
  ⟨fun _ => rfl, fun _ => rfl⟩

/-! ## Moving -/

mutual

/-- Moving an atom changes nothing but offsets. -/
theorem unplaced_moveTo (offset : Nat) : ∀ a : Atom κ, (moveTo offset a).unplaced = a.unplaced
  | .node info content parts => by
    rw [moveTo_node]
    split
    · rfl
    · have hturn := map_unplaced_moveInTurn info.layout.isBits offset parts
      have hall (offset : Nat) := map_unplaced_moveAll offset parts
      have hparts := partsAt_cases (P := fun bs => bs.map unplaced = parts.map unplaced) content
        hturn hall rfl
      rw [unplaced_node, unplaced_node, hparts]

theorem map_unplaced_moveInTurn (inBits : Bool) (cursor : Nat) : ∀ as : List (Atom κ),
    (moveInTurn inBits cursor as).map unplaced = as.map unplaced
  | [] => rfl
  | a :: as => by
    rw [moveInTurn, List.map_cons, List.map_cons, unplaced_moveTo cursor a,
      map_unplaced_moveInTurn inBits _ as]

theorem map_unplaced_moveAll (offset : Nat) : ∀ as : List (Atom κ),
    (moveAll offset as).map unplaced = as.map unplaced
  | [] => rfl
  | a :: as => by
    rw [moveAll, List.map_cons, List.map_cons, unplaced_moveTo offset a,
      map_unplaced_moveAll offset as]

end

theorem map_unplaced_partsAt (inBits : Bool) (content : Content) (offset : Nat)
    (parts : List (Atom κ)) :
    (partsAt inBits content offset parts).map unplaced = parts.map unplaced :=
  partsAt_cases (P := fun bs => bs.map unplaced = parts.map unplaced) content
    (map_unplaced_moveInTurn inBits offset parts) (fun offset => map_unplaced_moveAll offset parts)
    rfl

/-- Putting the parts in order changes nothing but offsets. -/
theorem unplaced_arranged (a : Atom κ) : a.arranged.unplaced = a.unplaced := by
  obtain ⟨info, content, parts⟩ := a
  rw [arranged_eq, unplaced_node, unplaced_node, map_unplaced_partsAt]
  rfl

/-! ## What offsets do not change -/

@[simp] theorem isBits_unplaced (a : Atom κ) : a.unplaced.isBits = a.isBits := by
  rw [isBits, isBits, info_unplaced]

theorem shaped_unplaced {a : Atom κ} : a.unplaced.Shaped ↔ a.Shaped := by
  have hparts : a.unplaced.parts.map isBits = a.parts.map isBits := by
    simp [Function.comp_def]
  constructor
  · intro h
    have hadmits := h.admits
    have hholds := h.holds
    simp only [info_unplaced, content_unplaced, isBits_unplaced] at hadmits hholds
    exact ⟨hadmits, hholds.of_isBits hparts.symm⟩
  · intro h
    refine ⟨by simpa using h.admits, ?_⟩
    rw [content_unplaced, isBits_unplaced]
    exact h.holds.of_isBits hparts

mutual

/-- What does not depend on offsets holds everywhere in an atom wherever the atom stands. -/
theorem everywhere_unplaced {P : Atom κ → Prop} (h : ∀ a : Atom κ, P a.unplaced ↔ P a) : ∀ a : Atom κ,
    Everywhere P a.unplaced ↔ Everywhere P a
  | .node info content parts => by
    have hhere := h (.node info content parts)
    have hparts := everywhereIn_unplacedAll h parts
    rw [unplaced] at hhere ⊢
    rw [Everywhere, Everywhere, hhere, hparts]

theorem everywhereIn_unplacedAll {P : Atom κ → Prop} (h : ∀ a : Atom κ, P a.unplaced ↔ P a) :
    ∀ as : List (Atom κ), EverywhereIn P (unplacedAll as) ↔ EverywhereIn P as
  | [] => Iff.rfl
  | a :: as => by
    rw [unplacedAll, EverywhereIn, EverywhereIn, everywhere_unplaced h a, everywhereIn_unplacedAll h as]

end

theorem everywhere_shaped_unplaced (a : Atom κ) : Everywhere Shaped a.unplaced ↔ Everywhere Shaped a :=
  everywhere_unplaced (fun _ => shaped_unplaced) a

@[simp] theorem bitCount_unplaced (a : Atom κ) : a.unplaced.bitCount = a.bitCount := by
  rw [unplaced_eq_recast, bitCount_recast]

@[simp] theorem bitCounts_unplacedAll (as : List (Atom κ)) :
    bitCounts (unplacedAll as) = bitCounts as := by
  rw [unplacedAll_eq_recastAll, bitCounts_recastAll]

@[simp] theorem contentSize_unplaced (a : Atom κ) : a.unplaced.contentSize = a.contentSize := by
  rw [unplaced_eq_recast, contentSize_recast keeping_unplaced]

@[simp] theorem sizes_unplacedAll (as : List (Atom κ)) : sizes (unplacedAll as) = sizes as := by
  rw [unplacedAll_eq_recastAll, sizes_recastAll keeping_unplaced]

@[simp] theorem size_unplaced (a : Atom κ) : a.unplaced.size = a.size := by
  rw [unplaced_eq_recast, size_recast keeping_unplaced]

@[simp] theorem step_unplaced (inBits : Bool) (a : Atom κ) :
    a.unplaced.step inBits = a.step inBits := by
  rw [unplaced_eq_recast, step_recast keeping_unplaced]

@[simp] theorem serializeAll_unplacedAll (order : ByteOrder) (as : List (Atom κ)) :
    serializeAll order (unplacedAll as) = serializeAll order as := by
  rw [unplacedAll_eq_recastAll, serializeAll_recastAll keeping_unplaced]

end Atom

end BinaryLayout
