import BinaryLayout.Document.Operations
import BinaryLayout.Proofs.Tree.Walk

/-!
# Places of a document

The places of a document are those that walks from its outermost atoms visit. A handle is live when
it is that of a place. Moves, written paths and the way to the enclosing atom of bytes lead from
places to places.

## Main definitions

* `Document.places`, `Document.Live`: the places, and the handles of their atoms.

## Main statements

* `Document.mem_places`: places are inside outermost atoms.
* `Document.find?_of_live`: a live handle leads to a place.
* `Place.root_lookup`, `Place.root_byteOwner`: paths and owners stay inside the outermost atom.
-/

namespace BinaryLayout

variable {κ : Type}

open Atom

namespace Place

mutual

/-- Looking for a handle is looking through the traversal. -/
theorem withHandleIn_eq (id : Nat) (frames : List (Frame κ)) : ∀ a : Atom κ,
    withHandleIn id frames a = (preorderIn frames a).find? fun p => p.atom.info.id = id
  | .node info content parts => by
    rw [withHandleIn, preorderIn, List.find?_cons, withHandleAmong_eq id frames info content [] parts]
    by_cases h : info.id = id <;> simp [h]

theorem withHandleAmong_eq (id : Nat) (frames : List (Frame κ)) (info : Info κ)
    (content : Content) : ∀ left as : List (Atom κ),
    withHandleAmong id frames info content left as =
      (preorderParts frames info content left as).find? fun p => p.atom.info.id = id
  | _, [] => rfl
  | left, a :: as => by
    rw [withHandleAmong, preorderParts, List.find?_append, withHandleIn_eq id _ a,
      withHandleAmong_eq id frames info content (a :: left) as]
    cases (preorderIn (⟨info, content, left, as⟩ :: frames) a).find? fun p => p.atom.info.id = id <;>
      rfl

end

/-! ## Paths stay inside the outermost atom -/

theorem root_member? {p q : Place κ} {i : Nat} (h : p.member? i = some q) : q.root = p.root := by
  rw [member?] at h
  split at h
  · exact root_down? h
  · exact root_down? h
  · split at h
    · rename_i root hroot
      split at h
      · exact (root_down? h).trans (root_down? hroot)
      · exact (root_down? h).trans (root_down? hroot)
      · cases h
    · cases h
  · cases h

theorem root_field {p q : Place κ} {name : String} (h : p.field name = .ok q) :
    q.root = p.root := by
  rw [field] at h
  cases hmember : p.memberNamed? name with
  | none =>
    rw [hmember] at h
    cases h
  | some m =>
    rw [hmember] at h
    cases h
    obtain ⟨i, -, hi⟩ := Option.bind_eq_some_iff.1 hmember
    exact root_member? hi

theorem root_item {p q : Place κ} {i : Nat} (h : p.item i = .ok q) : q.root = p.root := by
  rw [item] at h
  cases hmember : p.member? i with
  | none =>
    rw [hmember] at h
    cases h
  | some m =>
    rw [hmember] at h
    cases h
    exact root_member? hmember

theorem root_followIndices {segment : List Char} {p q : Place κ} {indices : List (List Char)}
    (h : followIndices segment p indices = .ok q) : q.root = p.root := by
  induction indices generalizing p with
  | nil =>
    cases h
    rfl
  | cons text indices ih =>
    rw [followIndices] at h
    split at h
    · cases h
    · split at h
      · exact (ih h).trans (root_item ‹_›)
      · cases h

theorem root_followPiece {p q : Place κ} {piece : List Char} (h : p.followPiece piece = .ok q) :
    q.root = p.root := by
  rw [followPiece] at h
  split at h
  · exact root_followIndices h
  · split at h
    · exact (root_followIndices h).trans (root_field ‹_›)
    · cases h

theorem root_followPieces {p q : Place κ} {segments : List (List Char)}
    (h : p.followPieces segments = .ok q) : q.root = p.root := by
  induction segments generalizing p with
  | nil =>
    cases h
    rfl
  | cons piece segments ih =>
    rw [followPieces] at h
    split at h
    · exact (ih h).trans (root_followPiece ‹_›)
    · cases h

/-- A written path leads to an atom of the same outermost atom. -/
theorem root_lookup {p q : Place κ} {path : String} (h : p.lookup path = .ok q) :
    q.root = p.root :=
  root_followPieces h

/-- The enclosing atom of bytes is in the same outermost atom. -/
theorem root_byteOwner (p : Place κ) : p.byteOwner.root = p.root := by
  obtain ⟨a, frames⟩ := p
  show (byteOwnerIn a frames).root = root ⟨a, frames⟩
  induction frames generalizing a with
  | nil => rfl
  | cons f frames ih =>
    rw [byteOwnerIn]
    split
    · exact ih (f.plug a)
    · rfl

end Place

namespace Document

/-- The places of the document, in the order of walks from its outermost atoms. -/
def places (d : Document κ) : List (Place κ) := d.roots.flatMap fun a => Place.walk ⟨a, []⟩

/-- The handle is that of an atom of the document. -/
def Live (d : Document κ) (id : Nat) : Prop := ∃ p ∈ d.places, p.atom.info.id = id

instance (d : Document κ) (id : Nat) : Decidable (d.Live id) :=
  inferInstanceAs (Decidable (∃ p ∈ d.places, p.atom.info.id = id))

variable {d : Document κ} {p q : Place κ} {id : Nat}

theorem places_eq (d : Document κ) :
    d.places = d.roots.flatMap fun a => Place.preorder ⟨a, []⟩ := by
  simp only [places, Place.walk_eq_preorder]

/-- The places are those inside outermost atoms. -/
theorem mem_places : p ∈ d.places ↔ p.root.atom ∈ d.roots := by
  rw [places_eq, List.mem_flatMap]
  constructor
  · rintro ⟨a, ha, hp⟩
    rw [Place.mem_preorder_root.1 hp]
    exact ha
  · intro hroot
    exact ⟨_, hroot, Place.mem_preorder_root.2 rfl⟩

/-- Places of one outermost atom are in the document together. -/
theorem mem_places_of_root (h : q.root = p.root) (hp : p ∈ d.places) : q ∈ d.places := by
  rw [mem_places] at hp ⊢
  rw [h]
  exact hp

/-- A live handle leads to a place. -/
theorem find?_of_live (h : d.Live id) :
    ∃ p ∈ d.places, d.find? id = some p ∧ p.atom.info.id = id := by
  have hfind : d.roots.findSome? (Place.withHandleIn id []) =
      d.places.find? fun p => p.atom.info.id = id := by
    rw [places_eq, List.find?_flatMap]
    congr 1
    funext a
    exact Place.withHandleIn_eq id [] a
  obtain ⟨q, hq, hid⟩ := h
  have hsome : (d.places.find? fun p => p.atom.info.id = id).isSome := by
    rw [List.find?_isSome]
    exact ⟨q, hq, by simpa using hid⟩
  obtain ⟨p, hp⟩ := Option.isSome_iff_exists.1 hsome
  refine ⟨p, List.mem_of_find?_eq_some hp, ?_, by simpa using List.find?_some hp⟩
  rw [find?, hfind, hp]

/-- What is computed of the place that a live handle leads to holds there. -/
theorem shown_of_live (h : d.Live id) (shows : Place κ → Bool) (hshown : (d.find? id).all shows = true) :
    ∃ p ∈ d.places, d.find? id = some p ∧ p.atom.info.id = id ∧ shows p = true := by
  obtain ⟨p, hp, hfind, hid⟩ := find?_of_live h
  rw [hfind, Option.all_some] at hshown
  exact ⟨p, hp, hfind, hid, hshown⟩

theorem mem_places_of_locate (h : d.Live id) {path : String} (hq : d.locate id path = .ok q) :
    q ∈ d.places := by
  obtain ⟨p, hp, hfind, -⟩ := find?_of_live h
  rw [locate, place, hfind] at hq
  exact mem_places_of_root (Place.root_lookup hq) hp

theorem live_of_mem (h : p ∈ d.places) : d.Live p.atom.info.id := ⟨p, h, rfl⟩

end Document

end BinaryLayout
