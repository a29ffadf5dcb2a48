import BinaryLayout.Atom.Place

/-!
# Walking atoms

An atom and everything below it, each atom before its parts and the parts in order. The walk keeps
the places still to visit on a stack; the recursive traversal gives the same list and serves as its
description.

## Main definitions

* `Place.preorder`: the traversal by recursion.
* `Place.walk`: the traversal with a stack.
* `Place.leaves`, `Place.find?`: atoms without parts, and the first atom of some kind.
* `Place.covering?`: the deepest atom that covers an offset.
-/

namespace BinaryLayout

variable {κ : Type}

namespace Place

mutual

/-- The atom inside the frames, and everything below it. -/
def preorderIn (frames : List (Frame κ)) : Atom κ → List (Place κ)
  | .node info content parts =>
    ⟨.node info content parts, frames⟩ :: preorderParts frames info content [] parts

/-- Everything from a part on, after the parts `left`, the nearest first. -/
def preorderParts (frames : List (Frame κ)) (info : Info κ) (content : Content)
    (left : List (Atom κ)) : List (Atom κ) → List (Place κ)
  | [] => []
  | a :: right =>
    preorderIn (⟨info, content, left, right⟩ :: frames) a
      ++ preorderParts frames info content (a :: left) right

end

/-- The atom and everything below it, by recursion. -/
def preorder (p : Place κ) : List (Place κ) := preorderIn p.frames p.atom

/-- Visits the top of the stack and puts its parts in its place, `fuel` times at most. -/
def walkFrom : Nat → List (Place κ) → List (Place κ)
  | 0, _ => []
  | _ + 1, [] => []
  | fuel + 1, p :: stack => p :: walkFrom fuel (p.parts ++ stack)

def walk (p : Place κ) : List (Place κ) := walkFrom p.atom.count [p]

/-- The atoms of a walk that have no parts. -/
def leaves (p : Place κ) : List (Place κ) := p.walk.filter fun q => q.atom.parts.isEmpty

/-- The first atom of a walk that satisfies a predicate. -/
def find? (p : Place κ) (accepts : Place κ → Bool) : Option (Place κ) := p.walk.find? accepts

/-- The bytes of an atom include the one at an offset. -/
def covers (a : Atom κ) (offset : Nat) : Bool :=
  decide (a.byteOffset ≤ offset ∧ offset < (a.byteOffset + a.size) % pow2 64)

mutual

/-- The deepest atom that covers an offset, through the parts of records and arrays. -/
def coveringIn (offset : Nat) (frames : List (Frame κ)) : Atom κ → Option (Place κ)
  | .node info content parts =>
    if covers (.node info content parts) offset then
      let here : Place κ := ⟨.node info content parts, frames⟩
      if !info.layout.isBits && content == .group then
        some ((coveringParts offset frames info content [] parts).getD here)
      else some here
    else none

/-- The first answer among the parts, after the parts `left`, the nearest first. -/
def coveringParts (offset : Nat) (frames : List (Frame κ)) (info : Info κ) (content : Content)
    (left : List (Atom κ)) : List (Atom κ) → Option (Place κ)
  | [] => none
  | a :: right =>
    match coveringIn offset (⟨info, content, left, right⟩ :: frames) a with
    | some found => some found
    | none => coveringParts offset frames info content (a :: left) right

end

/-- The deepest atom at or below this one that covers an offset. -/
def covering? (p : Place κ) (offset : Nat) : Option (Place κ) := coveringIn offset p.frames p.atom

end Place

end BinaryLayout
