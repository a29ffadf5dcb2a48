import BinaryLayout.Atom.Walk
import Std.Data.HashMap

/-!
# Comparing atoms

Two atoms are compared leaf by leaf. Leaves are paired by their paths below the compared atoms; a
pair with different bytes is a change, and a leaf without a partner was removed or added.

## Main definitions

* `Difference`: a change, a removal or an addition, with its text.
* `Place.relative`: a path below an atom, as text.
* `Place.compare`: the differences between two atoms.

## Main statements

* `Place.getElem?_byPath`: leaves are paired by the first of each path.
-/

namespace BinaryLayout

variable {κ : Type}

/-- A leaf that differs between two atoms. -/
inductive Difference where
  /-- The bytes differ; the offset is that of the later atom. -/
  | changed (path : String) (offset : Nat) (before after : Bytes)
  | removed (path : String)
  | added (path : String)
  deriving DecidableEq

def Difference.message : Difference → String
  | changed path offset before after =>
    path ++ " @" ++ Hex.number offset ++ ": " ++ Hex.bytes before ++ " -> " ++ Hex.bytes after
  | removed path => path ++ ": removed"
  | added path => path ++ ": added"

namespace Place

/-- What is left of a text after another one in front of it and the dots that follow. -/
def below (outer inner : List Char) : List Char :=
  if outer.isPrefixOf inner then (inner.drop outer.length).dropWhile (· = '.') else inner

/-- The path of `p` below `top`. -/
def relative (top p : Place κ) : String :=
  String.ofList (below top.path.text.toList p.path.text.toList)

/-- The leaves of an atom with their paths below it. -/
def namedLeaves (p : Place κ) : List (String × Place κ) := p.leaves.map fun q => (p.relative q, q)

/-- The leaf of each path. Where two have the same path, it is the first. -/
def byPath (leaves : List (String × Place κ)) : Std.HashMap String (Place κ) :=
  leaves.foldl (fun found leaf => found.insertIfNew leaf.1 leaf.2) ∅

/-- What became of a leaf of the earlier atom. -/
def difference? (standard : ByteOrder) (after : Std.HashMap String (Place κ))
    (leaf : String × Place κ) : Option Difference :=
  match after[leaf.1]? with
  | none => some (.removed leaf.1)
  | some q =>
    let old := leaf.2.serialize standard
    let new := q.serialize standard
    if old = new then none else some (.changed leaf.1 q.atom.byteOffset old new)

/-- The differences from one atom to another: the earlier leaves in order, then the new ones. -/
def compare (standard : ByteOrder) (before after : Place κ) : List Difference :=
  let old := before.namedLeaves
  let new := after.namedLeaves
  let earlier := byPath old
  old.filterMap (difference? standard (byPath new))
    ++ (new.filter fun m => !earlier.contains m.1).map fun m => .added m.1

/-- Leaves that are added one by one do not replace those that were there. -/
theorem getElem?_foldl_insertIfNew (leaves : List (String × Place κ))
    (found : Std.HashMap String (Place κ)) (path : String) :
    (leaves.foldl (fun found leaf => found.insertIfNew leaf.1 leaf.2) found)[path]?
      = found[path]?.or ((leaves.find? fun m => m.1 == path).map Prod.snd) := by
  induction leaves generalizing found with
  | nil => simp
  | cons leaf leaves ih =>
    rw [List.foldl_cons, ih, Std.HashMap.getElem?_insertIfNew]
    by_cases hPath : leaf.1 = path
    · subst hPath
      by_cases hFound : leaf.1 ∈ found <;> simp [hFound]
    · simp [hPath]

/-- The leaf of a path is the first that has it. -/
theorem getElem?_byPath (leaves : List (String × Place κ)) (path : String) :
    (byPath leaves)[path]? = (leaves.find? fun m => m.1 == path).map Prod.snd := by
  simp [byPath, getElem?_foldl_insertIfNew]

end Place

end BinaryLayout
