import BinaryLayout.Allocate.Bits

/-!
# Offsets after a change

When an atom's size changes, everything after it moves. The parts of a record or an array stand one
after another from its own offset, the members of a union stand at its offset, and the root of a
host of bits at the first bit of the host. What a pointer refers to has an offset of its own and
stays.

## Main definitions

* `Atom.moveTo`, `Atom.arranged`: an atom at another offset, and one with its parts in order.
* `Place.reflow`: the surroundings in order again.
* `Atom.relocate`: an atom moved on its own.
-/

namespace BinaryLayout

variable {κ : Type}

namespace Atom

/-- The first bit of a host at a byte offset, the last place at most. -/
def hostedAt (offset : Nat) : Nat := min (8 * offset) (pow2 64 - 1)

mutual

/-- The atom at another offset, with its parts moved along. -/
def moveTo (offset : Nat) : Atom κ → Atom κ
  | .node info content parts =>
    if info.offset = offset then .node info content parts
    else
      .node { info with offset } content
        (match content with
          | .group => moveInTurn info.layout.isBits offset parts
          | .overlay _ => moveAll offset parts
          | .host _ => moveAll (hostedAt offset) parts
          | _ => parts)

/-- Atoms one after another, the first at `cursor`. -/
def moveInTurn (inBits : Bool) (cursor : Nat) : List (Atom κ) → List (Atom κ)
  | [] => []
  | a :: as => moveTo cursor a :: moveInTurn inBits (satAdd cursor (a.step inBits)) as

def moveAll (offset : Nat) : List (Atom κ) → List (Atom κ)
  | [] => []
  | a :: as => moveTo offset a :: moveAll offset as

end

/-- The atom with its parts where its own offset puts them. -/
def arranged : Atom κ → Atom κ
  | .node info content parts =>
    .node info content
      (match content with
        | .group => moveInTurn info.layout.isBits info.offset parts
        | .overlay _ => moveAll info.offset parts
        | .host _ => moveAll (hostedAt info.offset) parts
        | _ => parts)

/-- The atom moved to a byte offset, whatever surrounds it. -/
def relocate (offset : Nat) (a : Atom κ) : Atom κ :=
  let offset := if a.isBits then hostedAt offset else offset
  (a.mapInfo fun info => { info with offset }).arranged

end Atom

namespace Place

/-- Puts everything around the atom in order after its size changed, as far out as what a pointer
refers to. -/
def reflowIn (a : Atom κ) : List (Frame κ) → Place κ
  | [] => ⟨a, []⟩
  | f :: frames =>
    let outer? := match f.content with
      | .group => some (f.plug a).arranged
      | .host _ => some (f.plug a).fixPad
      | .overlay _ => some (f.plug a)
      | _ => none
    match outer? with
    | some outer => ((reflowIn outer frames).down? f.left.length).getD ⟨a, f :: frames⟩
    | none => ⟨a, f :: frames⟩

/-- The place with everything around its atom in order. -/
def reflow (p : Place κ) : Place κ := reflowIn p.atom p.frames

end Place

end BinaryLayout
