import BinaryLayout.Load.Basic

/-!
# Default content of bits

Allocating gives an atom of bits its default content: integers are zero, a counted array has all its
elements, and a terminated one has none.

## Main definitions

* `allocateBits`: default content for an atom of bits.
* `Atom.fixPad`: the unused bits of a host's last byte.
-/

namespace BinaryLayout

variable {κ : Type}

/-- The unused bits that a host needs; those it has are kept when their number is right. -/
def Atom.fixPad : Atom κ → Atom κ
  | .node info (.host pad) parts =>
    let width := (8 - bitCounts parts % 8) % 8
    .node info (.host (if pad.width = width then pad else Bitmap.ofNat 0 width false)) parts
  | a => a

/-- Default content for the fields of a record of bits, from the field at `index` on. -/
def allocateBitFields (env : Env κ) (part : LoadPart (LedgerM κ) κ) (frames : List (Frame κ))
    (f : Frame κ) (index cursor : Nat) :
    List (BitField κ (BitLayout κ)) → LedgerM κ (Outcome κ)
  | [] => return ⟨f.close.ready, none⟩
  | field :: fields => do
    match env.resolveBits ⟨f.close, frames⟩ index field.layout with
    | .error e => return ⟨f.close, some (e.within [field.name])⟩
    | .ok layout =>
      let out ← part (f :: frames) (← LedgerM.spawn field.name (.bits layout) cursor)
      let f := f.push out.atom
      match out.error? with
      | some e => return ⟨f.close, some e⟩
      | none =>
        allocateBitFields env part frames f (index + 1) (satAdd cursor out.atom.bits) fields

/-- Default content for `count` elements of an array of bits, from the element at `index` on. -/
def allocateBitElements (part : LoadPart (LedgerM κ) κ) (element : BitLayout κ)
    (frames : List (Frame κ)) :
    Nat → Frame κ → Nat → Nat → LedgerM κ (Outcome κ)
  | 0, f, _, _ => return ⟨f.close.ready, none⟩
  | count + 1, f, index, cursor => do
    let out ← part (f :: frames) (← LedgerM.spawn (toString index) (.bits element) cursor)
    let f := f.push out.atom
    match out.error? with
    | some e => return ⟨f.close, some e⟩
    | none =>
      allocateBitElements part element frames count f (index + 1) (satAdd cursor out.atom.bits)

/-- How many elements a new array of bits has. -/
def BitShape.newCount : BitShape κ → Nat
  | counted count => count
  | terminated _ => 0

/-- Default content for an atom of bits, at most `depth` layouts deep. -/
def allocateBits (env : Env κ) : Nat → List (Frame κ) → Atom κ → LedgerM κ (Outcome κ)
  | 0, _, a => return ⟨a, some (.initialization (.nestingLimit Layout.nestingLimit))⟩
  | depth + 1, frames, a => do
    match a.info.layout with
    | .bytes _ => return ⟨a, some (.initialization .byteAtomAmongBits)⟩
    | .bits layout =>
      let a ← LedgerM.clear a
      match layout with
      | .int bits signed => return ⟨(a.fill (.bits (Bitmap.ofNat 0 bits signed)) []).ready, none⟩
      | .record _ fields =>
        allocateBitFields env (allocateBits env depth) frames (a.fill .group []).frame 0
          a.info.offset fields
      | .array element shape =>
        allocateBitElements (allocateBits env depth) element frames shape.newCount
          (a.fill .group []).frame 0 a.info.offset

end BinaryLayout
