import BinaryLayout.Allocate.Bits
import BinaryLayout.Load.Array
import BinaryLayout.Load.Bits
import BinaryLayout.Load.Leaf

/-!
# Loading atoms

An atom is emptied and then loaded as its layout says. The parts of a compound atom are loaded in
order, each where the one before it ended, and a failure keeps what was loaded so far. An error
names its atom by the path from the atom whose loading was asked for.

## Main definitions

* `loadSized`: a field with a forced extent.
* `loadFields`, `loadMembers`, `loadHost`: records, unions and hosts of bits.
* `load`: loads an atom of bytes.
-/

namespace BinaryLayout

variable {κ : Type}

/-- Loads a part that takes exactly `extent` bytes. It cannot read past them, and those that its
content leaves become its tail. -/
def loadSized (part : LoadPart (LoadM κ) κ) (frames : List (Frame κ)) (a : Atom κ) (extent : Nat) :
    LoadM κ (Outcome κ) := do
  let a := a.mapInfo fun info => { info with extent? := some extent }
  match spanEnd a.info.offset extent with
  | .error e => return ⟨a, some e⟩
  | .ok limit =>
    let out ← LoadM.inWindow limit (part frames a)
    let used := out.atom.contentSize
    if out.error?.isSome ∨ extent ≤ used then return out
    match ← LoadM.readAt (a.info.offset + used) (extent - used) with
    | .error e => return ⟨out.atom, some e⟩
    | .ok tail => return ⟨out.atom.withTail tail, none⟩

/-- Loads the blank field at `index`, which the record already owns. -/
def loadField (env : Env κ) (part : LoadPart (LoadM κ) κ) (frames : List (Frame κ)) (f : Frame κ)
    (index : Nat) (extent? : Option κ) (blank : Atom κ) : LoadM κ (Outcome κ) :=
  match extent? with
  | none => part (f :: frames) blank
  | some rule =>
    match env.extent ⟨f.plug blank, frames⟩ index rule with
    | .error e => return ⟨blank, some e⟩
    | .ok extent => loadSized part (f :: frames) blank extent

/-- Loads the fields of a record from the one at `index` on. -/
def loadFields (env : Env κ) (part : LoadPart (LoadM κ) κ) (frames : List (Frame κ))
    (f : Frame κ) (index cursor : Nat) :
    List (Field κ (Layout κ)) → LoadM κ (Outcome κ)
  | [] => return ⟨f.close.ready, none⟩
  | field :: fields => do
    match env.resolve ⟨f.close, frames⟩ index field.layout with
    | .error e => return ⟨f.close, some (e.within [field.name])⟩
    | .ok layout =>
      let blank ← LoadM.ofLedger (LedgerM.spawn field.name (.bytes layout) cursor)
      let out ← loadField env part frames f index field.extent? blank
      let f := f.push out.atom
      match out.error? with
      | some e => return ⟨f.close, some (e.within [field.name])⟩
      | none =>
        match spanEnd cursor out.atom.size with
        | .error e => return ⟨f.close, some (e.within [field.name])⟩
        | .ok cursor => loadFields env part frames f (index + 1) cursor fields

/-- Loads the members of a union, each from the start of its bytes. -/
def loadMembers (part : LoadPart (LoadM κ) κ) (backing : Bytes) (frames : List (Frame κ))
    (f : Frame κ) : List (String × Layout κ) → LoadM κ (Outcome κ)
  | [] => return ⟨f.close.ready, none⟩
  | (name, layout) :: members => do
    let blank ← LoadM.ofLedger (LedgerM.spawn name (.bytes layout) f.info.offset)
    let out ← LoadM.fromBytes backing f.info.offset (part (f :: frames) blank)
    let f := f.push out.atom
    match out.error? with
    | some e => return ⟨f.close, some (e.within [name])⟩
    | none => loadMembers part backing frames f members

/-- Loads a union: its bytes, and then its members from them. -/
def loadUnion (part : LoadPart (LoadM κ) κ) (members : List (String × Layout κ)) (size : Nat)
    (frames : List (Frame κ)) (a : Atom κ) : LoadM κ (Outcome κ) := do
  match ← LoadM.readAt a.info.offset size with
  | .error e => return ⟨a, some e⟩
  | .ok backing => loadMembers part backing frames (a.fill (.overlay backing) []).frame members

/-- The atom of a host's root, inside the host. -/
def hostedBits (a root : Atom κ) (pad : Bitmap) : Atom κ := a.fill (.host pad) [root]

/-- Loads the root of a host of bits from where its bytes start, and keeps the bits left over. -/
def loadRoot (env : Env κ) (depth : Nat) (order : ByteOrder) (frames : List (Frame κ))
    (a root : Atom κ) : LoadM κ (Outcome κ) := do
  match ← LoadM.seekTo a.info.offset 1 with
  | .error e => return ⟨hostedBits a root .empty, some e⟩
  | .ok () =>
    let inner := (a.fill (.host .empty) []).frame :: frames
    let (out, pad) ← BitLoadM.run order a.info.offset (loadBits env depth inner root)
    match out.error? with
    | some e => return ⟨hostedBits a out.atom .empty, some e⟩
    | none => return ⟨(hostedBits a out.atom pad).ready, none⟩

/-- Loads a host of bits. A root without bits reads nothing. -/
def loadHost (env : Env κ) (depth : Nat) (layout : BitLayout κ) (order : ByteOrder)
    (frames : List (Frame κ)) (a : Atom κ) : LoadM κ (Outcome κ) := do
  match bitPosition a.info.offset with
  | .error e => return ⟨a, some e⟩
  | .ok position =>
    let root ← LoadM.ofLedger (LedgerM.spawn "" (.bits layout) position)
    if layout.staticBits = some 0 then
      let inner := (a.fill (.host .empty) []).frame :: frames
      let out ← LoadM.ofLedger (allocateBits env depth inner root)
      match out.error? with
      | some e => return ⟨hostedBits a out.atom .empty, some e⟩
      | none => return ⟨(hostedBits a out.atom .empty).ready, none⟩
    else loadRoot env depth order frames a root

/-- Loads an atom of bytes, at most `depth` layouts deep. What it held before is given up. -/
def load (env : Env κ) : Nat → List (Frame κ) → Atom κ → LoadM κ (Outcome κ)
  | 0, _, a => return ⟨a, some (.initialization (.nestingLimit Layout.nestingLimit))⟩
  | depth + 1, frames, a => do
    match a.info.layout with
    | .bits _ => return ⟨a, some (.initialization .bitAtomAlone)⟩
    | .bytes layout =>
      let a ← LoadM.ofLedger (LedgerM.clear a)
      match layout with
      | .record _ fields =>
        loadFields env (load env depth) frames (a.fill .group []).frame 0 a.info.offset fields
      | .array element (.counted count) =>
        loadCounted (load env depth) element frames count (a.fill .group []).frame 0 a.info.offset
      | .array element (.block extent) =>
        loadBlock (load env depth) element extent frames (a.fill .group [])
      | .array element (.terminated rule) =>
        loadOpen env (load env depth) element (some rule) frames env.config.maxElements
          (a.fill .group []).frame 0 a.info.offset
      | .array element .unending =>
        loadOpen env (load env depth) element none frames env.config.maxElements
          (a.fill .group []).frame 0 a.info.offset
      | .union _ members size => loadUnion (load env depth) members size frames a
      | .bits root order => loadHost env depth root order frames a
      | _ => loadLeaf env layout frames a

end BinaryLayout
