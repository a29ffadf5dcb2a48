import BinaryLayout.Load.Layout

/-!
# Default content

Allocating gives an atom its default content without reading a source: numbers are zero, texts are
empty or filled with zeros, padding has the configured byte, constants have their own bytes, and
arrays have the elements that their layout promises.

## Main definitions

* `Layout.defaultBytes`: the bytes of a new scalar.
* `Atom.forceExtent`: a field's tail adjusted to a forced extent.
* `allocate`: gives an atom of bytes or of bits its default content.
-/

namespace BinaryLayout

variable {κ : Type}

def TextFormat.defaultBytes (format : TextFormat) : Except Error Bytes :=
  match format.length with
  | .counted count =>
    (unitBytes count format.encoding.unit).map fun amount => List.replicate amount 0
  | .terminated => .ok (List.replicate format.encoding.unit 0)
  | .prefixed length => .ok (List.replicate length.width 0)

/-- The bytes of a new atom without parts. -/
def Layout.defaultBytes (config : Config) (frames : List (Frame κ)) (layout : Layout κ)
    (offset : Nat) : Except Error Bytes :=
  match layout with
  | .int format => .ok (List.replicate format.width 0)
  | .float precision _ => .ok (List.replicate precision.width 0)
  | .fixed base _ => .ok (List.replicate base.width 0)
  | .varint _ => .ok [0]
  | .text format => format.defaultBytes
  | .block length => .ok (List.replicate length 0)
  | .constant bytes => .ok bytes
  | .padding length => .ok (List.replicate length config.padding)
  | .align alignment => .ok (List.replicate (alignPadding frames offset alignment) config.padding)
  | .pointer wire _ _ => .ok (List.replicate wire.width 0)
  | _ => .error (.initialization .noScalarContent)

/-- The atom with the bytes of its layout after its content filled up, or cut, to the extent. A
content that is larger has no tail. -/
def Atom.forceExtent (config : Config) (extent : Nat) (a : Atom κ) : Atom κ :=
  let room := extent - a.contentSize
  let tail := a.info.tail.take room ++ List.replicate (room - a.info.tail.length) config.padding
  a.mapInfo fun info => { info with extent? := some extent, tail }

/-- How many elements a new array has, and how many bytes of padding after them. -/
def Shape.newCount (element : Layout κ) : Shape κ → Nat × Nat
  | counted count => (count, 0)
  | block extent =>
    match element.staticSize with
    | some size => if 0 < size then (extent / size, extent % size) else (0, extent)
    | none => (0, extent)
  | terminated _ | unending => (0, 0)

/-- Default content for the fields of a record, from the one at `index` on. -/
def allocateFields (env : Env κ) (part : LoadPart (LedgerM κ) κ) (frames : List (Frame κ))
    (f : Frame κ) (index cursor : Nat) :
    List (Field κ (Layout κ)) → LedgerM κ (Outcome κ)
  | [] => return ⟨f.close.ready, none⟩
  | field :: fields => do
    match env.resolve ⟨f.close, frames⟩ index field.layout with
    | .error e => return ⟨f.close, some (e.within [field.name])⟩
    | .ok layout =>
      let out ← part (f :: frames) (← LedgerM.spawn field.name (.bytes layout) cursor)
      match out.error?, field.extent? with
      | some e, _ => return ⟨f.plug out.atom, some (e.within [field.name])⟩
      | none, none =>
        allocateFields env part frames (f.push out.atom) (index + 1)
          (satAdd cursor out.atom.size) fields
      | none, some rule =>
        match env.extent ⟨f.plug out.atom, frames⟩ index rule with
        | .error e => return ⟨f.plug out.atom, some (e.within [field.name])⟩
        | .ok extent =>
          let sized := out.atom.forceExtent env.config extent
          allocateFields env part frames (f.push sized) (index + 1)
            (satAdd cursor sized.size) fields

/-- Default content for `count` elements of an array, from the one at `index` on. -/
def allocateElements (part : LoadPart (LedgerM κ) κ) (element : Layout κ)
    (frames : List (Frame κ)) :
    Nat → Frame κ → Nat → Nat → LedgerM κ (Outcome κ)
  | 0, f, _, _ => return ⟨f.close.ready, none⟩
  | count + 1, f, index, cursor => do
    let out ← part (f :: frames) (← LedgerM.spawn (toString index) (.bytes element) cursor)
    let f := f.push out.atom
    match out.error? with
    | some e => return ⟨f.close, some (e.within [Path.index index])⟩
    | none => allocateElements part element frames count f (index + 1) (satAdd cursor out.atom.size)

def allocateHost (env : Env κ) (depth : Nat) (layout : BitLayout κ) (frames : List (Frame κ))
    (a : Atom κ) : LedgerM κ (Outcome κ) := do
  match bitPosition a.info.offset with
  | .error e => return ⟨a, some e⟩
  | .ok position =>
    let root ← LedgerM.spawn "" (.bits layout) position
    let out ← allocateBits env depth ((a.fill (.host .empty) []).frame :: frames) root
    let a := hostedBits a out.atom .empty
    match out.error? with
    | some e => return ⟨a, some e⟩
    | none => return ⟨a.fixPad.ready, none⟩

/-- Default content for an atom without parts. -/
def allocateLeaf (env : Env κ) (layout : Layout κ) (frames : List (Frame κ)) (a : Atom κ) :
    Outcome κ :=
  match layout.defaultBytes env.config frames a.info.offset with
  | .error e => ⟨a, some e⟩
  | .ok raw => ⟨(a.withBytes layout raw).ready, none⟩

/-- Default content for an atom, at most `depth` layouts deep. What it held before is given up. -/
def allocate (env : Env κ) : Nat → List (Frame κ) → Atom κ → LedgerM κ (Outcome κ)
  | 0, _, a => return ⟨a, some (.initialization (.nestingLimit Layout.nestingLimit))⟩
  | depth + 1, frames, a => do
    match a.info.layout with
    | .bits _ => allocateBits env (depth + 1) frames a
    | .bytes layout =>
      let a ← LedgerM.clear a
      match layout with
      | .record _ fields =>
        allocateFields env (allocate env depth) frames (a.fill .group []).frame 0 a.info.offset
          fields
      | .array element shape =>
        let (count, rest) := shape.newCount element
        let out ← allocateElements (allocate env depth) element frames count
          (a.fill .group []).frame 0 a.info.offset
        match out.error? with
        | some e => return ⟨out.atom, some e⟩
        | none => return ⟨out.atom.withTail (List.replicate rest env.config.padding), none⟩
      | .union _ members size =>
        let backing : Bytes := List.replicate size 0
        LedgerM.fromBytes backing a.info.offset
          (loadMembers (load env depth) backing frames (a.fill (.overlay backing) []).frame
            members)
      | .bits root _ => allocateHost env depth root frames a
      | _ => return allocateLeaf env layout frames a

end BinaryLayout
