import BinaryLayout.Allocate.Layout
import BinaryLayout.Edit.Offsets

/-!
# What follows a change

A changed atom changes what surrounds it, but never itself. Later fields of the records around it
are laid out anew when a rule decides their layout or extent; the other members of a union around it
are loaded anew from the bytes that they share; and the atoms around it become dirty. None of this
passes a pointer, because what a pointer refers to is a separate layout.

## Main definitions

* `Surroundings`: frames around an atom that stays as it is, and perhaps an error.
* `rebuild`: an atom under another layout, loaded from its own bytes when they fit.
* `followDependents`: later fields that rules decide.
* `syncUnions`: the shared bytes of unions and their other members.
* `markDirty`: the enclosing atoms, dirty.
-/

namespace BinaryLayout

variable {κ : Type}

/-- What surrounds an atom, and the error that ended a change to it. -/
structure Surroundings (κ : Type) where
  frames : List (Frame κ)
  error? : Option Error := none

/-- The parts of an enclosing atom from some part on, and the error that ended a change to them. -/
structure Siblings (κ : Type) where
  parts : List (Atom κ)
  error? : Option Error := none

/-- The surroundings are those of what a pointer refers to. -/
def Frame.isPointer (f : Frame κ) : Bool :=
  match f.content with
  | .pointer _ => true
  | _ => false

/-! ## Dependent fields -/

/-- The atom under another layout: loaded from the bytes it had when they fit, and new otherwise. -/
def rebuild (env : Env κ) (frames : List (Frame κ)) (a : Atom κ) (layout : Layout κ) :
    LedgerM κ (Outcome κ) := do
  let bytes := Place.serialize ⟨a, frames⟩ env.config.bitOrder
  let a := a.mapInfo fun info => { info with layout := .bytes layout }
  let out ← LedgerM.fromBytes bytes a.info.offset (load env Layout.nestingLimit frames a)
  match out.error? with
  | some _ => allocate env Layout.nestingLimit frames out.atom
  | none => return out

/-- Lays out a later field of a record: its layout if a rule decides it, then its extent. -/
def followField (env : Env κ) (frames : List (Frame κ)) (f : Frame κ) (field : Field κ (Layout κ))
    (a : Atom κ) : LedgerM κ (Outcome κ) := do
  let out ← match field.layout with
    | .given _ => pure ⟨a, none⟩
    | .computed rule =>
      match env.resolve ⟨f.plug a, frames⟩ f.left.length (.computed rule) with
      | .error e => pure ⟨a, some e⟩
      | .ok layout => rebuild env (f :: frames) a layout
  match out.error?, field.extent? with
  | some e, _ => return ⟨out.atom, some e⟩
  | none, none => return out
  | none, some rule =>
    match env.extent ⟨f.plug out.atom, frames⟩ f.left.length rule with
    | .error e => return ⟨out.atom, some e⟩
    | .ok extent => return ⟨out.atom.forceExtent env.config extent, none⟩

/-- Lays out a later field of a record of bits, if a rule decides its layout. It starts anew. -/
def followBitField (env : Env κ) (frames : List (Frame κ)) (f : Frame κ)
    (field : BitField κ (BitLayout κ)) (a : Atom κ) : LedgerM κ (Outcome κ) := do
  match field.layout with
  | .given _ => return ⟨a, none⟩
  | .computed rule =>
    match env.resolveBits ⟨f.plug a, frames⟩ f.left.length (.computed rule) with
    | .error e => return ⟨a, some e⟩
    | .ok layout =>
      allocateBits env Layout.nestingLimit (f :: frames)
        (a.mapInfo fun info => { info with layout := .bits layout })

/-- Lays out parts of a record, each with its field, after the parts `left`, the nearest first. -/
def followFields {φ : Type} (name : φ → String)
    (follow : Frame κ → φ → Atom κ → LedgerM κ (Outcome κ)) (info : Info κ) (content : Content)
    (left : List (Atom κ)) : List (Atom κ) → List φ → LedgerM κ (Siblings κ)
  | a :: right, field :: fields => do
    let out ← follow ⟨info, content, left, right⟩ field a
    match out.error? with
    | some e => return ⟨out.atom :: right, some (e.within [name field])⟩
    | none =>
      let later ← followFields name follow info content (out.atom :: left) right fields
      return { later with parts := out.atom :: later.parts }
  | right, _ => return ⟨right, none⟩

/-- Lays out the fields after the one in the gap, if this is a record. -/
def followGap (env : Env κ) (frames : List (Frame κ)) (f : Frame κ) (a : Atom κ) :
    LedgerM κ (Siblings κ) :=
  match f.content, f.info.layout with
  | .group, .bytes (.record _ fields) =>
    followFields Field.name (followField env frames) f.info .group (a :: f.left) f.right
      (fields.drop (f.left.length + 1))
  | .group, .bits (.record _ fields) =>
    followFields BitField.name (followBitField env frames) f.info .group (a :: f.left) f.right
      (fields.drop (f.left.length + 1))
  | _, _ => return ⟨f.right, none⟩

/-- Lays out the dependent fields of each enclosing record, the innermost first. -/
def followDependents (env : Env κ) (a : Atom κ) : List (Frame κ) → LedgerM κ (Surroundings κ)
  | [] => return ⟨[], none⟩
  | f :: frames => do
    if f.isPointer then return ⟨f :: frames, none⟩
    let siblings ← followGap env frames f a
    let f := { f with right := siblings.parts }
    match siblings.error? with
    | some e =>
      let cause := (e.within (Place.path ⟨f.plug a, frames⟩)).message
      return ⟨f :: frames, some (.initialization (.dependentField cause))⟩
    | none =>
      let outer ← followDependents env (f.plug a) frames
      return ⟨f :: outer.frames, outer.error?⟩

/-! ## Unions -/

/-- Shared bytes after a member wrote its own over them. -/
def overwrite (bytes backing : Bytes) : Bytes :=
  bytes.take backing.length ++ backing.drop bytes.length

/-- Loads the members of a union anew, but for the one at `kept`, after the members `left`, the
nearest first. -/
def reloadMembers (env : Env κ) (frames : List (Frame κ)) (info : Info κ) (backing : Bytes)
    (kept : Nat) (left : List (Atom κ)) : List (Atom κ) → LedgerM κ (Siblings κ)
  | [] => return ⟨[], none⟩
  | a :: right => do
    let out ←
      if left.length = kept then pure ⟨a, none⟩
      else
        LedgerM.fromBytes backing info.offset
          (load env Layout.nestingLimit (⟨info, .overlay backing, left, right⟩ :: frames) a)
    match out.error? with
    | some e => return ⟨out.atom :: right, some (e.within [a.info.name])⟩
    | none =>
      let later ← reloadMembers env frames info backing kept (out.atom :: left) right
      return { later with parts := out.atom :: later.parts }

/-- Writes a changed atom through to the unions around it, the innermost first, and loads their
other members from the bytes they share. -/
def syncUnions (env : Env κ) (a : Atom κ) : List (Frame κ) → LedgerM κ (Surroundings κ)
  | [] => return ⟨[], none⟩
  | f :: frames => do
    match f.content with
    | .pointer _ => return ⟨f :: frames, none⟩
    | .overlay backing =>
      let bytes := Place.serialize ⟨a, f :: frames⟩ env.config.bitOrder
      let backing := overwrite bytes backing
      let index := f.left.length
      let siblings ← reloadMembers env frames f.info backing index [] (f.plug a).parts
      let f : Frame κ :=
        ⟨f.info, .overlay backing, (siblings.parts.take index).reverse,
          siblings.parts.drop (index + 1)⟩
      match siblings.error? with
      | some e => return ⟨f :: frames, some e⟩
      | none =>
        let outer ← syncUnions env (f.plug a) frames
        return ⟨f :: outer.frames, outer.error?⟩
    | _ =>
      let outer ← syncUnions env (f.plug a) frames
      return ⟨f :: outer.frames, outer.error?⟩

/-! ## Dirt -/

def markDirty : List (Frame κ) → List (Frame κ)
  | [] => []
  | f :: frames =>
    if f.isPointer then f :: frames
    else { f with info := { f.info with dirty := true } } :: markDirty frames

end BinaryLayout
