import BinaryLayout.Document.Basic
import BinaryLayout.Edit.Recalculate

/-!
# Operations on documents

An outermost atom is created without content and then loaded or allocated. Any atom can be loaded or
allocated again, assigned, followed if it is a pointer, moved, and written to the source; and a new
outermost atom can be made from the bytes of another. Every error names its atom by a complete path.

## Main definitions

* `create`, `loadNew`, `allocateNew`, `discard`: outermost atoms.
* `loadAtom`, `allocateAtom`, `assign`, `assignAt`, `recalculate`: content.
* `dereference`, `reference`, `referenceAtom`: pointers.
* `relocate`, `commit`, `cast`, `copy`.
-/

namespace BinaryLayout

namespace Document

variable {κ : Type}

/-! ## Content -/

def edit (id : Nat) (m : EditM κ Unit) : DocumentM κ Unit := do
  let p ← DocumentM.place id
  let (result, s) := (m ⟨(← get).ledger, p⟩ : Except Error Unit × Workplace κ)
  modify fun d => { d with ledger := s.ledger }.put s.place
  DocumentM.ofExcept (result.mapError (Error.within p.path))

/-- Loads the atom with a handle from the source. What surrounds it moves with its size. -/
def loadAtom (id : Nat) : DocumentM κ Unit := do
  let p ← DocumentM.place id
  if p.atom.info.null then throw (.located p.path .nullDereference)
  let out ← DocumentM.ofLoad (load (← get).env Layout.nestingLimit p.frames p.atom)
  match out.error? with
  | some e =>
    modify fun d => d.put ⟨out.atom, p.frames⟩
    throw (e.within p.path)
  | none => modify fun d => d.put (Place.reflow ⟨out.atom, p.frames⟩)

/-- Gives the atom with a handle its default content. What surrounds it moves with its size. -/
def allocateAtom (id : Nat) : DocumentM κ Unit := do
  let env := (← get).env
  edit id do
    EditM.remake (allocate env Layout.nestingLimit)
    modify fun s => { s with place := s.place.reflow }

/-- Assigns a value to the atom with a handle. -/
def assign (id : Nat) (v : Value) : DocumentM κ Unit := do
  edit id (EditM.setValue (← get).env v)

/-- Assigns a value to the atom at a written path below the one with a handle. -/
def assignAt (id : Nat) (path : String) (v : Value) : DocumentM κ Unit := do
  let target ← DocumentM.ofExcept ((← get).locate id path)
  assign target.atom.info.id v

/-- Runs the updates of the atom with a handle and of everything below it. -/
def recalculate (id : Nat) : DocumentM κ Unit := do
  edit id (EditM.recalculate (← get).env)

/-! ## Outermost atoms -/

/-- Makes an outermost atom without content, and gives its handle. -/
def create (layout : Layout κ) (name : String) (offset : Nat) : DocumentM κ Nat := do
  let a ← DocumentM.ofLedger (LedgerM.spawn name (.bytes layout) offset)
  modify fun d => d.add a
  return a.info.id

/-- Makes an outermost atom and runs `m` on its handle. If that fails there is no new atom. -/
def createWith (layout : Layout κ) (name : String) (offset : Nat) (m : Nat → DocumentM κ Unit) :
    DocumentM κ Nat := do
  let id ← create layout name offset
  try
    m id
  catch e =>
    let p ← DocumentM.place id
    modify fun d => d.remove p.atom
    throw e
  return id

def loadNew (layout : Layout κ) (name : String) (offset : Nat) : DocumentM κ Nat :=
  createWith layout name offset loadAtom

/-- Makes an outermost atom with its default content. -/
def allocateNew (layout : Layout κ) (name : String) : DocumentM κ Nat :=
  createWith layout name 0 allocateAtom

/-- Gives up an outermost atom and everything below it. -/
def discard (id : Nat) : DocumentM κ Unit := do
  let p ← DocumentM.place id
  if !p.frames.isEmpty then throw (.located p.path (.value .notOutermost))
  modify fun d => d.remove p.atom

/-! ## Pointers -/

/-- Follows the pointer with a handle, and gives the handle of what it refers to. -/
def dereference (id : Nat) : DocumentM κ Nat := do
  let p ← DocumentM.place id
  match ← DocumentM.ofLoad (followPointer (← get).env p) with
  | .error e => throw (e.within p.path)
  | .ok followed =>
    modify fun d => d.put followed
    return (followed.atom.referent?.map fun a => a.info.id).getD id

/-- Points the pointer with a handle at an address. -/
def reference (id address : Nat) : DocumentM κ Unit := do
  edit id (EditM.reference (← get).env address)

/-- Points the pointer with a handle at another atom. -/
def referenceAtom (id target : Nat) : DocumentM κ Unit := do
  reference id (← DocumentM.place target).atom.byteOffset

/-! ## Places and bytes -/

/-- Moves the atom with a handle, and all that it contains, to an offset. -/
def relocate (id offset : Nat) : DocumentM κ Unit := do
  let p ← DocumentM.place id
  modify fun d => d.put ⟨p.atom.relocate offset, p.frames⟩

/-- Writes the atom with a handle to the source at its offset, after its updates. An atom of bits is
written with its host. -/
def commit (id : Nat) : DocumentM κ Unit := do
  let owner := (← DocumentM.place id).byteOwner.atom.info.id
  recalculate owner
  let p ← DocumentM.place owner
  let d ← get
  let bytes := p.serialize d.env.config.bitOrder
  let offset := p.atom.info.offset
  let _ ← DocumentM.ofSources p.path fun sources => sources.seek d.source offset
  let written ← DocumentM.ofSources p.path fun sources => sources.store d.source bytes
  if written < bytes.length then
    throw (Error.within p.path (.ofSource (.store offset bytes.length written)))

/-- Makes an outermost atom from the bytes of another, under a layout. -/
def cast (id : Nat) (layout : Layout κ) : DocumentM κ Nat := do
  let p ← DocumentM.place id
  let env := (← get).env
  let bytes := p.serialize env.config.bitOrder
  let offset := p.atom.byteOffset
  let blank ← DocumentM.ofLedger (LedgerM.spawn p.atom.info.name (.bytes layout) offset)
  let out ← DocumentM.ofLedger
    (LedgerM.fromBytes bytes offset (load env Layout.nestingLimit [] blank))
  match out.error? with
  | some e =>
    DocumentM.ofLedger (LedgerM.release out.atom)
    throw (e.within [p.atom.info.name])
  | none =>
    modify fun d => d.add out.atom
    return out.atom.info.id

/-- Makes an outermost atom with the layout and the bytes of another. What its pointers refer to is
not copied. -/
def copy (id : Nat) : DocumentM κ Nat := do
  let p ← DocumentM.place id
  match p.atom.info.layout with
  | .bytes layout => cast id layout
  | .bits _ => throw (.located p.path (.value .bitAtomCopied))

end Document

end BinaryLayout
