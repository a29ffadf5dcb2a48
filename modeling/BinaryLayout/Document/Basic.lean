import BinaryLayout.Load.Basic

/-!
# Documents

A document is a forest of atoms over a source. Its outermost atoms are independent of each other,
and each atom in it has a handle of its own. A handle that was given back leads to a blank atom
until it is handed out again. That blank atom can be given up once more, and then its handle is
handed out twice: the outermost atom that has it gives way to the one that gets it later.

## Main definitions

* `Document`: the outermost atoms, their handles and the open sources.
* `Document.find?`, `Document.put`: the place of a handle, and a changed place put back.
* `Document.locate`: the atom at a written path below a handle.
* `DocumentM`: computations on a document that may fail.
-/

namespace BinaryLayout

variable {κ : Type}

namespace Place

mutual

/-- The atom with a handle, at or below an atom inside the frames. -/
def withHandleIn (id : Nat) (frames : List (Frame κ)) : Atom κ → Option (Place κ)
  | .node info content parts =>
    if info.id = id then some ⟨.node info content parts, frames⟩
    else withHandleAmong id frames info content [] parts

/-- The atom with a handle, in one of the parts after the parts `left`, the nearest first. -/
def withHandleAmong (id : Nat) (frames : List (Frame κ)) (info : Info κ) (content : Content)
    (left : List (Atom κ)) : List (Atom κ) → Option (Place κ)
  | [] => none
  | a :: right =>
    match withHandleIn id (⟨info, content, left, right⟩ :: frames) a with
    | some p => some p
    | none => withHandleAmong id frames info content (a :: left) right

end

/-- The nearest atom of bytes: the atom itself, or the host around an atom of bits. -/
def byteOwnerIn (a : Atom κ) : List (Frame κ) → Place κ
  | [] => ⟨a, []⟩
  | f :: frames => if a.isBits then byteOwnerIn (f.plug a) frames else ⟨a, f :: frames⟩

def byteOwner (p : Place κ) : Place κ := byteOwnerIn p.atom p.frames

end Place

/-- A forest of atoms over a source. -/
structure Document (κ : Type) where
  env : Env κ
  /-- The open sources. -/
  sources : Sources
  /-- The source that atoms load from and are committed to. -/
  source : Nat
  ledger : Ledger κ := {}
  /-- The outermost atoms, the newest first. -/
  roots : List (Atom κ) := []

/-- Computations on a document that may fail. What was done before a failure stays done. -/
abbrev DocumentM (κ : Type) := ExceptT Error (StateM (Document κ))

namespace Document

def find? (d : Document κ) (id : Nat) : Option (Place κ) :=
  match d.roots.findSome? (Place.withHandleIn id []) with
  | some p => some p
  | none => (d.ledger.vacant.find? fun a => a.info.id = id).map fun a => ⟨a, []⟩

/-- Replaces atoms that have the handle of a changed one. -/
def replace (a : Atom κ) (atoms : List (Atom κ)) : List (Atom κ) :=
  atoms.map fun b => if b.info.id = a.info.id then a else b

/-- The document with a changed place put back. -/
def put (d : Document κ) (p : Place κ) : Document κ :=
  let root := p.root.atom
  if d.roots.any fun a => a.info.id = root.info.id then
    { d with
      roots := replace root (d.roots.filter fun b =>
        b.info.id = root.info.id || !Atom.anyHolds b.info.id root.parts) }
  else { d with ledger := { d.ledger with vacant := replace root d.ledger.vacant } }

/-- The document without an outermost atom, whose handles are given back. -/
def remove (d : Document κ) (a : Atom κ) : Document κ :=
  { d with
    roots := d.roots.filter fun b => b.info.id ≠ a.info.id
    ledger := d.ledger.release a }

/-- The document with one more outermost atom. -/
def add (d : Document κ) (a : Atom κ) : Document κ :=
  { d with roots := a :: d.roots.filter fun b => !a.holds b.info.id }

def atomCount (d : Document κ) : Nat := d.ledger.inUse

/-- The warnings so far, in the order in which they came. -/
def warnings (d : Document κ) : List Warning := d.ledger.warnings.reverse

/-- Gives the warnings so far and forgets them. -/
def takeWarnings (d : Document κ) : List Warning × Document κ :=
  (d.warnings, { d with ledger := { d.ledger with warnings := [] } })

/-- Where the atom with a handle stands. A handle that was never handed out leads nowhere. -/
def place (d : Document κ) (id : Nat) : Except Error (Place κ) :=
  match d.find? id with
  | some p => .ok p
  | none => .error (.notFound (toString id))

/-- The atom at a written path below the one with a handle. -/
def locate (d : Document κ) (id : Nat) (path : String) : Except Error (Place κ) :=
  (d.place id).bind fun p => p.lookup path

end Document

namespace DocumentM

def ofExcept {α : Type} : Except Error α → DocumentM κ α
  | .ok result => pure result
  | .error e => throw e

def place (id : Nat) : DocumentM κ (Place κ) := do ofExcept ((← get).place id)

def ofLedger {α : Type} (m : LedgerM κ α) : DocumentM κ α :=
  modifyGet fun d =>
    let (result, ledger) := m d.ledger
    (result, { d with ledger })

/-- A computation that loads from the source of the document. -/
def ofLoad {α : Type} (m : LoadM κ α) : DocumentM κ α :=
  modifyGet fun d =>
    let (result, state) := m ⟨d.ledger, d.sources, .source d.source⟩
    (result, { d with ledger := state.ledger, sources := state.sources })

/-- A computation on the open sources. Its error is that of the atom at `path`. -/
def ofSources {α : Type} (path : Path) (m : Sources → Except SourceError α × Sources) :
    DocumentM κ α := do
  let d ← get
  let (result, sources) := m d.sources
  set { d with sources }
  ofExcept (result.mapError fun e => (Error.ofSource e).within path)

end DocumentM

end BinaryLayout
