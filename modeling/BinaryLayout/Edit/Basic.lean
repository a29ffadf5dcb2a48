import BinaryLayout.Edit.Surroundings

/-!
# Edits

An edit works at a place: it changes the atom there, and then what surrounds it follows. It may
fail, and then what was changed so far stays changed.

## Main definitions

* `Workplace`, `EditM`: computations at a place that may fail.
* `EditM.atPart`, `EditM.within`: an edit of a part, and errors seen from further out.
* `EditM.afterChange`: lets the surroundings follow a change.
-/

namespace BinaryLayout

variable {κ : Type}

/-- A place that is being edited, with the handles of its document. -/
structure Workplace (κ : Type) where
  ledger : Ledger κ
  place : Place κ

/-- Computations at a place that may fail. -/
abbrev EditM (κ : Type) := ExceptT Error (StateM (Workplace κ))

namespace EditM

def place : EditM κ (Place κ) := return (← get).place

def atom : EditM κ (Atom κ) := return (← get).place.atom

def setAtom (a : Atom κ) : EditM κ Unit :=
  modify fun s => { s with place := ⟨a, s.place.frames⟩ }

def ofLedger {α : Type} (m : LedgerM κ α) : EditM κ α :=
  modifyGet fun s =>
    let (result, ledger) := m s.ledger
    (result, { s with ledger })

def ofExcept {α : Type} : Except Error α → EditM κ α
  | .ok result => pure result
  | .error e => throw e

/-- Fails if there is an error. -/
def check : Option Error → EditM κ Unit
  | some e => throw e
  | none => pure ()

/-- Loads or allocates the atom at the place. -/
def remake (part : LoadPart (LedgerM κ) κ) : EditM κ Unit := do
  let p ← place
  let out ← ofLedger (part p.frames p.atom)
  setAtom out.atom
  check out.error?

/-- Lets the surroundings follow. -/
def around (follow : Atom κ → List (Frame κ) → LedgerM κ (Surroundings κ)) : EditM κ Unit := do
  let p ← place
  let surroundings ← ofLedger (follow p.atom p.frames)
  modify fun s => { s with place := ⟨p.atom, surroundings.frames⟩ }
  check surroundings.error?

/-- Sees errors from further out. -/
def within {α : Type} (outer : Path) (m : EditM κ α) : EditM κ α :=
  ExceptT.adapt (Error.within outer) m

/-- Edits the part at `i`. The place stays the same. -/
def atPart (i : Nat) (m : EditM κ Unit) : EditM κ Unit := fun s =>
  match s.place.down? i with
  | none => (.ok (), s)
  | some p =>
    let (result, t) := m { s with place := p }
    (result, { t with place := t.place.up?.getD t.place })

/-- Lets everything around a changed atom follow: first the layouts of dependent fields, then the
offsets, then unions. -/
def afterChange (env : Env κ) : EditM κ Unit := do
  around (followDependents env)
  modify fun s => { s with place := s.place.reflow }
  around (syncUnions env)
  modify fun s => { s with place := ⟨s.place.atom, markDirty s.place.frames⟩ }

end EditM

end BinaryLayout
