import BinaryLayout.Atom.Place

/-!
# Handles

Every atom of a document has a handle, a small number that stays with it while it lives. The ledger
hands handles out and takes them back, so that the next atom gets the handle given back last; only
when none is free does it count up. It also collects the warnings of loading.

What a handle that was given back stands for is a blank atom at its old offset, until the handle is
given to another atom.

## Main definitions

* `Ledger`: the handles given back, last first, and how many there are in all.
* `Ledger.take`, `Ledger.release`: handing out and taking back.
* `Ledger.inUse`: how many handles are in use.
-/

namespace BinaryLayout

variable {κ : Type}

/-- Handles and warnings of a document. -/
structure Ledger (κ : Type) where
  /-- How many handles were ever made. -/
  made : Nat := 0
  /-- What the handles that were given back stand for, last first. -/
  vacant : List (Atom κ) := []
  /-- The warnings, the newest first. -/
  warnings : List Warning := []

instance : Inhabited (Ledger κ) := ⟨{}⟩

namespace Ledger

def inUse (l : Ledger κ) : Nat := l.made - l.vacant.length

/-- A handle for a new atom. -/
def take (l : Ledger κ) : Nat × Ledger κ :=
  match l.vacant with
  | [] => (l.made, { l with made := l.made + 1 })
  | a :: vacant => (a.info.id, { l with vacant })

/-- What is left where an atom was. -/
def blankAfter (info : Info κ) : Atom κ := .blank info.id "" (.bytes (.block 0)) info.offset

mutual

/-- Takes back the handles of an atom and all below it: those of its parts in order, then its own.
-/
def release : Atom κ → Ledger κ → Ledger κ
  | .node info _ parts, l =>
    let l := releaseAll parts l
    { l with vacant := blankAfter info :: l.vacant }

/-- Takes back the handles of atoms, one after another. -/
def releaseAll : List (Atom κ) → Ledger κ → Ledger κ
  | [], l => l
  | a :: as, l => releaseAll as (release a l)

end

def warn (l : Ledger κ) (w : Warning) : Ledger κ := { l with warnings := w :: l.warnings }

mutual

@[simp] theorem made_release (l : Ledger κ) : ∀ a : Atom κ, (release a l).made = l.made
  | .node _ _ parts => by simp only [release, made_releaseAll l parts]

@[simp] theorem made_releaseAll (l : Ledger κ) : ∀ as : List (Atom κ),
    (releaseAll as l).made = l.made
  | [] => rfl
  | a :: as => by simp only [releaseAll, made_releaseAll _ as, made_release l a]

end

end Ledger

end BinaryLayout
