import BinaryLayout.Ledger
import BinaryLayout.Scope
import BinaryLayout.Source.Reader

/-!
# What loading and allocating share

Loading turns a blank atom into one with content. It may fail half way, and then the atom is left
with what was loaded so far; so the result is always an atom, with or without an error. An atom
being loaded does not change what surrounds it: the frames around it are only looked at.

## Main definitions

* `Outcome`: an atom and perhaps an error.
* `LedgerM`, `LoadM`: computations that take handles, and that also read from a view.
* `spanEnd`, `satAdd`: sums of offsets, checked and saturating.
* `Env.resolve`, `Env.resolveBits`, `Env.extent`: answers of rules.
* `LoadM.readAt`, `LoadM.inWindow`, `LedgerM.fromBytes`: reading, in a window, from detached bytes.
-/

namespace BinaryLayout

variable {κ : Type}

/-- An atom as far as it was loaded, allocated or changed, and the error that ended this. -/
structure Outcome (κ : Type) where
  atom : Atom κ
  error? : Option Error := none

/-! ## Sums of offsets -/

/-- The end of a span of bytes. One that leaves the address space runs out of bytes. -/
def spanEnd (offset amount : Nat) : Except Error Nat :=
  if offset + amount < pow2 64 then .ok (offset + amount) else .error (.consume offset amount 0)

/-- A sum of offsets, the last offset at most. -/
def satAdd (offset amount : Nat) : Nat := min (offset + amount) (pow2 64 - 1)

def bitPosition (offset : Nat) : Except Error Nat :=
  match word? (8 * offset) with
  | some position => .ok position
  | none => .error (.initialization (.noBitPosition offset))

/-- The bytes of `count` code units of `unit` bytes each. -/
def unitBytes (count unit : Nat) : Except Error Nat :=
  match word? (count * unit) with
  | some bytes => .ok bytes
  | none => .error (.initialization (.charactersOverflow count))

/-- The bytes that align an atom at `offset` inside an atom at `start`. -/
def alignPad (start offset alignment : Nat) : Nat :=
  (alignment - (offset - start) % alignment) % alignment

/-- The bytes of padding that an atom inside these frames needs. -/
def alignPadding (frames : List (Frame κ)) (offset alignment : Nat) : Nat :=
  match frames with
  | [] => alignPad 0 offset alignment
  | f :: _ => alignPad f.info.offset offset alignment

/-! ## Answers of rules -/

namespace Env

variable (env : Env κ)

/-- The layout of the field at `index` of a record. -/
def resolve (container : Place κ) (index : Nat) : Choice κ (Layout κ) → Except Error (Layout κ)
  | .given layout => .ok layout
  | .computed rule =>
    (env.rules.layout rule ⟨container, some index, env.config⟩).mapError Error.asInitialization

/-- The layout of the field at `index` of a record of bits. -/
def resolveBits (container : Place κ) (index : Nat) :
    Choice κ (BitLayout κ) → Except Error (BitLayout κ)
  | .given layout => .ok layout
  | .computed rule =>
    (env.rules.bitLayout rule ⟨container, some index, env.config⟩).mapError Error.asInitialization

/-- The bytes that the field at `index` of a record takes. -/
def extent (container : Place κ) (index : Nat) (rule : κ) : Except Error Nat :=
  (env.rules.extent rule ⟨container, some index, env.config⟩).mapError Error.asInitialization

end Env

/-! ## Handles and reading -/

/-- Computations that take and give back handles. -/
abbrev LedgerM (κ : Type) := StateM (Ledger κ)

namespace LedgerM

def spawn (name : String) (layout : AtomLayout κ) (offset : Nat) : LedgerM κ (Atom κ) :=
  modifyGet fun l =>
    let (id, l) := l.take
    (.blank id name layout offset, l)

/-- Takes back the handles of an atom and all below it. -/
def release (a : Atom κ) : LedgerM κ Unit := modify (Ledger.release a)

/-- Empties an atom, taking back the handles of its parts. -/
def clear (a : Atom κ) : LedgerM κ (Atom κ) := do
  modify (Ledger.releaseAll a.parts)
  return a.cleared

def warn (w : Warning) : LedgerM κ Unit := modify (·.warn w)

end LedgerM

/-- What loading changes: handles, sources, and the place in the view it reads from. -/
structure LoadState (κ : Type) where
  ledger : Ledger κ
  sources : Sources
  reader : Reader

abbrev LoadM (κ : Type) := StateM (LoadState κ)

/-- Loads from bytes that stood at `origin`. No source is touched. -/
def LedgerM.fromBytes {α : Type} (data : Bytes) (origin : Nat) (m : LoadM κ α) : LedgerM κ α :=
  modifyGet fun ledger =>
    let (result, state) := m ⟨ledger, [], .ofBytes data origin⟩
    (result, state.ledger)

namespace LoadM

def ofLedger {α : Type} (m : LedgerM κ α) : LoadM κ α :=
  modifyGet fun s =>
    let (result, ledger) := m s.ledger
    (result, { s with ledger })

instance : MonadLift (LedgerM κ) (LoadM κ) := ⟨ofLedger⟩

/-- Moves to an offset to read `amount` bytes there. Past the end there are none. -/
def seekTo (offset amount : Nat) : LoadM κ (Except Error Unit) :=
  modifyGet fun s =>
    let (result, reader, sources) := s.reader.seek s.sources offset
    let result := match result with
      | .ok _ => .ok ()
      | .error (.outOfBounds ..) => .error (.consume offset amount 0)
      | .error e => .error (.ofSource e)
    (result, { s with reader, sources })

/-- Reads `amount` bytes where the view stands. -/
def next (amount : Nat) : LoadM κ (Except SourceError Bytes) :=
  modifyGet fun s =>
    let (result, reader, sources) := s.reader.consume s.sources amount
    (result, { s with reader, sources })

/-- Reads `amount` bytes at an offset. Nothing is touched to read none. -/
def readAt (offset amount : Nat) : LoadM κ (Except Error Bytes) := do
  if amount = 0 then return .ok []
  match ← seekTo offset amount with
  | .error e => return .error e
  | .ok () => return (← next amount).mapError Error.ofSource

/-- The offset just past the view, when it is known. -/
def viewEnd : LoadM κ (Option Nat) := do
  let s ← get
  return s.reader.size? s.sources

/-- The view that a window narrows. -/
def innermost : Reader → Reader
  | .window inner _ _ => inner
  | reader => reader

/-- Loads through a window that ends at `limit`. -/
def inWindow {α : Type} (limit : Nat) (m : LoadM κ α) : LoadM κ α :=
  modifyGet fun s =>
    let (result, t) := m { s with reader := .window s.reader limit 0 }
    (result, { t with reader := innermost t.reader })

/-- Loads from bytes that stood at `origin`, and then goes on with the view as it was. -/
def fromBytes {α : Type} (data : Bytes) (origin : Nat) (m : LoadM κ α) : LoadM κ α :=
  ofLedger (LedgerM.fromBytes data origin m)

end LoadM

/-- How a part of an atom is loaded or allocated: inside the frames, from a blank atom. -/
abbrev LoadPart (m : Type → Type) (κ : Type) := List (Frame κ) → Atom κ → m (Outcome κ)

end BinaryLayout
