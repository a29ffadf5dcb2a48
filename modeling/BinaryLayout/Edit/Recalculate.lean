import BinaryLayout.Atom.Reading
import BinaryLayout.Edit.Pointer

/-!
# Updates

Recalculating runs the update rules of the records that were changed, each record after its parts,
and stores the numbers of followed pointers again. A field is only assigned when its value differs
from the one that its rule asks for.

## Main definitions

* `EditM.updateFields`: the update rules of a record.
* `EditM.recalculate`: the updates of an atom and everything below it.
-/

namespace BinaryLayout

variable {κ : Type}

namespace EditM

def holds (p : Place κ) (i : Nat) (wanted : Value) : Bool :=
  match (p.down? i).map Place.value with
  | some (.ok v) => v.equal wanted
  | _ => false

/-- Runs the update rules of a record's fields, from the one at `index` on. -/
def updateFields (env : Env κ) (index : Nat) : List (Field κ (Layout κ)) → EditM κ Unit
  | [] => pure ()
  | field :: fields => do
    let p ← place
    match field.update? with
    | none => pure ()
    | some rule =>
      if index < p.atom.members.length then
        let wanted := env.rules.update rule (Scope.full env.config p)
        within [field.name] do
          let wanted ← ofExcept (wanted.mapError Error.asInitialization)
          if !holds p index wanted then atPart index (setValue env wanted)
    updateFields env (index + 1) fields

/-- Runs an edit on the atom at the place and on its later siblings, `count` atoms at most, with
errors seen from the atom around them. The place becomes that of the last one. -/
def alongSiblings (m : EditM κ Unit) : Nat → EditM κ Unit
  | 0 => pure ()
  | count + 1 => do
    within [(← place).ownSegment] m
    match (← place).next? with
    | none => pure ()
    | some p =>
      modify fun s => { s with place := p }
      alongSiblings m count

/-- Runs an edit on each part in order, with errors seen from this atom. -/
def eachPart (m : EditM κ Unit) : EditM κ Unit := do
  let count := (← atom).parts.length
  atPart 0 (alongSiblings m count)

/-- Recalculates an atom and what is below it, at most `depth` levels deep. -/
def recalculateTo (env : Env κ) : Nat → EditM κ Unit
  | 0 => throw (.initialization (.nestingLimit Layout.nestingLimit))
  | depth + 1 => do
    eachPart (recalculateTo env depth)
    let a ← atom
    match a.info.dirty, a.info.layout with
    | true, .bytes (.record _ fields) => updateFields env 0 fields
    | _, _ => pure ()
    refreshWire env
    setAtom ((← atom).mapInfo fun info => { info with dirty := false })

/-- Recalculates an atom and everything below it. An update may deepen what stands after its field,
so the levels below may become more while it runs. -/
def recalculate (env : Env κ) : EditM κ Unit := do
  recalculateTo env ((← atom).height + Layout.nestingLimit)

end EditM

end BinaryLayout
