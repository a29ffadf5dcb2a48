import BinaryLayout.Edit.Address
import BinaryLayout.Edit.Assign

/-!
# Following and setting pointers

A pointer is followed when it is first asked for what it refers to, and keeps that as its part. A
zero refers to nothing: the referent is then an atom that is never loaded. A pointer can also be
pointed at an address, if its policy allows that.

## Main definitions

* `pointerAt`: the pointer layout at a place.
* `followPointer`: what a pointer refers to.
* `EditM.reference`: points a pointer at an address.
* `EditM.refreshWire`: a followed pointer's number after its referent moved.
-/

namespace BinaryLayout

variable {κ : Type}

/-- The layout of a pointer: how its number is stored, what it refers to and its policy. -/
structure PointerLayout (κ : Type) where
  wire : IntFormat
  target : Layout κ
  policy : AddressPolicy κ

/-- The layout of a pointer atom. Other atoms are refused. -/
def pointerAt (a : Atom κ) : Except Error (PointerLayout κ) :=
  match a.info.layout with
  | .bytes (.pointer wire target policy) => .ok ⟨wire, target, policy⟩
  | layout => .error (.value (.notPointer layout.name))

/-- The stored number of a loaded pointer. -/
def wireOf (pointer : PointerLayout κ) (a : Atom κ) : Except Error Int :=
  match a.content with
  | .pointer raw => .ok (pointer.wire.read raw)
  | _ => .error (.initialization .pointerNotLoaded)

/-- What a pointer that was not followed yet refers to, as a new atom. None for a pointer that means
no address. A referent that does not load is given up. -/
def loadReferent (env : Env κ) (p : Place κ) : LoadM κ (Except Error (Atom κ)) := do
  let found := do
    let pointer ← pointerAt p.atom
    let wire ← wireOf pointer p.atom
    if wire = 0 then return (pointer, none)
    else return (pointer, some (← env.address pointer.policy p wire))
  match found with
  | .error e => return .error e
  | .ok (pointer, none) =>
    let a ← LoadM.ofLedger (LedgerM.spawn "*" (.bytes pointer.target) 0)
    return .ok (a.mapInfo fun info => { info with null := true })
  | .ok (pointer, some address) =>
    let blank ← LoadM.ofLedger (LedgerM.spawn "*" (.bytes pointer.target) address)
    let out ← load env Layout.nestingLimit (p.atom.frame :: p.frames) blank
    match out.error? with
    | none => return .ok out.atom
    | some e =>
      LoadM.ofLedger (LedgerM.release out.atom)
      return .error (e.within ["*"])

/-- Follows the pointer at a place, if that was not done yet, and gives the place of the pointer
with its referent. -/
def followPointer (env : Env κ) (p : Place κ) : LoadM κ (Except Error (Place κ)) := do
  match pointerAt p.atom, p.atom.referent? with
  | .error e, _ => return .error e
  | .ok _, some _ => return .ok p
  | .ok _, none =>
    match ← loadReferent env p with
    | .error e => return .error e
    | .ok referent => return .ok ⟨p.atom.push referent, p.frames⟩

namespace EditM

/-- Points the pointer at an address. What it referred to is given up. -/
def reference (env : Env κ) (address : Nat) : EditM κ Unit := do
  let p ← place
  let pointer ← ofExcept (pointerAt p.atom)
  let wire ← ofExcept (env.wireFor pointer.policy p address)
  let raw ← ofExcept (pointer.wire.encode (.signed wire))
  ofLedger (modify (Ledger.releaseAll p.atom.parts))
  setAtom (p.atom.fill (.pointer raw) [])
  finish env

/-- The bytes of a followed pointer that mean where its referent stands now. None for a null pointer
and for a policy without an inverse. -/
def refreshedWire (env : Env κ) (p : Place κ) : Except Error (Option Bytes) := do
  match p.atom.referent? with
  | none => return none
  | some referent =>
    let pointer ← pointerAt p.atom
    if !pointer.policy.isInvertible || referent.info.null then return none
    let wire ← env.wireFor pointer.policy p referent.info.offset
    return some (← pointer.wire.encode (.signed wire))

/-- Stores the number again that means where the referent stands. -/
def refreshWire (env : Env κ) : EditM κ Unit := do
  let p ← place
  match ← ofExcept (refreshedWire env p) with
  | none => pure ()
  | some raw =>
    if p.atom.content ≠ .pointer raw then
      setAtom (p.atom.fill (.pointer raw) p.atom.parts)
      around (syncUnions env)
      modify fun s => { s with place := ⟨s.place.atom, markDirty s.place.frames⟩ }

end EditM

end BinaryLayout
