import BinaryLayout.Scope

/-!
# Addresses of pointers

A pointer's stored number means an address as its policy says. Where the policy allows it, the
number that means an address can be found as well.

Sums are those of 128-bit two's complement.

## Main definitions

* `Base.offset`: what a relative pointer counts from.
* `Env.address`: the address that a number means.
* `Env.wireFor`: the number that means an address.
-/

namespace BinaryLayout

variable {κ : Type}

/-- The offset that a relative pointer counts from. -/
def Base.offset (p : Place κ) : Base → Except Error Nat
  | root => .ok p.root.atom.info.offset
  | parent =>
    match p.up? with
    | some outer => .ok outer.atom.byteOffset
    | none => .error (.initialization .noParent)
  | ancestor name =>
    match p.ancestorNamed? name with
    | some outer => .ok outer.atom.byteOffset
    | none => .error (.notFound ("ancestor of type " ++ name))

/-- A sum as 128 bits of two's complement hold it. -/
def addWide (m n : Int) : Int := Int.bmod (m + n) (pow2 128)

def checkAddress (address : Int) : Except Error Nat :=
  match address.toNat?.bind word? with
  | some n => .ok n
  | none => .error (.initialization (.addressOutOfRange address))

namespace Env

variable (env : Env κ)

/-- The address that the number of the pointer at a place means. -/
def address (policy : AddressPolicy κ) (p : Place κ) (wire : Int) : Except Error Nat :=
  match policy with
  | .absolute => checkAddress wire
  | .relative base => (base.offset p).bind fun start => checkAddress (addWide start wire)
  | .selfRelative => checkAddress (addWide p.atom.info.offset wire)
  | .mapped toDistance _ =>
    checkAddress (addWide p.atom.info.offset (env.rules.distance toDistance wire))
  | .computed toAddress _ =>
    (env.rules.toAddress toAddress (Scope.full env.config p) wire).mapError Error.asInitialization

/-- The number by which the pointer at a place means an address. -/
def wireFor (policy : AddressPolicy κ) (p : Place κ) (address : Nat) : Except Error Int :=
  match policy with
  | .absolute => .ok address
  | .relative base => (base.offset p).map fun start => address - start
  | .selfRelative => .ok (address - p.atom.info.offset)
  | .mapped _ (some ofDistance) =>
    .ok (env.rules.distance ofDistance (address - p.atom.info.offset))
  | .computed _ (some ofAddress) =>
    (env.rules.ofAddress ofAddress (Scope.full env.config p) address).mapError
      Error.asInitialization
  | .mapped _ none | .computed _ none => .error (.value .noInverse)

end Env

end BinaryLayout
