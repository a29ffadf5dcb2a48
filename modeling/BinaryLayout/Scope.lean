import BinaryLayout.Atom.Reading

/-!
# Scopes and rules

A rule of a layout is asked in a scope: the container whose part it decides, and how many of the
container's members it may look at. The rule of a field is asked when only the fields before it are
there, and those are what its scope shows, later on too; a rule about a whole container sees all of
its members. Through the scope a rule may also look at the enclosing atoms.

`Rules` says what every rule means. Its functions are pure, so a rule's answer depends on nothing
but its scope.

## Main definitions

* `Scope`: a container and what of it may be seen.
* `Scope.field`, `Scope.uint`, `Scope.int`, `Scope.text`, `Scope.sizeOf`: the visible members.
* `Scope.parent?`, `Scope.root`, `Scope.ancestor?`: the enclosing scopes.
* `Rules`: the meaning of rules.
* `Env`: the configuration and the meaning of rules.
-/

namespace BinaryLayout

variable {κ : Type}

/-- What a rule may look at. -/
structure Scope (κ : Type) where
  container : Place κ
  /-- How many members may be seen; all of them when there is no number. -/
  visible? : Option Nat
  config : Config

namespace Scope

/-- The scope that shows all members of a container. -/
def full (config : Config) (container : Place κ) : Scope κ := ⟨container, none, config⟩

/-- The layout of the container has a field of this name. -/
def declares (layout : AtomLayout κ) (name : String) : Bool :=
  match layout with
  | .bytes (.record _ fields) => fields.any fun f => f.name == name
  | .bits (.record _ fields) => fields.any fun f => f.name == name
  | _ => false

def field (s : Scope κ) (name : String) : Except Error (Place κ) :=
  match Place.indexOf? s.container.atom name with
  | some i =>
    if s.visible?.all fun visible => decide (i < visible) then
      match s.container.member? i with
      | some m => .ok m
      | none => .error (.notFound name)
    else .error (.initialization (.fieldNotLoaded name))
  | none =>
    if declares s.container.atom.info.layout name then
      .error (.initialization (.fieldNotLoaded name))
    else .error (.notFound name)

def value (s : Scope κ) (name : String) : Except Error Value := (s.field name).bind Place.value

/-- A visible member as a number below `2 ^ 64` that is not negative. -/
def uint (s : Scope κ) (name : String) : Except Error Nat :=
  match (s.field name).bind Place.uint with
  | .error e => .error e
  | .ok n => if n < pow2 64 then .ok n else .error (.value (.wordRange name n))

/-- A visible member as a number that 64 bits of two's complement hold. -/
def int (s : Scope κ) (name : String) : Except Error Int :=
  match (s.field name).bind Place.int with
  | .error e => .error e
  | .ok n => if -pow2 63 ≤ n ∧ n < pow2 63 then .ok n else .error (.value (.wordRange name n))

def text (s : Scope κ) (name : String) : Except Error String := (s.field name).bind Place.text

/-- The bytes that a visible member takes. -/
def sizeOf (s : Scope κ) (name : String) : Except Error Nat :=
  (s.field name).map fun m => m.atom.size

def serialize (s : Scope κ) (name : String) : Except Error Bytes :=
  (s.field name).map fun m => m.serialize s.config.bitOrder

def offset (s : Scope κ) : Nat := s.container.atom.byteOffset

def parent? (s : Scope κ) : Option (Scope κ) := s.container.up?.map (full s.config)

/-- All of the nearest enclosing atom whose layout has the given name. -/
def ancestor? (s : Scope κ) (layoutName : String) : Option (Scope κ) :=
  (s.container.ancestorNamed? layoutName).map (full s.config)

/-- All of the outermost atom. -/
def root (s : Scope κ) : Scope κ := full s.config s.container.root

end Scope

/-- What the rules of layouts mean. -/
structure Rules (κ : Type) where
  /-- The layout of a field, from the fields before it. -/
  layout : κ → Scope κ → Except Error (Layout κ)
  /-- The layout of a field of bits, from the fields before it. -/
  bitLayout : κ → Scope κ → Except Error (BitLayout κ)
  /-- The bytes that a field takes, from the fields before it. -/
  extent : κ → Scope κ → Except Error Nat
  /-- The value that a field is updated to, from its whole record. -/
  update : κ → Scope κ → Except Error Value
  /-- An element ends its array, which has so many elements with it. -/
  accepts : κ → Config → Nat → Place κ → Bool
  /-- A pointer's number as a distance, or a distance as a number. -/
  distance : κ → Int → Int
  /-- The address that a pointer's number means, with the pointer as the container. -/
  toAddress : κ → Scope κ → Int → Except Error Nat
  /-- The number that means an address, with the pointer as the container. -/
  ofAddress : κ → Scope κ → Nat → Except Error Int

/-- What loading and editing go by. -/
structure Env (κ : Type) where
  config : Config
  rules : Rules κ

end BinaryLayout
