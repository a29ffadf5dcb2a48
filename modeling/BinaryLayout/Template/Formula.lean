import BinaryLayout.Scope

/-!
# Formulas

Formulas compute integers from what a scope shows. Their numbers are those of 128-bit two's
complement; a result outside of it is an error and never wraps.

## Main definitions

* `Formula`: the formulas.
* `Formula.eval`: the number of a formula in a scope.
* `Formula.evalWord`: the number, when 64 bits hold it.
-/

namespace BinaryLayout

/-- The kinds of errors that a template may report itself. -/
inductive FailureKind where
  | value
  | initialization
  | decode
  | notFound
  | schema
  deriving DecidableEq, Repr

/-- An error that a template reports itself. -/
structure Failure where
  kind : FailureKind
  text : String
  deriving DecidableEq, Repr

def Failure.error (f : Failure) : Error :=
  match f.kind with
  | .value => .value (.reason f.text)
  | .initialization => .initialization (.reason f.text)
  | .decode => .decode (.reason f.text)
  | .notFound => .notFound f.text
  | .schema => .schema (.reason f.text)

/-- What is measured of a visible member. -/
inductive Measure where
  /-- Its value, when it is not negative and 64 bits hold it. -/
  | uint
  /-- Its value, when 64 bits of two's complement hold it. -/
  | int
  /-- Its value, when it is an integer. -/
  | integer
  | size
  | textLength
  | memberCount
  | offset
  deriving DecidableEq, Repr

/-- What is known of a scope itself. -/
inductive ScopeMeasure where
  | offset
  | memberCount
  | padding
  | pointerWidth
  | maxElements
  deriving DecidableEq, Repr

/-- A way out of a scope. -/
inductive Outward where
  | parent
  | root
  /-- The nearest ancestor whose layout has this name. -/
  | ancestor (layoutName : String)
  deriving DecidableEq, Repr

/-- Operations on integers. Division goes toward zero. -/
inductive Operation where
  | add
  | sub
  | mul
  | div
  | rem
  | min
  | max
  deriving DecidableEq, Repr

/-- Integers computed from a scope. -/
inductive Formula where
  | number (n : Int)
  /-- The number that a pointer's rule is asked about; zero in every other rule. -/
  | subject
  | ofField (measure : Measure) (field : String)
  /-- The value at a written path below a visible member. -/
  | nested (field path : String)
  | ofScope (measure : ScopeMeasure)
  | outside (way : Outward) (inner : Formula)
  | combine (operation : Operation) (left right : Formula)
  | fail (failure : Failure)
  deriving Repr

variable {κ : Type}

def Outward.follow (s : Scope κ) : Outward → Option (Scope κ)
  | parent => s.parent?
  | root => some s.root
  | ancestor layoutName => s.ancestor? layoutName

/-- The number that a measure gives for a visible member. -/
def Measure.eval (s : Scope κ) (field : String) : Measure → Except Error Int
  | uint => (s.uint field).map Int.ofNat
  | int => s.int field
  | integer =>
    match s.value field with
    | .error e => .error e
    | .ok v =>
      match v.toInt? with
      | some n => .ok n
      | none => .error (.value .notInteger)
  | size => (s.sizeOf field).map Int.ofNat
  | textLength => (s.text field).map fun text => Int.ofNat text.utf8ByteSize
  | memberCount => (s.field field).map fun m => Int.ofNat m.atom.members.length
  | offset => (s.field field).map fun m => Int.ofNat m.atom.byteOffset

/-- The number that a measure gives for a scope itself. -/
def ScopeMeasure.eval (s : Scope κ) : ScopeMeasure → Int
  | offset => s.offset
  | memberCount => s.container.atom.members.length
  | padding => s.config.padding.toNat
  | pointerWidth => s.config.pointerWidth
  | maxElements => s.config.maxElements

/-- A number that 128 bits of two's complement hold. -/
def wide? (n : Int) : Option Int := if -pow2 127 ≤ n ∧ n < pow2 127 then some n else none

/-- The result of an operation. There is none for a division by zero and outside of 128 bits. -/
def Operation.apply (m n : Int) : Operation → Option Int
  | add => wide? (m + n)
  | sub => wide? (m - n)
  | mul => wide? (m * n)
  | div => if n = 0 then none else wide? (m.tdiv n)
  | rem => if n = 0 then none else (wide? (m.tdiv n)).map fun _ => m.tmod n
  | min => some (if m ≤ n then m else n)
  | max => some (if m ≤ n then n else m)

/-- The error of a scope that does not exist. -/
def noScope : Error := .notFound "scope"

namespace Formula

/-- The number of a formula in a scope. A formula that looks at no scope needs none. -/
def eval (subject : Int) : Option (Scope κ) → Formula → Except Error Int
  | _, number n => .ok n
  | _, .subject => .ok subject
  | none, ofField .. | none, nested .. | none, ofScope _ | none, outside .. => .error noScope
  | some s, ofField measure field => measure.eval s field
  | some s, nested field path =>
    match s.field field with
    | .error e => .error e
    | .ok m => ((m.lookup path).bind Place.uint).map fun n => Int.bmod n (pow2 128)
  | some s, ofScope measure => .ok (measure.eval s)
  | some s, outside way inner =>
    match way.follow s with
    | some outer => eval subject (some outer) inner
    | none => .error noScope
  | scope?, combine operation left right =>
    match eval subject scope? left with
    | .error e => .error e
    | .ok m =>
      match eval subject scope? right with
      | .error e => .error e
      | .ok n =>
        match operation.apply m n with
        | some result => .ok result
        | none => .error (.value .arithmeticOverflow)
  | _, fail failure => .error failure.error

/-- A number that is not negative and that 64 bits hold. -/
def toWord (n : Int) : Except Error Nat :=
  match n.toNat?.bind word? with
  | some word => .ok word
  | none => .error (.value (.notWord n))

/-- The number of a formula in a scope, when it is not negative and 64 bits hold it. -/
def evalWord (subject : Int) (scope? : Option (Scope κ)) (f : Formula) : Except Error Nat :=
  (f.eval subject scope?).bind toWord

end Formula

end BinaryLayout
