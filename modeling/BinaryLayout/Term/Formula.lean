import BinaryLayout.Template.Basic
import BinaryLayout.Term.Value

/-!
# Formulas, recipes and predicates as terms

A number stands for itself and the word `w` for the number that a rule is asked about; everything
else is a record whose first member of a known name tells what it is.

## Main definitions

* `Term.formula?`, `Term.recipe?`, `Term.predicate?`.
-/

namespace BinaryLayout.Term

/-- The names of the kinds of errors that a template reports itself. -/
def failureKinds : List (String × FailureKind) :=
  [("value", .value), ("init", .initialization), ("decode", .decode), ("not_found", .notFound),
    ("schema", .schema)]

/-- An error that a template reports itself. -/
def failure? (t : Term) : Option Failure := do
  return ⟨← (← t.get? "fail").among? failureKinds, ← (← t.get? "message").text?⟩

/-- The names of what is measured of a member. -/
def measures : List (String × Measure) :=
  [("uint", .uint), ("int", .int), ("value_int", .integer), ("size_of", .size),
    ("text_len", .textLength), ("len", .memberCount), ("offset_of", .offset)]

/-- The names of what is known of a scope. -/
def scopeMeasures : List (String × ScopeMeasure) :=
  [("offset", .offset), ("members", .memberCount), ("padding", .padding),
    ("pointer_width", .pointerWidth), ("max_elements", .maxElements)]

def operations : List (String × Operation) :=
  [("add", .add), ("sub", .sub), ("mul", .mul), ("div", .div), ("mod", .rem), ("min", .min),
    ("max", .max)]

/-- The way out of a scope that a record names, with what it leads to. -/
def outward? (t : Term) : Option (Outward × Term) :=
  match t.get? "parent", t.get? "root", t.get? "ancestor" with
  | some inner, _, _ => some (.parent, inner)
  | none, some inner, _ => some (.root, inner)
  | none, none, some name => do return (.ancestor (← name.text?), ← t.get? "do")
  | none, none, none => none

/-- A formula that is given by a record and has no formula inside. -/
def plainFormula? (t : Term) : Option Formula :=
  if t.has "fail" then t.failure?.map .fail
  else
    match t.choose? measures, t.get? "field", t.get? "scope" with
    | some (measure, name), _, _ => name.text?.map (.ofField measure)
    | none, some name, _ => do return .nested (← name.text?) (← (← t.get? "path").text?)
    | none, none, some measure => (measure.among? scopeMeasures).map .ofScope
    | none, none, none => none

/-- The formula that a term of at most so many levels stands for. -/
def formulaTo? : Nat → Term → Option Formula
  | 0, _ => none
  | _ + 1, word "w" => some .subject
  | _ + 1, number n => some (.number n)
  | _ + 1, word text => text.toInt?.map .number
  | depth + 1, t =>
    match t.plainFormula?, t.outward?, t.choose? operations with
    | some formula, _, _ => some formula
    | none, some (way, inner), _ => (formulaTo? depth inner).map (.outside way)
    | none, none, some (operation, operands) => do
      let (left, right) ← operands.pair?
      return .combine operation (← formulaTo? depth left) (← formulaTo? depth right)
    | none, none, none => none

def formula? (t : Term) : Option Formula := formulaTo? t.height t

def recipe? (t : Term) : Option Recipe :=
  if t.has "fail" then t.failure?.map .fail
  else
    match t with
    | record [("unsigned", n)] => n.formula?.map .unsigned
    | record [("signed", n)] => n.formula?.map .signed
    | record [("bytes_of", field)] => field.text?.map .bytesOf
    | record [("sum8", field)] => field.text?.map .checksum
    | record [("value_of", field)] => field.text?.map .valueOf
    | record [("text_of", field)] => field.text?.map .textOf
    | record [("const", v)] => v.value?.map .const
    | _ => none

def predicate? : Term → Option Predicate
  | record [("never", _)] => some .never
  | record [("always", _)] => some .always
  | record [("uint_eq", n)] => n.int?.map .uintIs
  | record [("int_lt", n)] => n.int?.map .intBelow
  | record [("text_eq", text)] => text.text?.map .textIs
  | record [("bytes_eq", bytes)] => bytes.bytes?.map .bytesAre
  | record [("field_eq", sequence [name, n])] => do return .fieldIs (← name.text?) (← n.int?)
  | record [("count_ge", n)] => n.int?.map .countReaches
  | _ => none

end BinaryLayout.Term
