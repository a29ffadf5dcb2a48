import BinaryLayout.Term.Basic
import BinaryLayout.Value

/-!
# Values as terms

A value is given as a record with one member, whose name tells the kind of the value. A
floating-point number is given by the hexadecimal digits of its pattern, so that none is rounded.

## Main definitions

* `Term.value?`: the value that a term stands for.
* `Value.toTerm`: the term of a value.
-/

namespace BinaryLayout

namespace Term

/-- A floating-point number, given by the digits of its pattern. -/
def double? (t : Term) : Option Double :=
  match t with
  | word "nan" => some .nan
  | _ => t.bytes?.map fun bytes => .ofPattern (ByteOrder.big.readNat bytes)

/-- A bitmap, given by value, width and sign. -/
def bitmap? (t : Term) : Option Bitmap := do
  return .ofNat (← (← t.get? "value").nat?) (← (← t.get? "width").nat?)
    (← (← t.get? "signed").flag?)

/-- The value of a member that names one of the simple kinds. -/
def simpleValue? : String → Term → Option Value
  | "u", t => t.nat?.map .unsigned
  | "i", t => t.int?.map .signed
  | "b", t => t.flag?.map .bool
  | "f", t => t.double?.map .float
  | "s", t => t.text?.map .text
  | "x", t => t.bytes?.map .bytes
  | "bits", t => t.bitmap?.map .bits
  | _, _ => none

mutual

def value? : Term → Option Value
  | record [("list", sequence items)] => (values? items).map .items
  | record [("struct", sequence items)] => (namedValues? items).map .fields
  | record [(kind, t)] => simpleValue? kind t
  | _ => none

def values? : List Term → Option (List Value)
  | [] => some []
  | t :: ts => do
    let v ← value? t
    return v :: (← values? ts)

def namedValues? : List Term → Option (List (String × Value))
  | [] => some []
  | sequence [word name, t] :: ts => do
    let v ← value? t
    return (name, v) :: (← namedValues? ts)
  | _ :: _ => none

end

end Term

/-- The digits of a floating-point number's pattern. All NaNs are written alike. -/
def Double.toTerm (x : Double) : Term := .word (if x.isNaN then "nan" else Hex.digits 16 x.pattern)

def decimalTerm (n : Int) : Term := .word (toString n)

/-- The value, width and sign of a bitmap. -/
def Bitmap.toTerm (b : Bitmap) : Term :=
  .record [("value", decimalTerm b.value), ("width", .number b.width), ("signed", .flag b.signed)]

namespace Value

mutual

def toTerm : Value → Term
  | unsigned n => .record [("u", decimalTerm n)]
  | signed n => .record [("i", decimalTerm n)]
  | bool b => .record [("b", .flag b)]
  | float x => .record [("f", x.toTerm)]
  | text s => .record [("s", .word s)]
  | bytes bs => .record [("x", .word (Hex.compact bs))]
  | bits b => .record [("bits", b.toTerm)]
  | items elements => .record [("list", .sequence (toTerms elements))]
  | fields members => .record [("struct", .sequence (toNamedTerms members))]

def toTerms : List Value → List Term
  | [] => []
  | v :: vs => toTerm v :: toTerms vs

def toNamedTerms : List (String × Value) → List Term
  | [] => []
  | (name, v) :: members => .sequence [.word name, toTerm v] :: toNamedTerms members

end

end Value

end BinaryLayout
