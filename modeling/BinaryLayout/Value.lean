import BinaryLayout.Bitmap.Basic
import BinaryLayout.Codec.Encoding
import BinaryLayout.FloatingPoint.Decimal

/-!
# Values

What atoms hold and are given: numbers, texts, bytes, bits, and ordered collections of these. Each
reading of a value is partial, and none of them rounds an integer or drops a sign.

## Main definitions

* `Value`: the values.
* `Value.toNat?`, `Value.toInt?`: readings as 128-bit integers.
* `Value.toDouble?`, `Value.text?`, `Value.bytes?`, `Value.fields?`, `Value.items?`: other readings.
* `Value.equal`: equality, with numbers compared as numbers.
-/

namespace BinaryLayout

/-- The value of an atom. A record or a union gives fields in order; names may repeat. -/
inductive Value where
  | unsigned (n : Nat)
  | signed (n : Int)
  | bool (b : Bool)
  | float (x : Double)
  | text (s : String)
  | bytes (bs : Bytes)
  | bits (b : Bitmap)
  | fields (members : List (String × Value))
  | items (elements : List Value)
  deriving Inhabited

namespace Value

def kind : Value → String
  | unsigned _ => "unsigned"
  | signed _ => "signed"
  | bool _ => "bool"
  | float _ => "float"
  | text _ => "text"
  | bytes _ => "bytes"
  | bits _ => "bits"
  | fields _ => "struct"
  | items _ => "list"

/-- A number that is not negative. Bits are read without their sign. -/
def toNat? : Value → Option Nat
  | unsigned n => some n
  | signed n => n.toNat?
  | bool b => some b.toNat
  | bits b => b.toNat? 128
  | _ => none

/-- A number that 128 bits of two's complement hold. -/
def toInt? : Value → Option Int
  | signed n => some n
  | unsigned n => if n < pow2 127 then some n else none
  | bool b => some b.toNat
  | bits b => b.toInt128?
  | _ => none

/-- A number below `2 ^ 64` that is not negative. -/
def toWord? (v : Value) : Option Nat := v.toNat?.filter fun n => decide (n < pow2 64)

/-- A number that 64 bits of two's complement hold. -/
def toInt64? (v : Value) : Option Int :=
  v.toInt?.filter fun n => decide (-pow2 63 ≤ n ∧ n < pow2 63)

/-- A number in double precision, rounded to nearest. -/
def toDouble? : Value → Option Double
  | float x => some x
  | unsigned n => some (Double.ofInt n)
  | signed n => some (Double.ofInt n)
  | _ => none

def text? : Value → Option String
  | text s => some s
  | _ => none

/-- A byte string, or the UTF-8 bytes of a text. -/
def bytes? : Value → Option Bytes
  | bytes bs => some bs
  | text s => some (textBytes s)
  | _ => none

def fields? : Value → Option (List (String × Value))
  | fields members => some members
  | _ => none

def items? : Value → Option (List Value)
  | items elements => some elements
  | _ => none

/-- The first field of a name. -/
def get? (v : Value) (name : String) : Option Value :=
  (v.fields?.bind fun members => members.find? fun m => m.1 == name).map Prod.snd

mutual

/-- Equality of values. Numbers of different kinds differ, and a NaN differs from itself. -/
def equal : Value → Value → Bool
  | unsigned m, unsigned n => m == n
  | signed m, signed n => m == n
  | bool a, bool b => a == b
  | float x, float y => x.equal y
  | text s, text t => s == t
  | bytes a, bytes b => a == b
  | bits a, bits b => decide (a = b)
  | fields a, fields b => equalFields a b
  | items a, items b => equalItems a b
  | _, _ => false

/-- Equality of fields, name by name and value by value. -/
def equalFields : List (String × Value) → List (String × Value) → Bool
  | [], [] => true
  | (m, v) :: a, (n, w) :: b => m == n && equal v w && equalFields a b
  | _, _ => false

def equalItems : List Value → List Value → Bool
  | [], [] => true
  | v :: a, w :: b => equal v w && equalItems a b
  | _, _ => false

end

end Value

end BinaryLayout
