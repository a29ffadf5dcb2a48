import BinaryLayout.Error

/-!
# Integers in bytes

Positional integers of a whole number of bytes, unsigned or in two's complement. Writing checks that
the value lies in the range of its width and refuses it otherwise.

## Main definitions

* `IntFormat`: width, signedness and byte order of a stored integer, one to sixteen bytes wide.
* `Codec.writeInt`, `Codec.writeNat`: range-checked writers.
* `Codec.readInt`: the signed reader. The unsigned one is `ByteOrder.readNat`.
-/

namespace BinaryLayout

namespace Codec

def InRange (signed : Bool) (width : Nat) (value : Int) : Prop :=
  if signed then -pow2 (8 * width - 1) ≤ value ∧ value < pow2 (8 * width - 1)
  else 0 ≤ value ∧ value < pow2 (8 * width)

instance (signed : Bool) (width : Nat) (value : Int) : Decidable (InRange signed width value) := by
  unfold InRange; infer_instance

/-- The `width` bytes of an integer modulo the range of the width. -/
def wrapInt (order : ByteOrder) (width : Nat) (value : Int) : Bytes :=
  order.writeNat width (value % pow2 (8 * width)).toNat

/-- The bytes of an integer that is in range. -/
def writeInt (order : ByteOrder) (width : Nat) (signed : Bool) (value : Int) :
    Except Error Bytes :=
  if InRange signed width value then .ok (wrapInt order width value)
  else .error (.value (.integerRange value signed width))

/-- The bytes of a non-negative integer that is in range. -/
def writeNat (order : ByteOrder) (width n : Nat) : Except Error Bytes :=
  writeInt order width false n

/-- The two's complement integer that bytes hold. -/
def readInt (order : ByteOrder) (bytes : Bytes) : Int :=
  signExtend (order.readNat bytes) (8 * bytes.length)

end Codec

/-- How an integer is stored: one to sixteen bytes, unsigned or in two's complement. -/
structure IntFormat where
  width : Nat
  signed : Bool
  order : ByteOrder
  width_mem : 1 ≤ width ∧ width ≤ 16 := by decide
  deriving DecidableEq

namespace IntFormat

/-- A format of the given width; widths outside one to sixteen are refused. -/
def make (width : Nat) (signed : Bool) (order : ByteOrder) : Except Error IntFormat :=
  if h : 1 ≤ width ∧ width ≤ 16 then .ok ⟨width, signed, order, h⟩
  else .error (.schema (.integerWidth width))

def u8 : IntFormat := { width := 1, signed := false, order := .little }

def i8 : IntFormat := { width := 1, signed := true, order := .little }

def u16 (order : ByteOrder) : IntFormat := { width := 2, signed := false, order }

def u32 (order : ByteOrder) : IntFormat := { width := 4, signed := false, order }

def u64 (order : ByteOrder) : IntFormat := { width := 8, signed := false, order }

def i16 (order : ByteOrder) : IntFormat := { width := 2, signed := true, order }

def i32 (order : ByteOrder) : IntFormat := { width := 4, signed := true, order }

def i64 (order : ByteOrder) : IntFormat := { width := 8, signed := true, order }

/-- The order's ending, which single bytes do without. -/
def suffix (t : IntFormat) : String := if t.width = 1 then "" else t.order.suffix

/-- The name of a format, such as `u16be`. -/
def name (t : IntFormat) : String :=
  (if t.signed then "i" else "u") ++ toString (8 * t.width) ++ t.suffix

/-- The integer that bytes of this format hold. Sixteen unsigned bytes are read as 128 bits of two's
complement, like every address. -/
def read (t : IntFormat) (bytes : Bytes) : Int :=
  if t.signed then Codec.readInt t.order bytes
  else Int.bmod (t.order.readNat bytes) (pow2 128)

/-- The bytes of an integer in this format, when it is in range. -/
def write (t : IntFormat) (value : Int) : Except Error Bytes :=
  Codec.writeInt t.order t.width t.signed value

end IntFormat

end BinaryLayout
