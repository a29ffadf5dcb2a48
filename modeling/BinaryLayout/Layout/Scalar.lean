import BinaryLayout.Codec.Varint
import BinaryLayout.Layout.Name
import BinaryLayout.Layout.Size
import BinaryLayout.Value

/-!
# Scalars as bytes

How the value of a layout without parts is written as bytes and read from them. A value of the wrong
kind, or out of the layout's range, is refused. Raw bytes may be given for any number of the right
size and for any text.

## Main definitions

* `IntFormat.encode`: an integer value as bytes.
* `TextFormat.body`, `TextFormat.encode`: a text without and with what marks its end.
* `Layout.encode`: any scalar value as bytes.
* `Layout.decode`: the value that bytes stand for.
* `encodeBits`, `Bitmap.toValue`: an integer of bits, written and read.
-/

namespace BinaryLayout

variable {κ : Type}

/-- The error of a value of the wrong kind. -/
def mismatch (expected : String) (v : Value) : Error := .value (.mismatch expected v.kind)

namespace IntFormat

def encode (t : IntFormat) (v : Value) : Except Error Bytes :=
  match v with
  | .signed n => t.write n
  | _ =>
    match v.toNat? with
    | none => .error (mismatch "an integer" v)
    | some n =>
      if t.signed ∧ pow2 127 ≤ n then .error (.value (.outOfRange (toString n))) else t.write n

/-- The value of an integer in this format. -/
def toValue (t : IntFormat) (bytes : Bytes) : Value :=
  if t.signed then .signed (t.read bytes) else .unsigned (t.read bytes % pow2 128).toNat

end IntFormat

namespace TextFormat

/-- The bytes of the text itself, without a terminator or a count. -/
def body (t : TextFormat) (raw : Bytes) : Bytes :=
  match t.length with
  | .counted _ => raw
  | .terminated => raw.take (raw.length - t.encoding.unit)
  | .prefixed format => raw.drop format.width

def decode (t : TextFormat) (raw : Bytes) : Except Error String := t.encoding.decode (t.body raw)

def encode (t : TextFormat) (text : String) : Except Error Bytes :=
  match t.encoding.encode text with
  | .error e => .error e
  | .ok body =>
    let unit := t.encoding.unit
    match t.length with
    | .counted count =>
      match word? (count * unit) with
      | none => .error (.value (.charactersOverflow count))
      | some capacity =>
        if capacity < body.length then .error (.value (.textTooLong (body.length / unit) count))
        else .ok (body ++ List.replicate (capacity - body.length) 0)
    | .terminated => .ok (body ++ List.replicate unit 0)
    | .prefixed format =>
      match Codec.writeNat format.order format.width (body.length / unit) with
      | .ok count => .ok (count ++ body)
      | .error e => .error e

end TextFormat

/-- The bytes of a floating-point number, rounded to its precision. -/
def Precision.encode (precision : Precision) (order : ByteOrder) (x : Double) : Bytes :=
  match precision with
  | .half => order.writeNat 2 x.toHalf
  | .single => order.writeNat 4 x.toSingle
  | .double => order.writeNat 8 x.pattern

/-- The number that bytes of this precision hold. -/
def Precision.decode (precision : Precision) (order : ByteOrder) (bytes : Bytes) : Double :=
  match precision with
  | .half => Double.ofHalf (order.readNat bytes)
  | .single => Double.ofSingle (order.readNat bytes)
  | .double => Double.ofPattern (order.readNat bytes)

/-- The bytes of a fixed-point number, rounded to the nearest unit. -/
def encodeFixed (base : IntFormat) (fraction : Nat) (x : Double) : Except Error Bytes :=
  match x.fixedPoint fraction with
  | some n => base.write n
  | none => .error (.value (.outOfRange x.text))

/-- The bytes of a number of seven-bit groups. -/
def encodeVarint (signed : Bool) (v : Value) : Except Error Bytes :=
  if signed then
    match v.toInt? with
    | some n => .ok (Varint.writeInt n)
    | none => .error (mismatch "an integer" v)
  else
    match v.toNat? with
    | some n => .ok (Varint.writeNat n)
    | none => .error (mismatch "an unsigned integer" v)

/-- The value of a number of seven-bit groups. -/
def decodeVarint (signed : Bool) (raw : Bytes) : Except Error Value :=
  if signed then (Varint.readInt raw).map .signed else (Varint.readNat raw).map .unsigned

namespace Layout

/-- Raw bytes given for a number; those of a layout of known size must have that size. -/
def encodeRaw (layout : Layout κ) (bytes : Bytes) : Except Error Bytes :=
  match layout.staticSize with
  | some width =>
    if bytes.length = width then .ok bytes else .error (.value (.byteCount width bytes.length))
  | none => .ok bytes

/-- The bytes of a scalar value. Layouts with parts have none. -/
def encode (layout : Layout κ) (v : Value) : Except Error Bytes :=
  match layout, v with
  | .int _, .bytes bytes | .float .., .bytes bytes | .fixed .., .bytes bytes
  | .varint _, .bytes bytes => layout.encodeRaw bytes
  | .int format, _ => format.encode v
  | .float precision order, _ =>
    match v.toDouble? with
    | some x => .ok (precision.encode order x)
    | none => .error (mismatch "a number" v)
  | .fixed base fraction, _ =>
    match v.toDouble? with
    | some x => encodeFixed base fraction x
    | none => .error (mismatch "a number" v)
  | .varint signed, _ => encodeVarint signed v
  | .text _, .bytes bytes => .ok bytes
  | .text format, _ =>
    match v.text? with
    | some given => format.encode given
    | none => .error (mismatch "text" v)
  | .pointer wire _ _, _ => wire.encode v
  | _, _ =>
    match v.bytes? with
    | some bytes => .ok bytes
    | none => .error (mismatch "bytes" v)

/-- The number that the bytes of a floating-point or fixed-point layout hold. -/
def decodeDouble? (layout : Layout κ) (raw : Bytes) : Option Double :=
  match layout with
  | .float precision order => some (precision.decode order raw)
  | .fixed base fraction => some (Double.ofFixedPoint (base.read raw) fraction)
  | _ => none

/-- The value that the bytes of a scalar stand for. -/
def decode (layout : Layout κ) (raw : Bytes) : Except Error Value :=
  match layout with
  | .int format => .ok (format.toValue raw)
  | .float precision order => .ok (.float (precision.decode order raw))
  | .fixed base fraction => .ok (.float (Double.ofFixedPoint (base.read raw) fraction))
  | .varint signed => decodeVarint signed raw
  | .text format => (format.decode raw).map .text
  | _ => .ok (.bytes raw)

end Layout

/-! ## Integers of bits -/

/-- An integer fits into so many bits. From 127 bits on every integer that can be given fits, but
for a negative one into an unsigned field. -/
def fitsBits (value : Int) (bits : Nat) (signed : Bool) : Bool :=
  if 127 ≤ bits then signed || decide (0 ≤ value)
  else if signed then
    decide (-pow2 (max bits 1 - 1) ≤ value ∧ value < pow2 (max bits 1 - 1))
  else decide (0 ≤ value ∧ value < pow2 bits)

/-- An integer that does not fit is refused. -/
def checkBits (n : Int) (bits : Nat) (signed : Bool) : Except Error Unit :=
  if fitsBits n bits signed then .ok () else .error (.value (.bitRange n bits))

/-- A number of bits as 32 bits of two's complement hold it. From `2 ^ 31` bits on it is negative. -/
def castWidth (bits : Nat) : Int := Int.bmod bits (pow2 32)

/-- The length of bits: their number in 32 bits of two's complement, or its opposite in as many when they
are signed. -/
def bitsLength (bits : Nat) (signed : Bool) : Int :=
  if signed then Int.bmod (-castWidth bits) (pow2 32) else castWidth bits

/-- Below `2 ^ 31` bits the cast changes nothing. -/
theorem bitsLength_of_lt {bits : Nat} (h : bits < pow2 31) (signed : Bool) :
    bitsLength bits signed = if signed then -(bits : Int) else bits := by
  have hhalf : pow2 32 = 2 * pow2 31 := pow2_succ 31
  have hcast : castWidth bits = bits := by
    rw [castWidth]
    exact Int.bmod_eq_of_le (by omega) (by omega)
  rw [bitsLength, hcast]
  cases signed with
  | true => exact Int.bmod_eq_of_le (by omega) (by omega)
  | false => rfl

/-- The bits of an integer value. Bits given as such must have the right width. A signed number for signed
bits gets that width, and any other number the sign and the size of the length. -/
def encodeBits (bits : Nat) (signed : Bool) (v : Value) : Except Error Bitmap :=
  match v, signed with
  | .bits b, _ =>
    if b.width = bits then .ok (b.withSign signed) else .error (.value (.bitCount bits b.width))
  | .signed n, true => (checkBits n bits true).map fun _ => Bitmap.ofInt n bits true
  | _, _ =>
    match v.toInt? with
    | some n => (checkBits n bits signed).map fun _ => Bitmap.withLength n (bitsLength bits signed)
    | none => .error (mismatch "an integer" v)

/-- The value of bits: a number when 128 bits hold it, and the bits themselves otherwise. -/
def Bitmap.toValue (b : Bitmap) : Value :=
  if b.signed then
    match b.toInt128? with
    | some n => .signed n
    | none => .bits b
  else
    match b.toNat? 128 with
    | some n => .unsigned n
    | none => .bits b

end BinaryLayout
