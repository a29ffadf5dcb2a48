import BinaryLayout.Bytes
import BinaryLayout.Bitmap.Basic

/-!
# Streams of bits

A byte string is also a stream of bits. In big-endian bit order each byte gives its most significant
bit first, and the first bit read into a field is the field's most significant one; in little-endian
order both start from the least significant bit. So a field is the same stretch of the stream in
both orders, read from opposite ends.

## Main definitions

* `Bitmap.stream`, `Bitmap.ofStream`: a field as a stretch of a stream.
* `BitStream.ofByte`: the eight bits of a byte.
* `BitStream.pack`: the bytes of a stream, the last one filled up with zeros.

## Main statements

* `BitStream.length_pack`: a packed stream has as many bytes as its bits need.
-/

namespace BinaryLayout

namespace Bitmap

/-- The bits of a field in the order in which a stream carries them. -/
def stream (order : ByteOrder) (b : Bitmap) : List Bool :=
  match order with
  | .big => b.bits.reverse
  | .little => b.bits

/-- The unsigned field that a stretch of a stream holds. -/
def ofStream (order : ByteOrder) (bits : List Bool) : Bitmap :=
  match order with
  | .big => ofBits bits.reverse false
  | .little => ofBits bits false

@[simp] theorem length_stream (order : ByteOrder) (b : Bitmap) :
    (b.stream order).length = b.width := by
  cases order <;> simp [stream]

@[simp] theorem width_ofStream (order : ByteOrder) (bits : List Bool) :
    (ofStream order bits).width = bits.length := by
  cases order <;> simp [ofStream]

end Bitmap

namespace BitStream

def ofByte (order : ByteOrder) (b : UInt8) : List Bool :=
  (Bitmap.ofNat b.toNat 8 false).stream order

/-- The byte of at most eight bits, with zeros for those that are missing. -/
def toByte (order : ByteOrder) (bits : List Bool) : UInt8 :=
  UInt8.ofNat (Bitmap.ofStream order (bits ++ List.replicate (8 - bits.length) false)).value

/-- The bytes of a stream. Zeros fill the last byte. -/
def pack (order : ByteOrder) : List Bool → Bytes
  | a :: b :: c :: d :: e :: f :: g :: h :: rest =>
    toByte order [a, b, c, d, e, f, g, h] :: pack order rest
  | [] => []
  | bits => [toByte order bits]

/-- The stream with `pad` after it when that fills its last byte, and unchanged otherwise. -/
def close (order : ByteOrder) (bits : List Bool) (pad : Bitmap) : List Bool :=
  if bits.length % 8 ≠ 0 ∧ pad.width = 8 - bits.length % 8 then bits ++ pad.stream order else bits

/-- A packed stream has as many bytes as its bits need. -/
theorem length_pack (order : ByteOrder) (bits : List Bool) :
    (pack order bits).length = (bits.length + 7) / 8 := by
  fun_induction pack order bits with
  | case1 a b c d e f g h rest ih => simp only [List.length_cons, ih]; omega
  | case2 => rfl
  | case3 bits hLong hEmpty =>
    match bits, hLong, hEmpty with
    | [], _, hEmpty => exact absurd rfl hEmpty
    | [_], _, _ | [_, _], _, _ | [_, _, _], _, _ | [_, _, _, _], _, _ | [_, _, _, _, _], _, _
    | [_, _, _, _, _, _], _, _ | [_, _, _, _, _, _, _], _, _ => simp
    | a :: b :: c :: d :: e :: f :: g :: h :: rest, hLong, _ =>
      exact (hLong a b c d e f g h rest rfl).elim

end BitStream

end BinaryLayout
