import BinaryLayout.Bitmap.Slice
import BinaryLayout.Bytes

/-!
# Bits out of bytes and into bytes

In big-endian bit order a byte gives its most significant bit first, and the first bit read into a field
is the field's most significant one; in little-endian order both start from the least significant bit.

A reader of bits holds one byte and how many of its bits were not handed out. The bits that come next are
shifted down from where the order puts them, and each piece of a field goes below, or above, those before
it. A writer fills one byte after another, and cuts a field at the end that the order says.

## Main definitions

* `BitReader`: a byte whose bits are handed out.
* `BitReader.chunk`: the bits that come next.
* `BitReader.pad`: all bits that were not handed out.
* `ByteOrder.join`: a field and its next piece.
* `BitWriter`: bytes that are full, and one that is being filled.
* `BitWriter.write`: a field put after the bits that are there.
* `BitWriter.finish`: all bytes, the last one filled up.
-/

namespace BinaryLayout

/-! ## Out of bytes -/

/-- The low bits of a byte; that is all of it from eight bits on. -/
def lowOfByte (value bits : Nat) : Nat := if 8 ≤ bits then value else value &&& mask bits

/-- A piece put to the bits of its field that were read before it. -/
def ByteOrder.join (order : ByteOrder) (field piece : Bitmap) : Bitmap :=
  match order with
  | big => field.push piece
  | little => field.append piece

structure BitReader where
  order : ByteOrder
  /-- The byte that was fetched last. -/
  current : UInt8
  /-- How many of its bits were not handed out. -/
  remaining : Nat
  remaining_le : remaining ≤ 8

namespace BitReader

def new (order : ByteOrder) : BitReader := ⟨order, 0, 0, Nat.zero_le 8⟩

def refill (r : BitReader) (byte : UInt8) : BitReader := ⟨r.order, byte, 8, Nat.le_refl 8⟩

/-- The reader after so many bits were handed out. -/
def skip (r : BitReader) (count : Nat) : BitReader :=
  ⟨r.order, r.current, r.remaining - count, Nat.le_trans (Nat.sub_le _ _) r.remaining_le⟩

def chunk (r : BitReader) (count : Nat) : Bitmap :=
  let value := match r.order with
    | .big => lowOfByte (r.current.toNat >>> (r.remaining - count)) count
    | .little => lowOfByte (r.current.toNat >>> (8 - r.remaining)) count
  .ofNat value count false

/-- The bits of the byte that were not handed out. -/
def pad (r : BitReader) : Bitmap :=
  let value := match r.order with
    | .big => lowOfByte r.current.toNat r.remaining
    | .little => if r.remaining = 0 then 0 else r.current.toNat >>> (8 - r.remaining)
  .ofNat value r.remaining false

@[simp] theorem order_refill (r : BitReader) (byte : UInt8) : (r.refill byte).order = r.order := rfl

@[simp] theorem remaining_refill (r : BitReader) (byte : UInt8) : (r.refill byte).remaining = 8 := rfl

@[simp] theorem order_skip (r : BitReader) (count : Nat) : (r.skip count).order = r.order := rfl

@[simp] theorem remaining_skip (r : BitReader) (count : Nat) :
    (r.skip count).remaining = r.remaining - count := rfl

@[simp] theorem width_chunk (r : BitReader) (count : Nat) : (r.chunk count).width = count := rfl

@[simp] theorem width_pad (r : BitReader) : r.pad.width = r.remaining := rfl

end BitReader

/-! ## Into bytes -/

namespace ByteOrder

/-- How far up the next `count` bits go in a byte of which so many are filled. -/
def shiftInto (order : ByteOrder) (filled count : Nat) : Nat :=
  match order with
  | big => 8 - filled - count
  | little => filled

/-- How far down the next `count` bits of a field come from when so many are left. -/
def shiftOutOf (order : ByteOrder) (width left count : Nat) : Nat :=
  match order with
  | big => left - count
  | little => width - left

end ByteOrder

structure BitWriter where
  order : ByteOrder
  /-- The bytes that are full. -/
  out : Array UInt8
  /-- The byte that is being filled. -/
  current : UInt8
  /-- How many of its bits are filled. -/
  filled : Nat
  filled_lt : filled < 8

namespace BitWriter

def new (order : ByteOrder) : BitWriter := ⟨order, #[], 0, 0, Nat.zero_lt_succ 7⟩

/-- Puts `count` bits into the byte that is being filled. -/
def fill (w : BitWriter) (chunk count : Nat) (h : count ≤ 8 - w.filled) : BitWriter :=
  let current := w.current ||| UInt8.ofNat (chunk <<< w.order.shiftInto w.filled count)
  if full : w.filled + count = 8 then ⟨w.order, w.out.push current, 0, 0, Nat.zero_lt_succ 7⟩
  else
    have := w.filled_lt
    ⟨w.order, w.out, current, w.filled + count, by omega⟩

/-- Writes the bits of a field of which so many are `left`, as many at a time as the byte takes. Each
time there is one at least, so `fuel` for each bit is enough. -/
def put (field : Bitmap) : Nat → Nat → BitWriter → BitWriter
  | fuel + 1, left + 1, w =>
    let count := min (left + 1) (8 - w.filled)
    let index := w.order.shiftOutOf field.width (left + 1) count
    put field fuel (left + 1 - count)
      (w.fill (field.get index count).value count (Nat.min_le_right _ _))
  | _, _, w => w

def write (w : BitWriter) (field : Bitmap) : BitWriter := put field field.width field.width w

/-- The bytes that were written. The last one is filled up with `pad` if that fits, and with zeros
otherwise. -/
def finish (w : BitWriter) (pad : Bitmap) : Bytes :=
  if w.filled = 0 then w.out.toList
  else if pad.width = 8 - w.filled then (w.write pad).out.toList
  else (w.out.push w.current).toList

end BitWriter

end BinaryLayout
