import BinaryLayout.Source.Error

/-!
# Devices

A device is a source with the habits of hardware: its size may be unknown, its content may repeat
without end, it may refuse to be written or take only a few bytes at a time, and it may fail from
some offset on. It counts the reads it serves.

## Main definitions

* `Device`: the content, the habits, the cursor and the count of reads.
* `Device.seek`, `Device.consume`, `Device.store`, `Device.size?`.
-/

namespace BinaryLayout

/-- A source with the habits of hardware. -/
structure Device where
  data : Array UInt8
  /-- The end of the content is known. -/
  bounded : Bool := false
  /-- The content starts again at its end. -/
  repeats : Bool := false
  readOnly : Bool := false
  /-- The most bytes that one write takes. -/
  storeLimit : Option Nat := none
  /-- Moving to this offset or further fails. -/
  seekFault : Option Nat := none
  /-- Reading at this offset or further fails. -/
  readFault : Option Nat := none
  cursor : Nat := 0
  reads : Nat := 0
  deriving DecidableEq, Repr

namespace Device

/-- The most bytes that one read of a repeating device gives, and the furthest it can be written. -/
def reach : Nat := pow2 20

def beyond (fault : Option Nat) (offset : Nat) : Bool := fault.any fun f => decide (f ≤ offset)

/-- Moves the cursor and gives its previous place. -/
def seek (d : Device) (offset : Nat) : Except SourceError Nat × Device :=
  if beyond d.seekFault offset then (.error .readOnly, d)
  else if d.bounded ∧ d.data.size < offset then
    (.error (.outOfBounds offset d.data.size), d)
  else (.ok d.cursor, { d with cursor := offset })

/-- The byte at an offset of content that repeats. -/
def cyclic (data : Array UInt8) (offset : Nat) : UInt8 := data.getD (offset % data.size) 0

/-- The next `amount` bytes, if the device has them. -/
def next (d : Device) (amount : Nat) : Except SourceError Bytes :=
  if beyond d.readFault d.cursor then .error .readOnly
  else if amount = 0 then .ok []
  else if d.repeats then
    if amount ≤ reach then .ok ((List.range amount).map fun i => cyclic d.data (d.cursor + i))
    else .error (.consume d.cursor amount 0)
  else if d.cursor + amount ≤ d.data.size then
    .ok (d.data.extract d.cursor (d.cursor + amount)).toList
  else .error (.consume d.cursor amount (d.data.size - d.cursor))

/-- Reads `amount` bytes at the cursor and moves past them. -/
def consume (d : Device) (amount : Nat) : Except SourceError Bytes × Device :=
  let d := { d with reads := d.reads + 1 }
  match d.next amount with
  | .ok bytes => (.ok bytes, { d with cursor := d.cursor + amount })
  | .error e => (.error e, d)

/-- Content with `bytes` written at an offset, after zeros where it was shorter. -/
def written (data : Array UInt8) (offset : Nat) (bytes : Bytes) : Array UInt8 :=
  data.take offset ++ Array.replicate (offset - data.size) 0 ++ bytes
    ++ data.drop (offset + bytes.length)

/-- Writes at the cursor and gives the count of bytes taken. -/
def store (d : Device) (bytes : Bytes) : Except SourceError Nat × Device :=
  if d.readOnly then (.error .readOnly, d)
  else if reach < d.cursor then (.error (.store d.cursor bytes.length 0), d)
  else
    let taken := bytes.take (d.storeLimit.getD bytes.length)
    (.ok taken.length,
      { d with data := written d.data d.cursor taken, cursor := d.cursor + taken.length })

def size? (d : Device) : Option Nat := if d.bounded then some d.data.size else none

end Device

end BinaryLayout
