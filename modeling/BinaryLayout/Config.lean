import BinaryLayout.Bytes

/-!
# Defaults and limits

What a document applies where a layout leaves something open, and the limits it keeps while loading.
-/

namespace BinaryLayout

/-- The defaults and limits of a document. -/
structure Config where
  /-- Order of integers and pointers of the configured kind. -/
  byteOrder : ByteOrder := .little
  /-- Order of bits in hosts of the configured kind. -/
  bitOrder : ByteOrder := .big
  /-- Bytes in a pointer of the configured kind. -/
  pointerWidth : Nat := 8
  /-- The most elements of a terminated or an unending array. -/
  maxElements : Nat := pow2 20
  /-- The byte that fills new padding. -/
  padding : UInt8 := 0
  deriving DecidableEq, Repr, Inhabited

end BinaryLayout
