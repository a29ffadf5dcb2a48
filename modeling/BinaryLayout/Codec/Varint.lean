import BinaryLayout.Error

/-!
# LEB128

Integers of any size in groups of seven bits, least significant first. A byte's top bit says that
another one follows. A signed encoding is extended by the sign bit of its last group. Readers accept
numbers of up to 128 bits.

## Main definitions

* `Varint.writeNat`, `Varint.writeInt`: the shortest encoding of a number.
* `Varint.readNat`, `Varint.readInt`: the number at the start of a byte string.
-/

namespace BinaryLayout.Varint

/-- The byte says that another one follows. -/
def continues (b : UInt8) : Bool := decide (b.toNat ≥ 0x80)

def group (b : UInt8) : Nat := b.toNat % 0x80

def last (bits : Nat) : UInt8 := UInt8.ofNat (bits % 0x80)

/-- A byte of an encoding that another one follows. -/
def more (bits : Nat) : UInt8 := UInt8.ofNat (bits % 0x80 + 0x80)

/-- The shortest unsigned encoding, in at most `fuel + 1` bytes. -/
def writeNatWith : Nat → Nat → Bytes
  | 0, n => [last n]
  | fuel + 1, n => if n < 0x80 then [last n] else more n :: writeNatWith fuel (n / 0x80)

/-- The shortest unsigned encoding of a number. -/
def writeNat (n : Nat) : Bytes := writeNatWith n.log2 n

/-- The shortest signed encoding, in at most `fuel + 1` bytes. -/
def writeIntWith : Nat → Int → Bytes
  | 0, n => [last (n % 0x80).toNat]
  | fuel + 1, n =>
    if -0x40 ≤ n ∧ n < 0x40 then [last (n % 0x80).toNat]
    else more (n % 0x80).toNat :: writeIntWith fuel (n / 0x80)

/-- The shortest signed encoding of an integer. -/
def writeInt (n : Int) : Bytes := writeIntWith (n.natAbs.log2 + 1) n

/-- Reads groups from bit `shift` on; a group with bits at 128 or above is refused. -/
def readNatFrom (shift : Nat) : Bytes → Except Error Nat
  | [] => .error (.decode .varintUnfinished)
  | b :: bs =>
    if pow2 128 ≤ group b * pow2 shift ∨ 128 ≤ shift then .error (.decode .varintOverflow)
    else if continues b then (readNatFrom (shift + 7) bs).map (group b * pow2 shift + ·)
    else .ok (group b * pow2 shift)

/-- The number at the start of a byte string. -/
def readNat (bytes : Bytes) : Except Error Nat := readNatFrom 0 bytes

/-- The signed number whose groups add up to `sum` and end before bit `shift`, with `b` the last of
them. Bits at 128 and above are dropped. -/
def signed (sum shift : Nat) (b : UInt8) : Int :=
  if shift < 128 ∧ 0x40 ≤ group b then sum - pow2 shift else Int.bmod sum (pow2 128)

/-- Reads signed groups from bit `shift` on, with `sum` the groups before it. -/
def readIntFrom (sum shift : Nat) : Bytes → Except Error Int
  | [] => .error (.decode .varintUnfinished)
  | b :: bs =>
    if 128 ≤ shift then .error (.decode .varintOverflow)
    else if continues b then readIntFrom (sum + group b * pow2 shift) (shift + 7) bs
    else .ok (signed (sum + group b * pow2 shift) (shift + 7) b)

/-- The signed number at the start of a byte string. -/
def readInt (bytes : Bytes) : Except Error Int := readIntFrom 0 0 bytes

end BinaryLayout.Varint
