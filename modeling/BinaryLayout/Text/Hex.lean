import BinaryLayout.Bytes

/-!
# Hexadecimal text

Numbers and byte strings written with lowercase hexadecimal digits, and the classic dump of sixteen
bytes a row.

## Main definitions

* `Hex.number`: a number after the mark `0x`.
* `Hex.bytes`, `Hex.compact`: a byte string, two digits a byte, with and without spaces.
* `Hex.dump`: rows of an address, sixteen bytes and their printable characters.
-/

namespace BinaryLayout.Hex

/-- The hexadecimal digits of a number, at least `width` of them. -/
def digits (width n : Nat) : String :=
  String.ofList ((Nat.toDigits 16 n).leftpad width '0')

/-- A number after the mark `0x`, without padding. -/
def number (n : Nat) : String := "0x" ++ digits 1 n

def byte (b : UInt8) : String := digits 2 b.toNat

def compact (bs : Bytes) : String := String.join (bs.map byte)

/-- A byte string with a space between bytes. -/
def bytes (bs : Bytes) : String := String.intercalate " " (bs.map byte)

def list (bs : Bytes) : String := "[" ++ String.intercalate ", " (bs.map byte) ++ "]"

/-- At most sixteen bytes, with a mark when more were there. -/
def preview (bs : Bytes) : String :=
  if bs.length > 16 then bytes (bs.take 16) ++ " ..." else bytes bs

/-- The character a dump shows for a byte: itself when it is printable ASCII, else a dot. -/
def printable (b : UInt8) : Char :=
  if 0x20 ≤ b ∧ b ≤ 0x7e then Char.ofNat b.toNat else '.'

/-- The address of the next row; addresses wrap at 64 bits. -/
def nextRow (address : Nat) : Nat := (address + 16) % pow2 64

def row (address : Nat) (bs : Bytes) : String :=
  let text := bytes bs
  digits 8 address ++ "  " ++ text.pushn ' ' (47 - text.length) ++ "  "
    ++ String.ofList (bs.map printable) ++ "\n"

/-- The rows of a dump, at most `count` of them. -/
def rows : Nat → Nat → Bytes → List String
  | 0, _, _ => []
  | _ + 1, _, [] => []
  | count + 1, address, bs => row address (bs.take 16) :: rows count (nextRow address) (bs.drop 16)

/-- Rows of sixteen bytes, with addresses that start at `base`. -/
def dump (bs : Bytes) (base : Nat) : String :=
  String.join (rows bs.length base bs)

/-- The bytes of a text of digit pairs; `none` for any other text. -/
def ofCompact? (text : String) : Option Bytes :=
  go text.toList
where
  /-- The value of a hexadecimal digit. -/
  value (c : Char) : Option Nat :=
    if '0' ≤ c ∧ c ≤ '9' then some (c.toNat - '0'.toNat)
    else if 'a' ≤ c ∧ c ≤ 'f' then some (c.toNat - 'a'.toNat + 10)
    else if 'A' ≤ c ∧ c ≤ 'F' then some (c.toNat - 'A'.toNat + 10)
    else none
  /-- Pairs of digits, from the left. -/
  go : List Char → Option Bytes
    | [] => some []
    | a :: b :: rest => do
      let high ← value a
      let low ← value b
      let bs ← go rest
      return UInt8.ofNat (16 * high + low) :: bs
    | [_] => none

end BinaryLayout.Hex
