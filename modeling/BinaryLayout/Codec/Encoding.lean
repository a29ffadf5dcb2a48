import BinaryLayout.Error

/-!
# Character encodings

Text as bytes: ASCII, UTF-8 and UTF-16 in either byte order. Decoding names the first place that
holds no character; encoding fails only for a character beyond ASCII in an ASCII text.

## Main definitions

* `Encoding`: the encodings, with the size of their code units.
* `Utf8.decode`, `Utf8.encode`: UTF-8 on lists of characters.
* `Utf16.decode`, `Utf16.encode`: UTF-16 code units.
* `Encoding.decode`, `Encoding.encode`: text of any encoding.
-/

namespace BinaryLayout

/-! ## UTF-8 -/

namespace Utf8

def isTail (b : UInt8) : Bool := decide (0x80 ≤ b.toNat ∧ b.toNat < 0xC0)

/-- The second byte of a character may follow its first. The bounds keep out overlong forms,
surrogates, and code points past the last one. -/
def isSecond (first second : UInt8) : Bool :=
  let low := if first = 0xE0 then 0xA0 else if first = 0xF0 then 0x90 else 0x80
  let high := if first = 0xED then 0x9F else if first = 0xF4 then 0x8F else 0xBF
  decide (low ≤ second.toNat ∧ second.toNat ≤ high)

def tail (b : UInt8) : Nat := b.toNat % 0x40

/-- The characters of a byte string whose first byte stands at `index` of the whole text. -/
def decodeFrom (index : Nat) : Bytes → Except DecodeFault (List Char)
  | [] => .ok []
  | a :: rest =>
    if a.toNat < 0x80 then (decodeFrom (index + 1) rest).map (Char.ofNat a.toNat :: ·)
    else if a.toNat < 0xC2 ∨ 0xF5 ≤ a.toNat then .error (.invalidUtf8 1 index)
    else match rest with
      | [] => .error (.incompleteUtf8 index)
      | b :: rest =>
        if !isSecond a b then .error (.invalidUtf8 1 index)
        else if a.toNat < 0xE0 then
          (decodeFrom (index + 2) rest).map
            (Char.ofNat (a.toNat % 0x20 * 0x40 + tail b) :: ·)
        else match rest with
          | [] => .error (.incompleteUtf8 index)
          | c :: rest =>
            if !isTail c then .error (.invalidUtf8 2 index)
            else if a.toNat < 0xF0 then
              (decodeFrom (index + 3) rest).map
                (Char.ofNat (a.toNat % 0x10 * 0x1000 + tail b * 0x40 + tail c) :: ·)
            else match rest with
              | [] => .error (.incompleteUtf8 index)
              | d :: rest =>
                if !isTail d then .error (.invalidUtf8 3 index)
                else (decodeFrom (index + 4) rest).map (Char.ofNat
                  (a.toNat % 0x08 * 0x40000 + tail b * 0x1000 + tail c * 0x40 + tail d) :: ·)

def decode (bytes : Bytes) : Except DecodeFault (List Char) := decodeFrom 0 bytes

/-- A continuing byte with the given six bits. -/
def tailByte (bits : Nat) : UInt8 := UInt8.ofNat (0x80 + bits % 0x40)

def encodeChar (c : Char) : Bytes :=
  let n := c.toNat
  if n < 0x80 then [UInt8.ofNat n]
  else if n < 0x800 then [UInt8.ofNat (0xC0 + n / 0x40), tailByte n]
  else if n < 0x10000 then
    [UInt8.ofNat (0xE0 + n / 0x1000), tailByte (n / 0x40), tailByte n]
  else
    [UInt8.ofNat (0xF0 + n / 0x40000), tailByte (n / 0x1000), tailByte (n / 0x40), tailByte n]

def encode (text : List Char) : Bytes := text.flatMap encodeChar

end Utf8

/-! ## UTF-16 -/

namespace Utf16

/-- A code unit that opens a pair. -/
def isHigh (unit : Nat) : Bool := decide (0xD800 ≤ unit ∧ unit < 0xDC00)

/-- A code unit that closes a pair. -/
def isLow (unit : Nat) : Bool := decide (0xDC00 ≤ unit ∧ unit < 0xE000)

/-- The characters of a list of code units. -/
def decode : List Nat → Except DecodeFault (List Char)
  | [] => .ok []
  | u :: rest =>
    if isLow u then .error (.unpairedSurrogate u)
    else if isHigh u then
      match rest with
      | [] => .error (.unpairedSurrogate u)
      | v :: rest =>
        if isLow v then
          (decode rest).map
            (Char.ofNat (0x10000 + (u - 0xD800) * 0x400 + (v - 0xDC00)) :: ·)
        else .error (.unpairedSurrogate u)
    else (decode rest).map (Char.ofNat u :: ·)

def encodeChar (c : Char) : List Nat :=
  let n := c.toNat
  if n < 0x10000 then [n]
  else [0xD800 + (n - 0x10000) / 0x400, 0xDC00 + (n - 0x10000) % 0x400]

/-- The code units of a text. -/
def encode (text : List Char) : List Nat := text.flatMap encodeChar

/-- The code units that bytes hold, two bytes each; `none` for an odd number of bytes. -/
def units? (order : ByteOrder) : Bytes → Option (List Nat)
  | [] => some []
  | [_] => none
  | a :: b :: rest => (units? order rest).map (order.readNat [a, b] :: ·)

def bytes (order : ByteOrder) (units : List Nat) : Bytes :=
  units.flatMap (order.writeNat 2)

end Utf16

/-! ## Encodings -/

/-- A character encoding of stored text. -/
inductive Encoding where
  | ascii
  | utf8
  | utf16 (order : ByteOrder)
  deriving DecidableEq, Repr

namespace Encoding

def unit : Encoding → Nat
  | ascii | utf8 => 1
  | utf16 _ => 2

/-- The ASCII characters of a byte string whose first byte stands at `index`. -/
def decodeAscii (index : Nat) : Bytes → Except DecodeFault (List Char)
  | [] => .ok []
  | b :: bs =>
    if b.toNat < 0x80 then (decodeAscii (index + 1) bs).map (Char.ofNat b.toNat :: ·)
    else .error (.notAscii b index)

def decodeChars : Encoding → Bytes → Except DecodeFault (List Char)
  | ascii, bytes => decodeAscii 0 bytes
  | utf8, bytes => Utf8.decode bytes
  | utf16 order, bytes =>
    match Utf16.units? order bytes with
    | some units => Utf16.decode units
    | none => .error .oddUtf16

def decode (e : Encoding) (bytes : Bytes) : Except Error String :=
  match e.decodeChars bytes with
  | .ok text => .ok (String.ofList text)
  | .error fault => .error (.decode fault)

def encode (e : Encoding) (text : String) : Except Error Bytes :=
  match e with
  | ascii =>
    match text.toList.find? (fun c => decide (0x80 ≤ c.toNat)) with
    | some c => .error (.value (.notAscii c))
    | none => .ok (text.toList.map (fun c => UInt8.ofNat c.toNat))
  | utf8 => .ok (Utf8.encode text.toList)
  | utf16 order => .ok (Utf16.bytes order (Utf16.encode text.toList))

end Encoding

def textBytes (text : String) : Bytes := Utf8.encode text.toList

end BinaryLayout
