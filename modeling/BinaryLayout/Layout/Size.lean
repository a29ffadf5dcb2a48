import BinaryLayout.Layout.Basic

/-!
# Sizes known beforehand

Many layouts take the same number of bytes whatever is read. The number is found from the layout
alone; a layout with a part left to a rule has none, and neither has one whose size does not fit
into 64 bits.

## Main definitions

* `BitLayout.staticBits`: the width of a layout of bits.
* `Layout.staticSize`: the size of a layout.
-/

namespace BinaryLayout

variable {κ : Type}

/-- Sizes are 64-bit words; a larger number is no size. -/
def word? (n : Nat) : Option Nat := if n < pow2 64 then some n else none

/-- The whole bytes that hold so many bits. -/
def bytesOfBits (bits : Nat) : Nat := (bits + 7) / 8

mutual

/-- The width of a layout of bits, when it is known beforehand. -/
def BitLayout.staticBits : BitLayout κ → Option Nat
  | .int bits _ => some bits
  | .record _ fields => staticBitsOfFields 0 fields
  | .array element (.counted count) => element.staticBits.bind fun bits => word? (bits * count)
  | .array _ (.terminated _) => none

/-- The width of the fields, added to the width before them. -/
def staticBitsOfFields (total : Nat) : List (BitField κ (BitLayout κ)) → Option Nat
  | [] => some total
  | ⟨_, .given layout⟩ :: fields =>
    match layout.staticBits with
    | some bits => if total + bits < pow2 64 then staticBitsOfFields (total + bits) fields else none
    | none => none
  | ⟨_, .computed _⟩ :: _ => none

end

/-- The size of a text, when it is known beforehand. -/
def TextFormat.staticSize (t : TextFormat) : Option Nat :=
  match t.length with
  | .counted count => word? (count * t.encoding.unit)
  | _ => none

mutual

/-- The size of a layout, when it is known beforehand. -/
def Layout.staticSize : Layout κ → Option Nat
  | .int format => some format.width
  | .float precision _ => some precision.width
  | .fixed base _ => some base.width
  | .varint _ => none
  | .text format => format.staticSize
  | .block length => some length
  | .constant bytes => some bytes.length
  | .padding length => some length
  | .align _ => none
  | .record _ fields => staticSizeOfFields 0 fields
  | .array element (.counted count) => element.staticSize.bind fun size => word? (size * count)
  | .array _ (.block extent) => some extent
  | .array _ (.terminated _) => none
  | .array _ .unending => none
  | .union _ _ size => some size
  | .pointer wire _ _ => some wire.width
  | .bits root _ => root.staticBits.map bytesOfBits

/-- The size of the fields, added to the size before them. -/
def staticSizeOfFields (total : Nat) : List (Field κ (Layout κ)) → Option Nat
  | [] => some total
  | ⟨_, .given layout, none, _⟩ :: fields =>
    match layout.staticSize with
    | some size => if total + size < pow2 64 then staticSizeOfFields (total + size) fields else none
    | none => none
  | ⟨_, .given _, some _, _⟩ :: _ => none
  | ⟨_, .computed _, _, _⟩ :: _ => none

end

/-- The size of an atom's layout in bytes, when it is known beforehand. -/
def AtomLayout.staticSize : AtomLayout κ → Option Nat
  | bytes layout => layout.staticSize
  | bits layout => layout.staticBits.map bytesOfBits

end BinaryLayout
