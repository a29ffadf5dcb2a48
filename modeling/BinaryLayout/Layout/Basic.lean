import BinaryLayout.Codec.Encoding
import BinaryLayout.Codec.Integer
import BinaryLayout.Config

/-!
# Layouts

A layout says what stands at some place before any byte of it is read: a scalar, a text, a stretch
of bytes, or a record, array, union, pointer or host of bits made of further layouts.

Some parts of a layout are decided only while it is read: the layout of a field that depends on the
fields before it, the extent forced on a field, the value that a field is updated to, the element
that ends an array, and the address that a pointer means. A layout holds a *rule* in such a place.
What a rule says is fixed elsewhere, by an interpretation of the type `κ` of rules, so layouts
themselves are finite data.

## Main definitions

* `Choice`, `Field`, `BitField`: a part that is given or left to a rule, and a field made of one.
* `BitLayout`: layouts measured in bits.
* `Layout`: layouts measured in bytes.
* `Layout.nestingLimit`: how deep layouts may nest.
-/

namespace BinaryLayout

/-- A part of a layout that is given, or computed by a rule from what stands before it. -/
inductive Choice (κ ρ : Type) where
  | given (layout : ρ)
  | computed (rule : κ)

/-- A field of a record of bits. -/
structure BitField (κ ρ : Type) where
  name : String
  layout : Choice κ ρ

/-- A field of a record of bytes. -/
structure Field (κ ρ : Type) where
  name : String
  layout : Choice κ ρ
  /-- The rule that says how many bytes the field takes. -/
  extent? : Option κ := none
  /-- The rule that says which value the field is updated to. -/
  update? : Option κ := none

/-- How many elements an array of bits has. -/
inductive BitShape (κ : Type) where
  | counted (count : Nat)
  /-- Elements up to the first that the rule accepts. -/
  | terminated (rule : κ)

/-- Layouts measured in bits. -/
inductive BitLayout (κ : Type) where
  | int (bits : Nat) (signed : Bool)
  | record (name : String) (fields : List (BitField κ (BitLayout κ)))
  | array (element : BitLayout κ) (shape : BitShape κ)

/-- How many elements an array has. -/
inductive Shape (κ : Type) where
  | counted (count : Nat)
  /-- As many elements as fit into so many bytes. -/
  | block (extent : Nat)
  /-- Elements up to the first that the rule accepts. -/
  | terminated (rule : κ)
  /-- Elements up to the end of the source. -/
  | unending

/-- How the end of a text is found. -/
inductive TextLength where
  /-- Exactly so many code units. -/
  | counted (count : Nat)
  /-- Code units up to and with a zero unit. -/
  | terminated
  /-- A count of code units stands in front. -/
  | prefixed (format : IntFormat)
  deriving DecidableEq

/-- How a text is stored. -/
structure TextFormat where
  encoding : Encoding
  length : TextLength
  deriving DecidableEq

/-- The precision of a stored floating-point number. -/
inductive Precision where
  | half
  | single
  | double
  deriving DecidableEq, Repr

def Precision.width : Precision → Nat
  | half => 2
  | single => 4
  | double => 8

/-- What a relative pointer counts from. -/
inductive Base where
  | root
  | parent
  /-- The nearest ancestor whose layout has this name. -/
  | ancestor (name : String)
  deriving DecidableEq, Repr

/-- How a pointer's stored number means an address. -/
inductive AddressPolicy (κ : Type) where
  | absolute
  | relative (base : Base)
  /-- The number is the distance from the pointer itself. -/
  | selfRelative
  /-- A rule maps the number to the distance from the pointer, and another may map it back. -/
  | mapped (toDistance : κ) (ofDistance? : Option κ)
  /-- A rule computes the address, and another may compute the number. -/
  | computed (toAddress : κ) (ofAddress? : Option κ)

/-- Layouts measured in bytes. -/
inductive Layout (κ : Type) where
  | int (format : IntFormat)
  | float (precision : Precision) (order : ByteOrder)
  /-- An integer in units of `2 ^ (-fraction)`. -/
  | fixed (base : IntFormat) (fraction : Nat)
  | varint (signed : Bool)
  | text (format : TextFormat)
  | block (length : Nat)
  /-- Bytes that are expected to be these. -/
  | constant (bytes : Bytes)
  | padding (length : Nat)
  /-- Padding up to a multiple of `alignment` from the start of the enclosing atom. -/
  | align (alignment : Nat)
  | record (name : String) (fields : List (Field κ (Layout κ)))
  | array (element : Layout κ) (shape : Shape κ)
  /-- Members that share the same bytes. -/
  | union (name : String) (members : List (String × Layout κ)) (size : Nat)
  | pointer (wire : IntFormat) (target : Layout κ) (policy : AddressPolicy κ)
  /-- Whole bytes whose content is measured in bits. -/
  | bits (root : BitLayout κ) (order : ByteOrder)

variable {κ : Type}

/-- The layout of an atom, in bytes or in bits. -/
inductive AtomLayout (κ : Type) where
  | bytes (layout : Layout κ)
  | bits (layout : BitLayout κ)

/-- An address can be turned back into a pointer's number. -/
def AddressPolicy.isInvertible : AddressPolicy κ → Bool
  | absolute | relative _ | selfRelative => true
  | mapped _ inverse? => inverse?.isSome
  | computed _ inverse? => inverse?.isSome

/-- A block array may cut its last element short when it is of this layout. -/
def Layout.isBlock : Layout κ → Bool
  | block _ => true
  | _ => false

/-- How deep layouts may nest while they are read. Rules may go on producing layouts inside layouts
for ever; a deeper layout is refused. -/
def Layout.nestingLimit : Nat := 1000000

end BinaryLayout
