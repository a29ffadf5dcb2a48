import BinaryLayout.Layout.Name
import BinaryLayout.Layout.Size

/-!
# Building layouts

Checked constructors: a record's fields and a union's members have different names, a union covers
all its members, and widths, fractions and alignments are in range.

## Main definitions

* `Layout.makeInt`, `Layout.makeFixed`, `Layout.makeAlign`.
* `Layout.makeRecord`, `BitLayout.makeRecord`, `Layout.makeUnion`.
* `Layout.string`, `Layout.cstring` and others: texts by their usual names.
* `Config.int`, `Config.pointer`, `Config.bits`: layouts in a document's configured orders.
-/

namespace BinaryLayout

variable {κ : Type}

/-- The first name that stands a second time, and was not seen before. -/
def firstRepeated (seen : List String) : List String → Option String
  | [] => none
  | name :: names => if name ∈ seen then some name else firstRepeated (name :: seen) names

/-- A record of bits with fields of different names. -/
def BitLayout.makeRecord (name : String) (fields : List (BitField κ (BitLayout κ))) :
    Except Error (BitLayout κ) :=
  match firstRepeated [] (fields.map BitField.name) with
  | some field => .error (.schema (.duplicateBitField name field))
  | none => .ok (.record name fields)

namespace Layout

/-- An integer of a width from one to sixteen bytes. -/
def makeInt (width : Nat) (signed : Bool) (order : ByteOrder) : Except Error (Layout κ) :=
  (IntFormat.make width signed order).map .int

/-- A fixed-point number with no more fraction bits than its base has. -/
def makeFixed (base : IntFormat) (fraction : Nat) : Except Error (Layout κ) :=
  if 8 * base.width < fraction then .error (.schema (.fractionBits fraction (8 * base.width)))
  else .ok (.fixed base fraction)

/-- Padding up to a multiple of a number that is not zero. -/
def makeAlign (alignment : Nat) : Except Error (Layout κ) :=
  if alignment = 0 then .error (.schema .zeroAlignment) else .ok (.align alignment)

/-- A record with fields of different names. -/
def makeRecord (name : String) (fields : List (Field κ (Layout κ))) : Except Error (Layout κ) :=
  match firstRepeated [] (fields.map Field.name) with
  | some field => .error (.schema (.duplicateField name field))
  | none => .ok (.record name fields)

/-- The size of the largest member, found while the members are checked: their names differ and
their sizes are known beforehand. -/
def largestMember (union : String) (seen : List String) (largest : Nat) :
    List (String × Layout κ) → Except Error Nat
  | [] => .ok largest
  | (name, layout) :: members =>
    if name ∈ seen then .error (.schema (.duplicateMember union name))
    else
      match layout.staticSize with
      | some size => largestMember union (name :: seen) (max largest size) members
      | none => .error (.schema (.memberWithoutSize union name layout.name))

/-- A union of the given size, or as large as its largest member. -/
def makeUnion (name : String) (members : List (String × Layout κ)) (size? : Option Nat) :
    Except Error (Layout κ) :=
  match largestMember name [] 0 members with
  | .error e => .error e
  | .ok largest =>
    match size? with
    | some size =>
      if size < largest then .error (.schema (.unionTooSmall name size largest))
      else .ok (.union name members size)
    | none => .ok (.union name members largest)

def string (count : Nat) : Layout κ := .text ⟨.ascii, .counted count⟩

def cstring : Layout κ := .text ⟨.ascii, .terminated⟩

def pstring (format : IntFormat) : Layout κ := .text ⟨.ascii, .prefixed format⟩

def wstring (count : Nat) (order : ByteOrder) : Layout κ := .text ⟨.utf16 order, .counted count⟩

def wcstring (order : ByteOrder) : Layout κ := .text ⟨.utf16 order, .terminated⟩

end Layout

namespace Config

def int (config : Config) (width : Nat) (signed : Bool) : Except Error (Layout κ) :=
  Layout.makeInt width signed config.byteOrder

/-- An absolute pointer of the configured width and order. -/
def pointer (config : Config) (target : Layout κ) : Except Error (Layout κ) :=
  (IntFormat.make config.pointerWidth false config.byteOrder).map
    fun wire => .pointer wire target .absolute

/-- A host of bits in the configured order. -/
def bits (config : Config) (root : BitLayout κ) : Layout κ := .bits root config.bitOrder

end Config

end BinaryLayout
