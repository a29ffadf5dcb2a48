import BinaryLayout.Registry
import BinaryLayout.Template.Formula

/-!
# Templates

A template describes a layout by formulas instead of numbers. It is built into a layout in a scope,
or in none if its formulas look at no scope. Fields may carry templates of their own that are built
only while a record loads: these are the rules of the resulting layouts.

## Main definitions

* `Template`, `BitTemplate`: layouts with formulas in place of numbers.
* `Recipe`: the value that a field is updated to.
* `Predicate`: what an element is asked to end its array.
* `Rule`: the rules of layouts that templates are built into.
-/

namespace BinaryLayout

/-- The value that a field is updated to. -/
inductive Recipe where
  /-- A number modulo `2 ^ 128`. -/
  | unsigned (n : Formula)
  | signed (n : Formula)
  | bytesOf (field : String)
  /-- The sum of a member's bytes modulo 256. -/
  | checksum (field : String)
  | valueOf (field : String)
  | textOf (field : String)
  | const (v : Value)
  | fail (failure : Failure)

/-- What an element is asked to end its array. -/
inductive Predicate where
  | never
  | always
  | uintIs (n : Int)
  | intBelow (n : Int)
  | textIs (text : String)
  | bytesAre (bytes : Bytes)
  | fieldIs (name : String) (n : Int)
  /-- The array has so many elements, this one included. -/
  | countReaches (n : Int)
  deriving DecidableEq

/-- A stored integer whose width may be a formula. -/
inductive IntTemplate where
  | given (format : IntFormat)
  | computed (width : Formula) (signed : Bool) (order : ByteOrder)

/-- How the end of a text is found, by a formula. -/
inductive TextLengthTemplate where
  | counted (count : Formula)
  | terminated
  | prefixed (format : IntTemplate)

/-- How many elements an array has, by a formula. -/
inductive ShapeTemplate where
  | counted (count : Formula)
  | block (extent : Formula)
  | terminated (predicate : Predicate)
  | unending

/-- How many elements an array of bits has, by a formula. -/
inductive BitShapeTemplate where
  | counted (count : Formula)
  | terminated (predicate : Predicate)

/-- How a pointer's number means an address, by formulas. -/
inductive PolicyTemplate where
  | absolute
  | relative (base : Base)
  | selfRelative
  | mapped (toDistance : Formula) (ofDistance? : Option Formula)
  | computed (toAddress : Formula) (ofAddress? : Option Formula)

/-- A field of a record. -/
structure FieldTemplate (τ : Type) where
  name : String
  template : τ
  /-- The template is built while the record loads. -/
  isRule : Bool
  extent? : Option Formula := none
  update? : Option Recipe := none

/-- Layouts of bits with formulas in place of numbers. -/
inductive BitTemplate where
  | int (bits : Formula) (signed : Bool)
  | array (element : BitTemplate) (shape : BitShapeTemplate)
  | record (name : String) (fields : List (FieldTemplate BitTemplate))
  /-- A template of the catalog. -/
  | named (name : String)
  /-- The template of the case that the formula's number selects. -/
  | select (on : Formula) (cases : List (Int × BitTemplate)) (otherwise : Option BitTemplate)
  | fail (failure : Failure)

/-- Layouts with formulas in place of numbers. -/
inductive Template where
  | int (format : IntTemplate)
  /-- An integer in the configured order. -/
  | configuredInt (width : Formula) (signed : Bool)
  /-- A pointer of the configured width and order. -/
  | configuredPointer (target : Template)
  /-- A host of bits in the configured order. -/
  | configuredBits (root : BitTemplate)
  | float (precision : Precision) (order : ByteOrder)
  | fixed (base : IntTemplate) (fraction : Formula)
  | varint (signed : Bool)
  | text (encoding : Encoding) (length : TextLengthTemplate)
  | block (length : Formula)
  | padding (length : Formula)
  | constant (bytes : Bytes)
  | align (alignment : Formula)
  | array (element : Template) (shape : ShapeTemplate)
  | union (name : String) (members : List (String × Template)) (size : Option Formula)
  | pointer (wire : IntTemplate) (target : Template) (policy : PolicyTemplate)
  | bits (root : BitTemplate) (order : ByteOrder)
  /-- A record. What stands in `stray` are the words of attributes given before any field. -/
  | record (name : String) (stray : List String) (fields : List (FieldTemplate Template))
  /-- A template of the catalog. -/
  | named (name : String)
  /-- The template of the case that the formula's number selects. -/
  | select (on : Formula) (cases : List (Int × Template)) (otherwise : Option Template)
  /-- The entry of a registry of the catalog. -/
  | registered (registry : String) (tag : Formula) (length? : Option Formula)
  | fail (failure : Failure)

/-- The rules of layouts that templates are built into. -/
inductive Rule where
  | layout (template : Template)
  | bitLayout (template : BitTemplate)
  | extent (n : Formula)
  | update (recipe : Recipe)
  | ending (predicate : Predicate)
  | number (n : Formula)

end BinaryLayout
