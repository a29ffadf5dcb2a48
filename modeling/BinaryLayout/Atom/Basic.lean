import BinaryLayout.Bitmap.Packing
import BinaryLayout.Layout.Name
import BinaryLayout.Layout.Size

/-!
# Atoms

An atom is a layout at an offset, together with what was loaded or allocated for it. A compound atom
owns its parts: a record its fields, an array its elements, a union its members, a host of bits the
root of its bit tree, and a pointer that was followed the atom it refers to. So an atom is a tree,
and everything below it belongs to it alone.

## Main definitions

* `Content`: what an atom holds besides its parts.
* `Info`: name, layout, place and flags.
* `Atom`: a tree of these.
* `Atom.bitCount`, `Atom.contentSize`, `Atom.size`: measures, in bits and in bytes.
* `Atom.writeBits`, `Atom.serialize`: the bits and the bytes that an atom stands for.
-/

namespace BinaryLayout

/-- What an atom holds besides its parts. -/
inductive Content where
  /-- Nothing was loaded or allocated. -/
  | empty
  /-- The bytes of a scalar, a text or a stretch of bytes. -/
  | raw (bytes : Bytes)
  /-- Fields or elements, one after another. -/
  | group
  /-- Members that share the bytes of `backing`. -/
  | overlay (backing : Bytes)
  /-- A pointer's stored number. Its part, if any, is what it refers to. -/
  | pointer (wire : Bytes)
  /-- Whole bytes around a tree of bits, with the unused bits of the last byte. -/
  | host (pad : Bitmap)
  | bits (value : Bitmap)
  deriving DecidableEq

/-- An atom's name, layout, place and flags. -/
structure Info (κ : Type) where
  /-- The handle of the atom. -/
  id : Nat
  name : String
  layout : AtomLayout κ
  /-- In bytes, or in bits for an atom of bits. -/
  offset : Nat
  initialized : Bool := false
  /-- A part was changed since the updates last ran. -/
  dirty : Bool := false
  /-- A text whose bytes do not decode. -/
  undecodable : Bool := false
  /-- What a null pointer refers to. -/
  null : Bool := false
  /-- The number of bytes that the enclosing record forced. -/
  extent? : Option Nat := none
  /-- Bytes after the content that belong to the atom. -/
  tail : Bytes := []

/-- A layout at an offset, with what was loaded or allocated for it. -/
inductive Atom (κ : Type) where
  | node (info : Info κ) (content : Content) (parts : List (Atom κ))

variable {κ : Type}

namespace AtomLayout

def isBits : AtomLayout κ → Bool
  | bits _ => true
  | bytes _ => false

/-- The parts of atoms of this layout are elements. -/
def isArray : AtomLayout κ → Bool
  | bytes (.array ..) | bits (.array ..) => true
  | _ => false

/-- The order in which a host of this layout packs its bits. -/
def bitOrder? : AtomLayout κ → Option ByteOrder
  | bytes (.bits _ order) => some order
  | _ => none

end AtomLayout

namespace Atom

/-- Name, layout, place and flags. -/
def info : Atom κ → Info κ
  | node info _ _ => info

/-- What the atom holds besides its parts. -/
def content : Atom κ → Content
  | node _ content _ => content

/-- Everything that the atom owns directly. -/
def parts : Atom κ → List (Atom κ)
  | node _ _ parts => parts

def blank (id : Nat) (name : String) (layout : AtomLayout κ) (offset : Nat) : Atom κ :=
  node { id, name, layout, offset } .empty []

def mapInfo (change : Info κ → Info κ) : Atom κ → Atom κ
  | node info content parts => node (change info) content parts

/-- The atom with other content and parts. -/
def fill (content : Content) (parts : List (Atom κ)) (a : Atom κ) : Atom κ :=
  node a.info content parts

/-- The atom with one more part at the end. -/
def push (a part : Atom κ) : Atom κ := node a.info a.content (a.parts ++ [part])

def ready : Atom κ → Atom κ := mapInfo fun info => { info with initialized := true }

/-- The atom without content, parts and tail. Its extent and its other flags stay. -/
def cleared : Atom κ → Atom κ
  | node info _ _ =>
    node { info with tail := [], initialized := false, undecodable := false } .empty []

/-- The atom with other bytes after its content. -/
def withTail (tail : Bytes) : Atom κ → Atom κ := mapInfo fun info => { info with tail }

def isBits (a : Atom κ) : Bool := a.info.layout.isBits

/-! ## Measures -/

mutual

def bitCount : Atom κ → Nat
  | node _ (.bits value) _ => value.width
  | node _ .group parts => bitCounts parts
  | node _ _ _ => 0

/-- The width of atoms of bits, one after another. -/
def bitCounts : List (Atom κ) → Nat
  | [] => 0
  | a :: as => bitCount a + bitCounts as

end

mutual

/-- The bytes of an atom, without its tail. -/
def contentSize : Atom κ → Nat
  | node info content parts =>
    if info.layout.isBits then bytesOfBits (bitCount (node info content parts))
    else
      match content with
      | .empty | .bits _ => 0
      | .raw bytes => bytes.length
      | .group => sizes parts
      | .overlay backing => backing.length
      | .pointer wire => wire.length
      | .host pad => bytesOfBits (bitCounts parts + pad.width)

/-- The bytes of atoms, one after another. -/
def sizes : List (Atom κ) → Nat
  | [] => 0
  | a :: as => contentSize a + a.info.tail.length + sizes as

end

def size (a : Atom κ) : Nat := a.contentSize + a.info.tail.length

def bits (a : Atom κ) : Nat := if a.isBits then a.bitCount else 8 * a.size

/-- How far the next sibling stands from the atom, in the measure of their parent. -/
def step (inBits : Bool) (a : Atom κ) : Nat := if inBits then a.bits else a.size

mutual

def count : Atom κ → Nat
  | node _ _ parts => counts parts + 1

def counts : List (Atom κ) → Nat
  | [] => 0
  | a :: as => count a + counts as

end

mutual

/-- The atom or one below it has a handle. -/
def holds (id : Nat) : Atom κ → Bool
  | node info _ parts => info.id == id || anyHolds id parts

/-- One of the atoms, or one below them, has a handle. -/
def anyHolds (id : Nat) : List (Atom κ) → Bool
  | [] => false
  | a :: as => holds id a || anyHolds id as

end

mutual

def height : Atom κ → Nat
  | node _ _ parts => heights parts + 1

/-- How many levels the highest of the trees has. -/
def heights : List (Atom κ) → Nat
  | [] => 0
  | a :: as => max (height a) (heights as)

end

/-! ## Bytes -/

mutual

def writeBits : Atom κ → BitWriter → BitWriter
  | node _ (.bits value) _, w => w.write value
  | node _ .group parts, w => writeAllBits parts w
  | node _ _ _, w => w

/-- Writes the bits of atoms of bits, one after another. -/
def writeAllBits : List (Atom κ) → BitWriter → BitWriter
  | [], w => w
  | a :: as, w => writeAllBits as (writeBits a w)

end

mutual

/-- The bytes of an atom. An atom of bits outside a host packs them in the given order. -/
def serialize (order : ByteOrder) : Atom κ → Bytes
  | node info content parts =>
    if info.layout.isBits then (writeBits (node info content parts) (.new order)).finish .empty
    else
      (match content with
        | .empty | .bits _ => []
        | .raw bytes => bytes
        | .group => serializeAll order parts
        | .overlay backing => backing
        | .pointer wire => wire
        | .host pad =>
          let hostOrder := info.layout.bitOrder?.getD order
          (writeAllBits parts (.new hostOrder)).finish pad)
      ++ info.tail

/-- The bytes of atoms, one after another. -/
def serializeAll (order : ByteOrder) : List (Atom κ) → Bytes
  | [] => []
  | a :: as => serialize order a ++ serializeAll order as

end

/-! ## Members -/

/-- The parts that can be named: fields, elements and union members, but not a root of bits or a
referent. -/
def ownMembers : Atom κ → List (Atom κ)
  | node _ .group parts | node _ (.overlay _) parts => parts
  | node _ _ _ => []

/-- Fields, elements or union members. A host of bits has those of its root. -/
def members : Atom κ → List (Atom κ)
  | node _ (.host _) (root :: _) => root.ownMembers
  | a => a.ownMembers

/-- What a pointer refers to, when it was followed. -/
def referent? : Atom κ → Option (Atom κ)
  | node _ (.pointer _) (referent :: _) => some referent
  | _ => none

/-- The offset of the byte that holds the atom's first bit. -/
def byteOffset (a : Atom κ) : Nat := if a.isBits then a.info.offset / 8 else a.info.offset

/-- The atom's place in bits; it stays below `2 ^ 64`. -/
def bitPosition (a : Atom κ) : Nat :=
  if a.isBits then a.info.offset else min (8 * a.info.offset) (pow2 64 - 1)

@[simp] theorem info_node (info : Info κ) (content : Content) (parts : List (Atom κ)) :
    (node info content parts).info = info := rfl

@[simp] theorem content_node (info : Info κ) (content : Content) (parts : List (Atom κ)) :
    (node info content parts).content = content := rfl

@[simp] theorem parts_node (info : Info κ) (content : Content) (parts : List (Atom κ)) :
    (node info content parts).parts = parts := rfl

@[simp] theorem info_fill (content : Content) (parts : List (Atom κ)) (a : Atom κ) :
    (a.fill content parts).info = a.info := rfl

@[simp] theorem content_fill (content : Content) (parts : List (Atom κ)) (a : Atom κ) :
    (a.fill content parts).content = content := rfl

@[simp] theorem parts_fill (content : Content) (parts : List (Atom κ)) (a : Atom κ) :
    (a.fill content parts).parts = parts := rfl

@[simp] theorem info_push (a part : Atom κ) : (a.push part).info = a.info := rfl

@[simp] theorem content_push (a part : Atom κ) : (a.push part).content = a.content := rfl

@[simp] theorem parts_push (a part : Atom κ) : (a.push part).parts = a.parts ++ [part] := rfl

@[simp] theorem info_mapInfo (change : Info κ → Info κ) (a : Atom κ) :
    (a.mapInfo change).info = change a.info := by cases a; rfl

@[simp] theorem content_mapInfo (change : Info κ → Info κ) (a : Atom κ) :
    (a.mapInfo change).content = a.content := by cases a; rfl

@[simp] theorem parts_mapInfo (change : Info κ → Info κ) (a : Atom κ) :
    (a.mapInfo change).parts = a.parts := by cases a; rfl

end Atom

end BinaryLayout
