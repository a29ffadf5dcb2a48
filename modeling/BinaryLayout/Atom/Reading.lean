import BinaryLayout.Atom.Place
import BinaryLayout.Layout.Scalar

/-!
# Reading atoms

The value of an atom that was loaded or allocated, and its readings as a number, a text or bits. A
compound value is read part by part, and the first part that cannot be read gives the error.

## Main definitions

* `Atom.valueAt`: the value of an atom whose path is given.
* `Place.value`, `Place.int`, `Place.uint`, `Place.float`, `Place.text`, `Place.bitmap`.
* `Place.blockSize`: the size that an atom has or will have.
-/

namespace BinaryLayout

variable {κ : Type}

namespace Atom

/-- An error of the atom at a path. -/
def failed {α : Type} (path : Path) (fault : InitializationFault) : Except Error α :=
  .error (.located path (.initialization fault))

def rawAt (path : Path) (content : Content) : Except Error Bytes :=
  match content with
  | .raw bytes => .ok bytes
  | _ => failed path .noScalarContent

/-- The atom can be read: it is not what a null pointer refers to, and it has content. -/
def readable (path : Path) (null : Bool) (content : Content) : Except Error Unit :=
  if null then .error (.located path .nullDereference)
  else if content = .empty then failed path .notInitialized
  else .ok ()

def scalarAt (path : Path) (layout : Layout κ) (content : Content) : Except Error Value :=
  match rawAt path content with
  | .error e => .error e
  | .ok raw =>
    match layout with
    | .text _ =>
      match layout.decode raw with
      | .ok v => .ok v
      | .error e => .error (e.within path)
    | _ => layout.decode raw

mutual

def valueAt (path : Path) : Atom κ → Except Error Value
  | node info content parts =>
    match readable path info.null content with
    | .error e => .error e
    | .ok () =>
      match info.layout, content with
      | .bits _, .bits value => .ok value.toValue
      | .bits (.array ..), .group => (itemsAt path info parts).map .items
      | .bits _, .group => (fieldsAt path info parts).map .fields
      | .bits (.array ..), _ => .ok (.items [])
      | .bits _, _ => .ok (.fields [])
      | .bytes (.record ..), .group => (fieldsAt path info parts).map .fields
      | .bytes (.record ..), _ => .ok (.fields [])
      | .bytes (.union ..), .overlay _ => (fieldsAt path info parts).map .fields
      | .bytes (.union ..), _ => .ok (.fields [])
      | .bytes (.array ..), .group => (itemsAt path info parts).map .items
      | .bytes (.array ..), _ => .ok (.items [])
      | .bytes (.pointer wire _ _), .pointer stored => .ok (wire.toValue stored)
      | .bytes (.pointer ..), _ => failed path .pointerNotLoaded
      | .bytes (.bits ..), .host _ => rootAt path info parts
      | .bytes (.bits ..), _ => failed path .emptyHost
      | .bytes layout, _ => scalarAt path layout content

/-- The values of fields, with their names. -/
def fieldsAt (path : Path) (outer : Info κ) : List (Atom κ) → Except Error (List (String × Value))
  | [] => .ok []
  | a :: as =>
    match valueAt (path ++ [Place.segment outer a.info.name]) a with
    | .error e => .error e
    | .ok v => (fieldsAt path outer as).map ((a.info.name, v) :: ·)

def itemsAt (path : Path) (outer : Info κ) : List (Atom κ) → Except Error (List Value)
  | [] => .ok []
  | a :: as =>
    match valueAt (path ++ [Place.segment outer a.info.name]) a with
    | .error e => .error e
    | .ok v => (itemsAt path outer as).map (v :: ·)

def rootAt (path : Path) (outer : Info κ) : List (Atom κ) → Except Error Value
  | [] => failed path .emptyHost
  | root :: _ => valueAt (path ++ [Place.segment outer root.info.name]) root

end

end Atom

namespace Place

def value (p : Place κ) : Except Error Value := p.atom.valueAt p.path

/-- A problem with the value of this atom. -/
def refuse {α : Type} (p : Place κ) (fault : ValueFault) : Except Error α :=
  .error (.located p.path (.value fault))

/-- The value as an integer that 128 bits of two's complement hold. -/
def int (p : Place κ) : Except Error Int :=
  match p.value with
  | .error e => .error e
  | .ok v =>
    match v.toInt? with
    | some n => .ok n
    | none => p.refuse (.notSigned v.kind)

/-- The value as a number that is not negative. -/
def uint (p : Place κ) : Except Error Nat :=
  match p.value with
  | .error e => .error e
  | .ok v =>
    match v.toNat? with
    | some n => .ok n
    | none => p.refuse (.notUnsigned v.kind)

/-- The value as a number in double precision. -/
def float (p : Place κ) : Except Error Double :=
  match p.value with
  | .error e => .error e
  | .ok v =>
    match v.toDouble? with
    | some x => .ok x
    | none => p.refuse .notNumber

def text (p : Place κ) : Except Error String :=
  match Atom.readable p.path p.atom.info.null p.atom.content with
  | .error e => .error e
  | .ok () =>
    match p.atom.info.layout with
    | .bytes (.text format) =>
      match Atom.rawAt p.path p.atom.content with
      | .error e => .error e
      | .ok raw =>
        match format.decode raw with
        | .ok text => .ok text
        | .error e => .error (e.within p.path)
    | layout => p.refuse (.notText layout.name)

def bitmap (p : Place κ) : Except Error Bitmap :=
  match p.atom.content with
  | .bits value => .ok value
  | _ => p.refuse .notBits

/-- The size that the atom has or will have: the extent forced on it, else the size that its layout
always has, else that of its content. -/
def blockSize (p : Place κ) : Except Error Nat :=
  match p.atom.info.extent? with
  | some extent => .ok extent
  | none =>
    match p.atom.info.layout.staticSize with
    | some size => .ok size
    | none =>
      if p.atom.content = .empty then
        Atom.failed p.path (.unknownSize p.atom.info.layout.name)
      else .ok p.atom.size

end Place

end BinaryLayout
