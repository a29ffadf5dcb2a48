import BinaryLayout.Bitmap.Packing
import BinaryLayout.Load.Basic

/-!
# Loading bits

A host of bits reads its bytes one at a time, when their first bit is needed, and hands out their
bits in its order. Bits that were handed out are not taken back, also when the atom that wanted them
could not be completed.

## Main definitions

* `BitLoadState`, `BitLoadM`: loading together with the bits left of the last byte.
* `BitLoadM.read`: the next field.
* `BitLoadM.run`: reads bits from a place in a view of bytes.
* `loadBits`: loads an atom of bits.
-/

namespace BinaryLayout

variable {κ : Type}

/-- What loading bits changes. -/
structure BitLoadState (κ : Type) where
  base : LoadState κ
  reader : BitReader
  /-- The offset of the next byte. -/
  next : Nat

abbrev BitLoadM (κ : Type) := StateM (BitLoadState κ)

namespace BitLoadM

def ofLoad {α : Type} (m : LoadM κ α) : BitLoadM κ α :=
  modifyGet fun s =>
    let (result, base) := m s.base
    (result, { s with base })

def ofLedger {α : Type} (m : LedgerM κ α) : BitLoadM κ α := ofLoad (LoadM.ofLedger m)

/-- The error when the byte at `next` cannot be read. -/
def fetchError (next : Nat) : SourceError → Error
  | .consume .. => .consume next 1 0
  | e => .ofSource e

def fetch : BitLoadM κ (Except Error Unit) := do
  match ← ofLoad (LoadM.next 1) with
  | .ok bytes =>
    modify fun s => { s with reader := s.reader.refill (bytes.headD 0), next := s.next + 1 }
    return .ok ()
  | .error e => return .error (fetchError (← get).next e)

/-- Reads a byte when no bit of the last one is left. -/
def ready : BitLoadM κ (Except Error Unit) := do
  if (← get).reader.remaining = 0 then fetch else return .ok ()

/-- Hands out as many of `left` bits as the byte has. -/
def hand (left : Nat) : BitLoadM κ Bitmap :=
  modifyGet fun s =>
    let count := min left s.reader.remaining
    (s.reader.chunk count, { s with reader := s.reader.skip count })

/-- Hands out `left` more bits of a field, from the bytes that they are in. Each byte gives one at
least, so `fuel` for each bit is enough. -/
def readFrom : Nat → Nat → Bitmap → BitLoadM κ (Except Error Bitmap)
  | fuel + 1, left + 1, field => do
    match ← ready with
    | .error e => return .error e
    | .ok () =>
      let piece ← hand (left + 1)
      readFrom fuel (left + 1 - piece.width) ((← get).reader.order.join field piece)
  | _, _, field => return .ok field

def read (width : Nat) : BitLoadM κ (Except Error Bitmap) := readFrom width width .empty

/-- Reads bits from the view's bytes at `offset`, which it stands at, and gives what was left of the
last byte too. -/
def run {α : Type} (order : ByteOrder) (offset : Nat) (m : BitLoadM κ α) : LoadM κ (α × Bitmap) :=
  modifyGet fun base =>
    let (result, s) := m ⟨base, .new order, offset⟩
    ((result, s.reader.pad), s.base)

def bounded : BitLoadM κ Bool := do return (← ofLoad LoadM.viewEnd).isSome

end BitLoadM

open BitLoadM

/-- Loads the fields of a record of bits, from the field at `index` on. -/
def loadBitFields (env : Env κ) (part : LoadPart (BitLoadM κ) κ) (frames : List (Frame κ))
    (f : Frame κ) (index cursor : Nat) :
    List (BitField κ (BitLayout κ)) → BitLoadM κ (Outcome κ)
  | [] => return ⟨f.close.ready, none⟩
  | field :: fields => do
    match env.resolveBits ⟨f.close, frames⟩ index field.layout with
    | .error e => return ⟨f.close, some (e.within [field.name])⟩
    | .ok layout =>
      let blank ← ofLedger (LedgerM.spawn field.name (.bits layout) cursor)
      let out ← part (f :: frames) blank
      let f := f.push out.atom
      match out.error? with
      | some e => return ⟨f.close, some (e.within [field.name])⟩
      | none => loadBitFields env part frames f (index + 1) (satAdd cursor out.atom.bits) fields

/-- The array of bits is complete with `index` elements, whatever they are. -/
def BitShape.isComplete : BitShape κ → Nat → Bool
  | counted count, index => decide (count ≤ index)
  | terminated _, _ => false

/-- The element just loaded, the one of number `count`, completes its array of bits. -/
def BitShape.accepts (env : Env κ) (shape : BitShape κ) (count : Nat) (element : Place κ) : Bool :=
  match shape with
  | .counted _ => false
  | .terminated rule => env.rules.accepts rule env.config count element

/-- Loads the elements of an array of bits, from the element at `index` on, and refuses more than
`budget` further ones. A terminated array ends early where its source does, if the source's size is
known; the element that could not be completed is dropped. -/
def loadBitElements (env : Env κ) (part : LoadPart (BitLoadM κ) κ) (element : BitLayout κ)
    (shape : BitShape κ) (frames : List (Frame κ)) :
    Nat → Frame κ → Nat → Nat → BitLoadM κ (Outcome κ)
  | 0, f, index, _ =>
    if shape.isComplete index then return ⟨f.close.ready, none⟩
    else return ⟨f.close, some (.initialization (.elementLimit env.config.maxElements))⟩
  | budget + 1, f, index, cursor => do
    if shape.isComplete index then return ⟨f.close.ready, none⟩
    let blank ← ofLedger (LedgerM.spawn (toString index) (.bits element) cursor)
    let out ← part (f :: frames) blank
    match out.error?, shape with
    | none, _ =>
      if shape.accepts env (index + 1) ⟨out.atom, f :: frames⟩ then
        return ⟨(f.plug out.atom).ready, none⟩
      loadBitElements env part element shape frames budget (f.push out.atom) (index + 1)
        (satAdd cursor out.atom.bits)
    | some e, .counted _ => return ⟨f.plug out.atom, some (e.within [Path.index index])⟩
    | some e, .terminated _ =>
      if !e.isConsume then return ⟨f.plug out.atom, some (e.within [Path.index index])⟩
      ofLedger (LedgerM.release out.atom)
      if ← bounded then
        ofLedger (LedgerM.warn (.unterminatedArray (Place.path ⟨f.close, frames⟩) index))
        return ⟨f.close.ready, none⟩
      return ⟨f.close, some (e.within [Path.index index])⟩

/-- Loads a blank atom of bits, at most `depth` layouts deep. -/
def loadBits (env : Env κ) : Nat → List (Frame κ) → Atom κ → BitLoadM κ (Outcome κ)
  | 0, _, a => return ⟨a, some (.initialization (.nestingLimit Layout.nestingLimit))⟩
  | depth + 1, frames, a => do
    match a.info.layout with
    | .bytes _ => return ⟨a, some (.initialization .byteAtomAmongBits)⟩
    | .bits (.int bits signed) =>
      match ← BitLoadM.read bits with
      | .error e => return ⟨a, some e⟩
      | .ok value => return ⟨(a.fill (.bits (value.withSign signed)) []).ready, none⟩
    | .bits (.record _ fields) =>
      loadBitFields env (loadBits env depth) frames (a.fill .group []).frame 0 a.info.offset fields
    | .bits (.array element shape) =>
      loadBitElements env (loadBits env depth) element shape frames env.config.maxElements
        (a.fill .group []).frame 0 a.info.offset

end BinaryLayout
