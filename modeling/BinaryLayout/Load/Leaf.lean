import BinaryLayout.Load.Basic
import BinaryLayout.Layout.Scalar

/-!
# Loading atoms without parts

The bytes of a scalar, a text or a stretch of bytes are read as they are. Two oddities are kept with
a warning: a text whose bytes do not decode, and a constant with other bytes than its own.

## Main definitions

* `LoadM.readVarint`, `LoadM.readText`: bytes whose number is found while they are read.
* `LoadM.readLeaf`: the bytes of any layout without parts.
* `loadLeaf`: loads an atom without parts.
-/

namespace BinaryLayout

variable {κ : Type}

namespace LoadM

/-- Reads groups of seven bits up to the last one, at most `budget` of them. -/
def readGroups : Nat → Bytes → LoadM κ (Except Error Bytes)
  | 0, _ => return .error (.initialization .longVarint)
  | budget + 1, read => do
    match ← next 1 with
    | .error e => return .error (.ofSource e)
    | .ok bytes =>
      if bytes.any Varint.continues then readGroups budget (read ++ bytes)
      else return .ok (read ++ bytes)

/-- Reads a number of seven-bit groups, at most 19 of them. -/
def readVarint (offset : Nat) : LoadM κ (Except Error Bytes) := do
  match ← seekTo offset 1 with
  | .error e => return .error e
  | .ok () => readGroups 19 []

/-- Reads code units up to and with a zero unit, at most `budget` of them. The bytes before them are
`read`, the last one first. -/
def readUnits (unit limit : Nat) : Nat → Bytes → LoadM κ (Except Error Bytes)
  | 0, _ => return .error (.initialization (.unterminatedText limit))
  | budget + 1, read => do
    match ← next unit with
    | .error e => return .error (.ofSource e)
    | .ok bytes =>
      let read := bytes.reverse ++ read
      if bytes.all (· = 0) then return .ok read.reverse
      else readUnits unit limit budget read

/-- Reads a text, with what marks its end. The first unit is read whatever the limit is. -/
def readText (format : TextFormat) (limit offset : Nat) : LoadM κ (Except Error Bytes) := do
  let unit := format.encoding.unit
  match format.length with
  | .counted count =>
    match unitBytes count unit with
    | .error e => return .error e
    | .ok amount => readAt offset amount
  | .terminated =>
    match ← seekTo offset unit with
    | .error e => return .error e
    | .ok () => readUnits unit limit (max limit 1) []
  | .prefixed length =>
    match ← readAt offset length.width with
    | .error e => return .error e
    | .ok front =>
      let count := length.order.readNat front
      if pow2 64 ≤ count then return .error (.initialization .lengthOutOfRange)
      match spanEnd offset length.width, unitBytes count unit with
      | .error e, _ => return .error e
      | _, .error e => return .error e
      | .ok start, .ok amount => return (← readAt start amount).map (front ++ ·)

/-- Reads the bytes of a layout without parts. -/
def readLeaf (config : Config) (frames : List (Frame κ)) (layout : Layout κ) (offset : Nat) :
    LoadM κ (Except Error Bytes) :=
  match layout with
  | .int format => readAt offset format.width
  | .float precision _ => readAt offset precision.width
  | .fixed base _ => readAt offset base.width
  | .varint _ => readVarint offset
  | .text format => readText format config.maxElements offset
  | .block length | .padding length => readAt offset length
  | .constant bytes => readAt offset bytes.length
  | .align alignment => readAt offset (alignPadding frames offset alignment)
  | .pointer wire _ _ => readAt offset wire.width
  | _ => return .error (.initialization .noScalarContent)

end LoadM

/-- The warning that the bytes of a layout call for. -/
def Layout.warning? (layout : Layout κ) (path : Path) (raw : Bytes) : Option Warning :=
  match layout with
  | .text format =>
    match format.decode raw with
    | .ok _ => none
    | .error e => some (.decode path e.message)
  | .constant bytes => if raw = bytes then none else some (.constantMismatch path bytes raw)
  | _ => none

/-- Bytes that were read do not decode under their layout. -/
def Layout.isUndecodable (layout : Layout κ) (raw : Bytes) : Bool :=
  match layout with
  | .text format => !(format.decode raw).isOk
  | _ => false

/-- The atom with the bytes of its layout. -/
def Atom.withBytes (layout : Layout κ) (raw : Bytes) (a : Atom κ) : Atom κ :=
  match layout with
  | .pointer .. => a.fill (.pointer raw) []
  | _ => a.fill (.raw raw) []

def loadLeaf (env : Env κ) (layout : Layout κ) (frames : List (Frame κ)) (a : Atom κ) :
    LoadM κ (Outcome κ) := do
  match ← LoadM.readLeaf env.config frames layout a.info.offset with
  | .error e => return ⟨a, some e⟩
  | .ok raw =>
    match layout.warning? (Place.path ⟨a, frames⟩) raw with
    | some w => LoadM.ofLedger (LedgerM.warn w)
    | none => pure ()
    let a := a.mapInfo fun info => { info with undecodable := layout.isUndecodable raw }
    return ⟨(a.withBytes layout raw).ready, none⟩

end BinaryLayout
