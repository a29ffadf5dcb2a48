import BinaryLayout.Source.Device

/-!
# Byte sources

A source is a positioned store of bytes with a cursor of its own. Reading gives exactly the bytes
that were asked for, or fails with the count of those that are there; a failed read leaves the
cursor alone.

Sources that were opened together form a collection, because a proxy is a window of another source
and moves that source's cursor when it reads. A source is numbered by how many were opened before
it, and a proxy's parent is among those.

## Main definitions

* `Source`: bytes in memory, no bytes, a window of an older source, or a device.
* `Sources`: the open sources, newest first.
* `Sources.seek`, `Sources.consume`, `Sources.store`, `Sources.size?`.
-/

namespace BinaryLayout

/-- A positioned store of bytes. -/
inductive Source where
  /-- Bytes held in memory; a write past the end makes them longer. -/
  | memory (data : Array UInt8) (writable : Bool) (cursor : Nat)
  /-- No bytes at all. -/
  | empty
  /-- The `length` bytes of source `parent` from `base` on, addressed from zero. -/
  | proxy (parent base length cursor : Nat)
  | device (device : Device)
  deriving DecidableEq, Repr

/-- Offsets are 64-bit words, so sums of offsets wrap. -/
def wrapOffset (n : Nat) : Nat := n % pow2 64

namespace Source

/-- Moves the cursor and gives its previous place. -/
def seek (s : Source) (offset : Nat) : Except SourceError Nat × Source :=
  match s with
  | memory data writable cursor =>
    if data.size < offset then (.error (.outOfBounds offset data.size), s)
    else (.ok cursor, memory data writable offset)
  | empty => if 0 < offset then (.error (.outOfBounds offset 0), s) else (.ok 0, s)
  | proxy parent base length cursor =>
    if length < offset then (.error (.outOfBounds offset length), s)
    else (.ok cursor, proxy parent base length offset)
  | device d =>
    let (result, d) := d.seek offset
    (result, device d)

/-- Moves the cursor to `target?`, if there is one. -/
def move (s : Source) (target? : Option Nat) : Except SourceError Nat × Source :=
  match target? with
  | some offset => s.seek offset
  | none => (.ok 0, s)

def size? : Source → Option Nat
  | memory data _ _ => some data.size
  | empty => some 0
  | proxy _ _ length _ => some length
  | device d => d.size?

/-- How many reads a device has served; other sources do not count them. -/
def reads : Source → Nat
  | device d => d.reads
  | _ => 0

end Source

/-- A failed read as reported by a window whose cursor is at `cursor`. -/
def SourceError.movedTo (cursor : Nat) : SourceError → SourceError
  | consume _ desired got => consume cursor desired got
  | e => e

abbrev Sources := List Source

namespace Sources

/-- The error of a source that is not open. -/
def notOpen : SourceError := .io "no such source"

/-- The `amount` bytes of `data` from `offset` on, or an error at the place `cursor`. -/
def slice (data : Array UInt8) (offset amount cursor : Nat) : Except SourceError Bytes :=
  if offset + amount ≤ data.size then .ok (data.extract offset (offset + amount)).toList
  else .error (.consume cursor amount (data.size - offset))

/-- The collection with source `id` replaced by what `change` makes of it, and the result. -/
def update {α : Type} (change : Source → Except SourceError α × Source) :
    Sources → Nat → Except SourceError α × Sources
  | [], _ => (.error notOpen, [])
  | s :: older, id =>
    if id = older.length then
      let (result, s) := change s
      (result, s :: older)
    else
      let (result, older) := update change older id
      (result, s :: older)

/-- Moves the cursor of source `id` and gives its previous place. -/
def seek (sources : Sources) (id offset : Nat) : Except SourceError Nat × Sources :=
  sources.update (·.seek offset) id

/-- Reads `amount` bytes of source `id`, at `target?` if that is given and at the cursor otherwise,
and moves past them. -/
def read : Sources → Nat → Option Nat → Nat → Except SourceError Bytes × Sources
  | [], _, _, _ => (.error notOpen, [])
  | s :: older, id, target?, amount =>
    if id = older.length then
      match s.move target? with
      | (.error e, s) => (.error e, s :: older)
      | (.ok _, .memory data writable cursor) =>
        match slice data cursor amount cursor with
        | .ok bytes => (.ok bytes, .memory data writable (cursor + amount) :: older)
        | .error e => (.error e, .memory data writable cursor :: older)
      | (.ok _, .empty) =>
        if amount = 0 then (.ok [], .empty :: older)
        else (.error (.consume 0 amount 0), .empty :: older)
      | (.ok _, .proxy parent base length cursor) =>
        if length - cursor < amount then
          (.error (.consume cursor amount (length - cursor)),
            .proxy parent base length cursor :: older)
        else
          match read older parent (some (wrapOffset (base + cursor))) amount with
          | (.ok bytes, older) =>
            (.ok bytes, .proxy parent base length (cursor + amount) :: older)
          | (.error e, older) =>
            (.error (e.movedTo cursor), .proxy parent base length cursor :: older)
      | (.ok _, .device d) =>
        let (result, d) := d.consume amount
        (result, .device d :: older)
    else
      let (result, older) := read older id target? amount
      (result, s :: older)

/-- Reads `amount` bytes at the cursor of source `id` and moves past them. -/
def consume (sources : Sources) (id amount : Nat) : Except SourceError Bytes × Sources :=
  sources.read id none amount

/-- Writes to source `id`, at `target?` if that is given and at the cursor otherwise, and gives the
count of bytes written. -/
def write : Sources → Nat → Option Nat → Bytes → Except SourceError Nat × Sources
  | [], _, _, _ => (.error notOpen, [])
  | s :: older, id, target?, bytes =>
    if id = older.length then
      match s.move target? with
      | (.error e, s) => (.error e, s :: older)
      | (.ok _, .memory data writable cursor) =>
        if writable then
          (.ok bytes.length,
            .memory (Device.written data cursor bytes) writable (cursor + bytes.length) :: older)
        else (.error .readOnly, .memory data writable cursor :: older)
      | (.ok _, .empty) => (.error .readOnly, .empty :: older)
      | (.ok _, .proxy parent base length cursor) =>
        if length - cursor < bytes.length then
          (.error (.store cursor bytes.length 0), .proxy parent base length cursor :: older)
        else
          match write older parent (some (wrapOffset (base + cursor))) bytes with
          | (.ok written, older) =>
            (.ok written, .proxy parent base length (cursor + written) :: older)
          | (.error e, older) => (.error e, .proxy parent base length cursor :: older)
      | (.ok _, .device d) =>
        let (result, d) := d.store bytes
        (result, .device d :: older)
    else
      let (result, older) := write older id target? bytes
      (result, s :: older)

/-- Writes at the cursor of source `id` and gives the count of bytes written. -/
def store (sources : Sources) (id : Nat) (bytes : Bytes) : Except SourceError Nat × Sources :=
  sources.write id none bytes

def source? (sources : Sources) (id : Nat) : Option Source := sources.reverse[id]?

/-- The size of source `id`, when it is known. -/
def size? (sources : Sources) (id : Nat) : Option Nat := (sources.source? id).bind Source.size?

/-- How many reads source `id` has served. -/
def reads (sources : Sources) (id : Nat) : Nat := ((sources.source? id).map Source.reads).getD 0

/-- The whole content of source `id`, read from its start; the cursor is put back. None for a source
of unknown size. -/
def content (sources : Sources) (id : Nat) : Except SourceError (Option Bytes) × Sources :=
  match sources.size? id with
  | none => (.ok none, sources)
  | some size =>
    match sources.seek id 0 with
    | (.error e, sources) => (.error e, sources)
    | (.ok previous, sources) =>
      let (bytes, sources) := sources.consume id size
      match sources.seek id previous with
      | (.error e, sources) => (.error e, sources)
      | (.ok _, sources) => (bytes.map some, sources)

end Sources

end BinaryLayout
