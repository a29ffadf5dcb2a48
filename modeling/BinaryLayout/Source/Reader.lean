import BinaryLayout.Source.Basic

/-!
# Views that atoms load from

An atom loads from an open source, from bytes that used to stand at some offset, or from a window
that ends either of them early. A view is read at absolute offsets.

## Main definitions

* `Reader`: the views.
* `Reader.seek`, `Reader.consume`, `Reader.store`, `Reader.size?`.
-/

namespace BinaryLayout

/-- A view that atoms load from. -/
inductive Reader where
  /-- An open source. -/
  | source (id : Nat)
  /-- Bytes that stood at `origin` when they were taken. -/
  | detached (data : Array UInt8) (origin cursor : Nat)
  /-- Another view, as far as the offset `limit`. -/
  | window (inner : Reader) (limit cursor : Nat)
  deriving DecidableEq, Repr

namespace Reader

def ofBytes (data : Bytes) (origin : Nat) : Reader := .detached data.toArray origin origin

def detachedEnd (data : Array UInt8) (origin : Nat) : Nat := wrapOffset (origin + data.size)

/-- Moves the cursor and gives its previous place. -/
def seek : Reader → Sources → Nat → Except SourceError Nat × Reader × Sources
  | .source id, sources, offset =>
    let (result, sources) := sources.seek id offset
    (result, .source id, sources)
  | .detached data origin cursor, sources, offset =>
    if offset < origin ∨ detachedEnd data origin < offset then
      (.error (.outOfBounds offset (detachedEnd data origin)), .detached data origin cursor,
        sources)
    else (.ok cursor, .detached data origin offset, sources)
  | .window inner limit cursor, sources, offset =>
    if limit < offset then
      (.error (.outOfBounds offset limit), .window inner limit cursor, sources)
    else
      match inner.seek sources offset with
      | (.ok _, inner, sources) => (.ok cursor, .window inner limit offset, sources)
      | (.error e, inner, sources) => (.error e, .window inner limit cursor, sources)

/-- Reads `amount` bytes at the cursor and moves past them. -/
def consume : Reader → Sources → Nat → Except SourceError Bytes × Reader × Sources
  | .source id, sources, amount =>
    let (result, sources) := sources.consume id amount
    (result, .source id, sources)
  | .detached data origin cursor, sources, amount =>
    match Sources.slice data (cursor - origin) amount cursor with
    | .ok bytes => (.ok bytes, .detached data origin (cursor + amount), sources)
    | .error e => (.error e, .detached data origin cursor, sources)
  | .window inner limit cursor, sources, amount =>
    if limit - cursor < amount then
      (.error (.consume cursor amount (limit - cursor)), .window inner limit cursor, sources)
    else
      match inner.consume sources amount with
      | (.ok bytes, inner, sources) => (.ok bytes, .window inner limit (cursor + amount), sources)
      | (.error e, inner, sources) => (.error e, .window inner limit cursor, sources)

/-- Writes at the cursor and gives the count of bytes written. A window hands this on as it is. -/
def store : Reader → Sources → Bytes → Except SourceError Nat × Reader × Sources
  | .source id, sources, bytes =>
    let (result, sources) := sources.store id bytes
    (result, .source id, sources)
  | .detached data origin cursor, sources, _ =>
    (.error .readOnly, .detached data origin cursor, sources)
  | .window inner limit cursor, sources, bytes =>
    match inner.store sources bytes with
    | (.ok written, inner, sources) => (.ok written, .window inner limit (cursor + written), sources)
    | (.error e, inner, sources) => (.error e, .window inner limit cursor, sources)

/-- The offset just past the view, when it is known. -/
def size? : Reader → Sources → Option Nat
  | .source id, sources => sources.size? id
  | .detached data origin _, _ => some (detachedEnd data origin)
  | .window inner limit _, sources =>
    match inner.size? sources with
    | some size => some (min size limit)
    | none => some limit

end Reader

end BinaryLayout
