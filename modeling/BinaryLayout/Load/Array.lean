import BinaryLayout.Load.Basic

/-!
# Loading arrays

A counted array has its elements whatever they are. A block array takes as many elements as its
bytes hold and keeps the rest as a tail. An open array, terminated or unending, goes on until its
rule accepts an element or its source ends.

## Main definitions

* `loadCounted`: so many elements.
* `loadBlock`: elements inside an extent, and a tail.
* `loadOpen`: elements up to an accepted one, or up to the end of the source.
-/

namespace BinaryLayout

variable {κ : Type}

/-- Loads `count` elements, from the element at `index` on. -/
def loadCounted (part : LoadPart (LoadM κ) κ) (element : Layout κ) (frames : List (Frame κ)) :
    Nat → Frame κ → Nat → Nat → LoadM κ (Outcome κ)
  | 0, f, _, _ => return ⟨f.close.ready, none⟩
  | count + 1, f, index, cursor => do
    let blank ← LoadM.ofLedger (LedgerM.spawn (toString index) (.bytes element) cursor)
    let out ← part (f :: frames) blank
    let f := f.push out.atom
    match out.error? with
    | some e => return ⟨f.close, some (e.within [Path.index index])⟩
    | none =>
      match spanEnd cursor out.atom.size with
      | .error e => return ⟨f.close, some (e.within [Path.index index])⟩
      | .ok cursor => loadCounted part element frames count f (index + 1) cursor

/-! ## Block arrays -/

/-- The layout of the next element when `remaining` bytes are left, if there is one. An element of
known size that does not fit is left out; only a plain block is cut short instead. -/
def nextInBlock (element : Layout κ) (remaining : Nat) : Option (Layout κ) :=
  match element.staticSize with
  | none => some element
  | some 0 => none
  | some size =>
    if size ≤ remaining then some element
    else if element.isBlock then some (.block remaining)
    else none

/-- Where the elements of a block array end, and the error that ended them, if one did. -/
structure BlockOutcome (κ : Type) where
  atom : Atom κ
  cursor : Nat
  error? : Option Error := none

/-- Loads elements that end at `limit` at the latest, from the element at `index` on. An element of
unknown size that runs out of bytes is dropped, and one without bytes is the last. Every other
element takes a byte at least, so `fuel` for each byte is enough. -/
def loadBlockElements (part : LoadPart (LoadM κ) κ) (element : Layout κ) (limit : Nat)
    (frames : List (Frame κ)) :
    Nat → Frame κ → Nat → Nat → LoadM κ (BlockOutcome κ)
  | 0, f, _, cursor => return ⟨f.close, cursor, none⟩
  | fuel + 1, f, index, cursor => do
    if limit ≤ cursor then return ⟨f.close, cursor, none⟩
    match nextInBlock element (limit - cursor) with
    | none => return ⟨f.close, cursor, none⟩
    | some layout =>
      let blank ← LoadM.ofLedger (LedgerM.spawn (toString index) (.bytes layout) cursor)
      let out ← LoadM.inWindow limit (part (f :: frames) blank)
      match out.error? with
      | some e =>
        if e.isConsume ∧ element.staticSize = none then
          LoadM.ofLedger (LedgerM.release out.atom)
          return ⟨f.close, cursor, none⟩
        return ⟨f.plug out.atom, cursor, some (e.within [Path.index index])⟩
      | none =>
        let f := f.push out.atom
        if out.atom.size = 0 then return ⟨f.close, cursor, none⟩
        match spanEnd cursor out.atom.size with
        | .error e => return ⟨f.close, cursor, some (e.within [Path.index index])⟩
        | .ok cursor => loadBlockElements part element limit frames fuel f (index + 1) cursor

/-- Loads a block array of `extent` bytes. What its elements leave becomes the tail. -/
def loadBlock (part : LoadPart (LoadM κ) κ) (element : Layout κ) (extent : Nat)
    (frames : List (Frame κ)) (a : Atom κ) : LoadM κ (Outcome κ) := do
  match spanEnd a.info.offset extent with
  | .error e => return ⟨a, some e⟩
  | .ok limit =>
    let out ← loadBlockElements part element limit frames extent a.frame 0 a.info.offset
    match out.error? with
    | some e => return ⟨out.atom, some e⟩
    | none =>
      if limit ≤ out.cursor then return ⟨out.atom.ready, none⟩
      match ← LoadM.readAt out.cursor (limit - out.cursor) with
      | .error e => return ⟨out.atom, some e⟩
      | .ok tail =>
        let a := out.atom.withTail tail
        LoadM.ofLedger (LedgerM.warn (.leftover (Place.path ⟨a, frames⟩) tail.length))
        return ⟨a.ready, none⟩

/-! ## Open arrays -/

/-- An unending array whose view ends at `viewEnd?` has no element at `cursor`. -/
def endsAt (rule? : Option κ) (viewEnd? : Option Nat) (cursor : Nat) : Bool :=
  rule?.isNone && viewEnd?.any fun size => decide (size ≤ cursor)

/-- The element just loaded, the one of number `count`, is the last: the rule accepts it, or it is
an unending array's element without bytes. -/
def isLast (env : Env κ) (rule? : Option κ) (count : Nat) (element : Place κ) : Bool :=
  match rule? with
  | some rule => env.rules.accepts rule env.config count element
  | none => element.atom.size == 0

/-- Loads elements from the one at `index` on, and refuses more than `budget` further ones. There is
a rule for a terminated array and none for an unending one. An element that runs out of bytes is
dropped and ends the array, with a warning if the array is terminated; but a terminated array whose
source has no known size fails. -/
def loadOpen (env : Env κ) (part : LoadPart (LoadM κ) κ) (element : Layout κ) (rule? : Option κ)
    (frames : List (Frame κ)) :
    Nat → Frame κ → Nat → Nat → LoadM κ (Outcome κ)
  | 0, f, _, _ => return ⟨f.close, some (.initialization (.elementLimit env.config.maxElements))⟩
  | budget + 1, f, index, cursor => do
    if endsAt rule? (← LoadM.viewEnd) cursor then return ⟨f.close.ready, none⟩
    let blank ← LoadM.ofLedger (LedgerM.spawn (toString index) (.bytes element) cursor)
    let out ← part (f :: frames) blank
    match out.error? with
    | some e =>
      if !e.isConsume then return ⟨f.plug out.atom, some (e.within [Path.index index])⟩
      LoadM.ofLedger (LedgerM.release out.atom)
      if rule?.isNone then return ⟨f.close.ready, none⟩
      if (← LoadM.viewEnd).isSome then
        LoadM.ofLedger (LedgerM.warn (.unterminatedArray (Place.path ⟨f.close, frames⟩) index))
        return ⟨f.close.ready, none⟩
      return ⟨f.close, some (e.within [Path.index index])⟩
    | none =>
      match spanEnd cursor out.atom.size with
      | .error e => return ⟨f.plug out.atom, some (e.within [Path.index index])⟩
      | .ok cursor =>
        if isLast env rule? (index + 1) ⟨out.atom, f :: frames⟩ then
          return ⟨(f.plug out.atom).ready, none⟩
        loadOpen env part element rule? frames budget (f.push out.atom) (index + 1) cursor

end BinaryLayout
