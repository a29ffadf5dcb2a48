import BinaryLayout.Atom.Reading
import BinaryLayout.Atom.Walk

/-!
# Summaries

One line for an atom, with its offset, name, layout and a short form of its value, and an indented
list of such lines for an atom and everything below it.

## Main definitions

* `Place.summary`, `Place.dump`, `Place.label`.
-/

namespace BinaryLayout

variable {κ : Type}

/-- The short form of a value, where `size` bytes hold it. Compound values have none. -/
def Value.brief? (size : Nat) : Value → Option String
  | .unsigned n => some ("0x" ++ Hex.digits (max (2 * size) 2) n ++ s!" ({n})")
  | .signed n => some (toString n)
  | .bool b => some (if b then "true" else "false")
  | .float x => some x.text
  | .text s => some (Text.quoted s)
  | .bytes bs => some ("[" ++ Hex.preview bs ++ "]")
  | .bits b => some b.text
  | .fields _ | .items _ => none

namespace Place

/-- Layout, path and offset. -/
def label (p : Place κ) : String :=
  p.atom.info.layout.name ++ " " ++ p.path.text ++ " @" ++ Hex.number p.atom.byteOffset

/-- Offset, name and layout. -/
def heading (p : Place κ) : String :=
  let name := p.atom.info.name
  "[" ++ Hex.number p.atom.byteOffset ++ "] " ++ (if name = "" then "<bits>" else name) ++ " "
    ++ p.atom.info.layout.name

/-- One line: offset, name, layout and a short form of the value. -/
def summary (standard : ByteOrder) (p : Place κ) : String :=
  let info := p.atom.info
  let members := p.atom.members.length
  p.heading ++
    if info.null then " <null>"
    else if !info.initialized then " <uninitialized>"
    else if info.undecodable then " [" ++ Hex.preview (p.serialize standard) ++ "] <undecodable>"
    else if members ≠ 0 ∨ p.atom.referent?.isSome then
      s!" ({p.atom.size} bytes, {members} members)"
    else
      match p.value with
      | .ok v =>
        match v.brief? p.atom.size with
        | some text => " " ++ text
        | none => s!" ({p.atom.size} bytes)"
      | .error e => " <" ++ e.message ++ ">"

/-- The summaries of the atom and everything below it, two blanks further in at each level. -/
def dump (standard : ByteOrder) (p : Place κ) : String :=
  String.join (p.walk.map fun q =>
    "".pushn ' ' (2 * (q.frames.length - p.frames.length)) ++ q.summary standard ++ "\n")

end Place

end BinaryLayout
