import BinaryLayout.Bytes
import BinaryLayout.Text.Hex

/-!
# Terms

A term is a tree of plain data: numbers, words, sequences, and records with named members. Values
and templates can be given as terms. Reading a term is partial; what is not of the expected form has
no reading.

## Main definitions

* `Term`: the trees.
* `Term.get?`, `Term.optional?`: members of a record.
* `Term.int?`, `Term.text?`, `Term.items?` and others: readings of a term itself.
* `Term.height`: how many levels a term has; it bounds the recursion of readings.
-/

namespace BinaryLayout

/-- Trees of plain data. -/
inductive Term where
  | nothing
  | flag (b : Bool)
  | number (n : Int)
  | word (text : String)
  | sequence (items : List Term)
  | record (members : List (String × Term))
  deriving Inhabited

namespace Term

mutual

def height : Term → Nat
  | sequence items => heights items + 1
  | record members => memberHeights members + 1
  | _ => 1

/-- How many levels the highest of the terms has. -/
def heights : List Term → Nat
  | [] => 0
  | t :: ts => max (height t) (heights ts)

/-- How many levels the highest of the members has. -/
def memberHeights : List (String × Term) → Nat
  | [] => 0
  | (_, t) :: members => max (height t) (memberHeights members)

end

def members? : Term → Option (List (String × Term))
  | record members => some members
  | _ => none

/-- The first member of a name. -/
def get? : Term → String → Option Term
  | record members, name => members.lookup name
  | _, _ => none

/-- The term is a record with a member of this name. -/
def has (t : Term) (name : String) : Bool := (t.get? name).isSome

/-- An integer, given as such or by its decimal digits. -/
def int? : Term → Option Int
  | number n => some n
  | word text => text.toInt?
  | _ => none

def nat? (t : Term) : Option Nat := t.int?.bind Int.toNat?

def flag? : Term → Option Bool
  | flag b => some b
  | _ => none

def text? : Term → Option String
  | word text => some text
  | _ => none

def items? : Term → Option (List Term)
  | sequence items => some items
  | _ => none

def pair? : Term → Option (Term × Term)
  | sequence [a, b] => some (a, b)
  | _ => none

/-- Bytes, given by pairs of hexadecimal digits. -/
def bytes? (t : Term) : Option Bytes := t.text?.bind Hex.ofCompact?

/-- A byte order, given by its short name. -/
def order? (t : Term) : Option ByteOrder :=
  t.text?.bind fun text => [ByteOrder.little, .big].find? fun order => order.suffix = text

def among? {α : Type} (table : List (String × α)) (t : Term) : Option α :=
  t.text?.bind fun text => table.lookup text

/-- The reading of a member that may be missing. A member that is there has to be readable. -/
def optional? {α : Type} (t : Term) (name : String) (read : Term → Option α) :
    Option (Option α) :=
  match t.get? name with
  | none => some none
  | some member => (read member).map some

/-- The first entry of a table whose name is that of a member, with the member. -/
def choose? {α : Type} (t : Term) (table : List (String × α)) : Option (α × Term) :=
  table.findSome? fun entry => (t.get? entry.1).map fun member => (entry.2, member)

end Term

end BinaryLayout
