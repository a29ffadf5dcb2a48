import BinaryLayout.Atom.Basic

/-!
# Places

A place is an atom together with everything around it, up to the outermost atom: for each enclosing
atom, its info and its other parts on either side. From a place one can go out to the enclosing atom
and in to a part, and nothing is lost on the way.

A written path such as `header.entries[3].name` leads from a place to one below it.

## Main definitions

* `Frame`, `Place`: an enclosing atom with a gap, and an atom with its frames, innermost first.
* `Place.up?`, `Place.down?`, `Place.root`: the moves.
* `Place.path`: the path from the outermost atom.
* `Place.member?`, `Place.memberNamed?`, `Place.lookup`: named and indexed members.

## Main statements

* `Place.up?_down?`: going in and out again leads back.
* `Place.root_up?`, `Place.root_down?`: no move leaves the outermost atom.
-/

namespace BinaryLayout

variable {κ : Type}

/-- An enclosing atom without one of its parts. -/
structure Frame (κ : Type) where
  info : Info κ
  content : Content
  /-- The parts before the gap, the nearest first. -/
  left : List (Atom κ)
  /-- The parts after the gap. -/
  right : List (Atom κ)

/-- The atom with its gap filled. -/
def Frame.plug (f : Frame κ) (a : Atom κ) : Atom κ :=
  .node f.info f.content (f.left.reverseAux (a :: f.right))

/-- The atom with its gap closed. -/
def Frame.close (f : Frame κ) : Atom κ := .node f.info f.content (f.left.reverseAux f.right)

/-- The frame with one more part before the gap. -/
def Frame.push (f : Frame κ) (a : Atom κ) : Frame κ := { f with left := a :: f.left }

/-- An atom in its surroundings. -/
structure Place (κ : Type) where
  atom : Atom κ
  /-- The enclosing atoms, innermost first. -/
  frames : List (Frame κ)

@[simp] theorem Frame.info_plug (f : Frame κ) (a : Atom κ) : (f.plug a).info = f.info := rfl

@[simp] theorem Frame.content_plug (f : Frame κ) (a : Atom κ) :
    (f.plug a).content = f.content := rfl

@[simp] theorem Frame.parts_plug (f : Frame κ) (a : Atom κ) :
    (f.plug a).parts = f.left.reverse ++ a :: f.right := List.reverseAux_eq

/-- A part before a closed gap stands where it did in the gap. -/
theorem Frame.close_push (f : Frame κ) (a : Atom κ) : (f.push a).close = f.plug a := rfl

/-- The frame that new parts of an atom stand in. -/
def Atom.frame (a : Atom κ) : Frame κ := ⟨a.info, a.content, a.parts.reverse, []⟩

/-- Without a new part the frame is the atom. -/
theorem Atom.close_frame (a : Atom κ) : a.frame.close = a := by
  cases a
  simp [frame, Frame.close, List.reverseAux_eq]

/-- A part in the frame of new parts is the last one. -/
theorem Atom.plug_frame (a part : Atom κ) : a.frame.plug part = a.push part := by
  simp [frame, Frame.plug, push, List.reverseAux_eq]

namespace Place

def up? (p : Place κ) : Option (Place κ) :=
  match p.frames with
  | [] => none
  | f :: frames => some ⟨f.plug p.atom, frames⟩

def down? (p : Place κ) (i : Nat) : Option (Place κ) :=
  match p.atom.parts.drop i with
  | [] => none
  | a :: right =>
    some ⟨a, ⟨p.atom.info, p.atom.content, (p.atom.parts.take i).reverse, right⟩ :: p.frames⟩

def next? (p : Place κ) : Option (Place κ) :=
  match p.frames with
  | [] => none
  | f :: frames =>
    match f.right with
    | [] => none
    | a :: right => some ⟨a, { f with left := p.atom :: f.left, right } :: frames⟩

def assemble (a : Atom κ) : List (Frame κ) → Atom κ
  | [] => a
  | f :: frames => assemble (f.plug a) frames

def root (p : Place κ) : Place κ := ⟨assemble p.atom p.frames, []⟩

/-- The parts from one on, after the parts `left`, the nearest first. -/
def partsAmong (frames : List (Frame κ)) (info : Info κ) (content : Content)
    (left : List (Atom κ)) : List (Atom κ) → List (Place κ)
  | [] => []
  | a :: right =>
    ⟨a, ⟨info, content, left, right⟩ :: frames⟩
      :: partsAmong frames info content (a :: left) right

def parts (p : Place κ) : List (Place κ) :=
  partsAmong p.frames p.atom.info p.atom.content [] p.atom.parts

/-! ## Paths -/

/-- The segment that a part adds to the path of the atom around it. -/
def segment (outer : Info κ) (name : String) : String :=
  if outer.layout.isArray then Path.element name else name

/-- The path from the outermost atom to one of the given name inside the frames, with `inner` after
it. -/
def pathOnto (inner : Path) (name : String) : List (Frame κ) → Path
  | [] => name :: inner
  | f :: frames => pathOnto (segment f.info name :: inner) f.info.name frames

def path (p : Place κ) : Path := pathOnto [] p.atom.info.name p.frames

/-- The segment of the atom inside what directly encloses it. -/
def ownSegment (p : Place κ) : String :=
  match p.frames with
  | [] => p.atom.info.name
  | f :: _ => segment f.info p.atom.info.name

/-! ## Ancestors -/

def ancestorsOf (a : Atom κ) : List (Frame κ) → List (Place κ)
  | [] => []
  | f :: frames => ⟨f.plug a, frames⟩ :: ancestorsOf (f.plug a) frames

def ancestors (p : Place κ) : List (Place κ) := ancestorsOf p.atom p.frames

/-- The nearest enclosing atom whose layout has the given name. -/
def ancestorNamed? (p : Place κ) (layoutName : String) : Option (Place κ) :=
  p.ancestors.find? fun a => a.atom.info.layout.name == layoutName

/-- The order in which an atom of bits packs them: that of the host around it. -/
def bitOrder (p : Place κ) (standard : ByteOrder) : ByteOrder :=
  ((p.atom.info.layout.bitOrder?).orElse fun _ =>
    p.frames.findSome? fun f => f.info.layout.bitOrder?).getD standard

def serialize (p : Place κ) (standard : ByteOrder) : Bytes :=
  p.atom.serialize (p.bitOrder standard)

/-! ## Members -/

/-- The field, element or union member at `i`. A host of bits has those of its root. -/
def member? (p : Place κ) (i : Nat) : Option (Place κ) :=
  match p.atom.content with
  | .group | .overlay _ => p.down? i
  | .host _ =>
    match p.down? 0 with
    | some root =>
      match root.atom.content with
      | .group | .overlay _ => root.down? i
      | _ => none
    | none => none
  | _ => none

/-- The parts, if they are fields, elements or union members. -/
def ownMembers (p : Place κ) : List (Place κ) :=
  match p.atom.content with
  | .group | .overlay _ => p.parts
  | _ => []

/-- Fields, elements or union members, in order. A host of bits has those of its root. -/
def members (p : Place κ) : List (Place κ) :=
  match p.atom.content with
  | .host _ => ((p.down? 0).map ownMembers).getD []
  | _ => p.ownMembers

/-- The index of the first member of a name. -/
def indexOf? (a : Atom κ) (name : String) : Option Nat :=
  a.members.findIdx? fun m => m.info.name == name

/-- The first member of a name. -/
def memberNamed? (p : Place κ) (name : String) : Option (Place κ) :=
  (indexOf? p.atom name).bind p.member?

/-- What a pointer refers to, when it was followed. -/
def referent? (p : Place κ) : Option (Place κ) :=
  match p.atom.content with
  | .pointer _ => p.down? 0
  | _ => none

/-- The member of a name, or an error at this place. -/
def field (p : Place κ) (name : String) : Except Error (Place κ) :=
  match p.memberNamed? name with
  | some m => .ok m
  | none => .error ((Error.notFound name).within p.path)

/-- The member at `i`, or an error at this place. -/
def item (p : Place κ) (i : Nat) : Except Error (Place κ) :=
  match p.member? i with
  | some m => .ok m
  | none => .error ((Error.notFound (Path.index i)).within p.path)

/-! ## Written paths -/

/-- A list of characters cut at every `separator`. -/
def cut (separator : Char) : List Char → List (List Char)
  | [] => [[]]
  | c :: cs =>
    if c = separator then [] :: cut separator cs
    else
      match cut separator cs with
      | piece :: rest => (c :: piece) :: rest
      | [] => [[c]]

/-- The pieces between separators that are not empty. -/
def pieces (separator : Char) (text : List Char) : List (List Char) :=
  (cut separator text).filter fun piece => !piece.isEmpty

/-- The number that decimal digits stand for, if it fits into 64 bits. A plus may stand in front. -/
def readIndex? (text : List Char) : Option Nat :=
  let digits := match text with
    | '+' :: rest => rest
    | _ => text
  if digits.isEmpty ∨ ¬ digits.all Char.isDigit then none
  else word? (digits.foldl (fun n c => 10 * n + (c.toNat - '0'.toNat)) 0)

/-- Follows the index segments of one piece of a path. -/
def followIndices (segment : List Char) (p : Place κ) : List (List Char) → Except Error (Place κ)
  | [] => .ok p
  | text :: rest =>
    match readIndex? (text.reverse.dropWhile (· = ']')).reverse with
    | none => .error (.value (.badIndex (String.ofList segment)))
    | some i =>
      match p.item i with
      | .ok m => followIndices segment m rest
      | .error e => .error e

/-- Follows one piece of a path: a name, if there is one, and then indices. -/
def followPiece (p : Place κ) (piece : List Char) : Except Error (Place κ) :=
  let name := piece.takeWhile (· ≠ '[')
  let indices := pieces '[' (piece.dropWhile (· ≠ '['))
  if name.isEmpty then followIndices piece p indices
  else
    match p.field (String.ofList name) with
    | .ok m => followIndices piece m indices
    | .error e => .error e

def followPieces (p : Place κ) : List (List Char) → Except Error (Place κ)
  | [] => .ok p
  | piece :: rest =>
    match p.followPiece piece with
    | .ok m => followPieces m rest
    | .error e => .error e

/-- The place that a written path leads to. -/
def lookup (p : Place κ) (path : String) : Except Error (Place κ) :=
  p.followPieces (pieces '.' path.toList)

/-- Going in and out again leads back. -/
theorem up?_down? {p q : Place κ} {i : Nat} (h : p.down? i = some q) : q.up? = some p := by
  obtain ⟨⟨info, content, parts⟩, frames⟩ := p
  simp only [down?, Atom.parts_node, Atom.info_node, Atom.content_node] at h
  split at h
  · simp at h
  · rename_i a right hdrop
    cases h
    simp only [up?, Frame.plug, List.reverseAux_eq, List.reverse_reverse, ← hdrop,
      List.take_append_drop]

@[simp] theorem root_mk (a : Atom κ) : root ⟨a, []⟩ = ⟨a, []⟩ := rfl

/-- Going out does not leave the outermost atom. -/
theorem root_up? {p q : Place κ} (h : p.up? = some q) : q.root = p.root := by
  obtain ⟨a, _ | ⟨f, frames⟩⟩ := p
  · simp [up?] at h
  · simp only [up?, Option.some.injEq] at h
    subst h
    rfl

/-- Going in does not leave the outermost atom. -/
theorem root_down? {p q : Place κ} {i : Nat} (h : p.down? i = some q) : q.root = p.root :=
  (root_up? (up?_down? h)).symm

end Place

end BinaryLayout
