import BinaryLayout.Load.Layout
import BinaryLayout.Proofs.Naming.Basic
import BinaryLayout.Proofs.Placement.Basic

/-!
# How atoms are made

Loading and allocating are recursions over layouts with a loop for each kind of layout, of bytes and of
bits. All of them make atoms in the same few steps: a blank atom is refused, gets content without parts, or
gets one part after another, each spawned behind the one before it and made in turn; a part that could not
be completed ends this or is given up. What the rules and the bytes decide is only which of these steps come.

`Makes` says which steps there are. An induction on it is the induction on everything that loads or
allocates, whatever is read and in whichever loop.

## Main definitions

* `Stage`: an atom that is made, or one that gets its parts.
* `Info.Amends`: what is noted about an atom when it is complete.
* `Frame.after`: where the next part stands.
* `Makes`: the steps in which atoms are made.
* `Making`: a computation that makes atoms in these steps.

## Main statements

* `Makes.site`, `Makes.dirty`: what making an atom leaves as it was.
-/

namespace BinaryLayout

variable {κ : Type}

open Atom

/-- What is made. -/
inductive Stage (κ : Type) where
  /-- An atom. -/
  | atom (a : Atom κ)
  /-- The parts that are left of an atom, from the one at `index` on, which is to stand at `cursor`. -/
  | parts (f : Frame κ) (index cursor : Nat)

/-- The atom as it stands. -/
def Stage.top : Stage κ → Atom κ
  | atom a => a
  | parts f _ _ => f.close

/-- Another note about an atom: whether it is complete, its extent, and its tail unless it is one of bits. -/
structure Info.Amends (i j : Info κ) : Prop where
  site : j.site = i.site
  undecodable : j.undecodable = i.undecodable
  dirty : j.dirty = i.dirty
  tail : i.layout.isBits = true → j.tail = i.tail

/-- An atom that stays where it is keeps its path. -/
theorem Place.path_of_site {a b : Atom κ} (h : a.info.site = b.info.site) (frames : List (Frame κ)) :
    path ⟨a, frames⟩ = path ⟨b, frames⟩ :=
  congrArg (pathOnto [] · frames) (Info.name_of_site h)

/-- A blank atom to which an extent was given. -/
theorem Atom.IsBlank.sized {a : Atom κ} (h : a.IsBlank) (extent : Nat) :
    (a.mapInfo fun info => { info with extent? := some extent }).IsBlank := by
  rw [isBlank_iff] at h ⊢
  simpa using h

/-- Where the part after this one stands: behind it, but at the same place among the members of a union. -/
def Frame.after (f : Frame κ) (cursor : Nat) (a : Atom κ) : Nat :=
  match f.content with
  | .overlay _ => cursor
  | _ => satAdd cursor (a.step f.info.layout.isBits)

/-- The number of parts of an atom that is complete, unless it is an array. -/
def AtomLayout.partCount? : AtomLayout κ → Option Nat
  | .bytes (.record _ fields) => some fields.length
  | .bytes (.union _ members _) => some members.length
  | .bytes (.bits ..) => some 1
  | .bits (.record _ fields) => some fields.length
  | .bytes (.array ..) | .bits (.array ..) => none
  | _ => some 0

/-- The bytes of an atom without parts and whether it is marked by them: bytes that were read are, if they
do not decode, and default bytes are not. A pointer has as many bytes as its number needs. -/
structure Layout.Stores (layout : Layout κ) (raw : Bytes) (marked : Bool) : Prop where
  admits : (AtomLayout.bytes layout).admits (layout.stored raw) = true
  marked : marked = layout.isUndecodable raw ∨ marked = false
    ∧ ∃ (config : Config) (frames : List (Frame κ)) (offset : Nat),
      layout.defaultBytes config frames offset = .ok raw
  wire : ∀ format target policy, layout = .pointer format target policy → raw.length = format.width

/-- Out of the ledger `l` the atom was made into this outcome, and the ledger `m` was left. A part that
failed is kept in an atom that fails, or it is given up. -/
inductive Makes : List (Frame κ) → Stage κ → Ledger κ → Outcome κ → Ledger κ → Prop
  | refused (frames : List (Frame κ)) (a : Atom κ) (e : Error) (l : Ledger κ) :
    Makes frames (.atom a) l ⟨a, some e⟩ l
  | leaf {frames : List (Frame κ)} {a : Atom κ} {l : Ledger κ} {layout : Layout κ} {raw : Bytes} {marked : Bool}
    (hlayout : a.info.layout = .bytes layout) (hstores : layout.Stores raw marked) :
    Makes frames (.atom a) l
      ⟨(a.mapInfo fun info => { info with undecodable := marked }).withBytes layout raw, none⟩ l
  | bits {frames : List (Frame κ)} {a : Atom κ} {l : Ledger κ} {width : Nat} {signed : Bool}
    (hlayout : a.info.layout = .bits (.int width signed)) (value : Bitmap) :
    Makes frames (.atom a) l ⟨a.fill (.bits value) [], none⟩ l
  | host {frames : List (Frame κ)} {a : Atom κ} {l m : Ledger κ} {out : Outcome κ} {layout : BitLayout κ}
    {order : ByteOrder} {position : Nat} {pad : Bitmap} (hlayout : a.info.layout = .bytes (.bits layout order))
    (hposition : bitPosition a.info.offset = .ok position) (hpad : pad.Fits out.atom.bitCount)
    (hroot : Makes ((a.fill (.host .empty) []).frame :: frames)
      (.atom (.blank l.take.1 "" (.bits layout) position)) l.take.2 out m) :
    Makes frames (.atom a) l ⟨hostedBits a out.atom pad, out.error?⟩ m
  | sized {frames : List (Frame κ)} {a : Atom κ} {l m : Ledger κ} {out : Outcome κ} (extent : Nat)
    (h : Makes frames (.atom (a.mapInfo fun info => { info with extent? := some extent })) l out m) :
    Makes frames (.atom a) l out m
  | compound {frames : List (Frame κ)} {a : Atom κ} {l m : Ledger κ} {out : Outcome κ} {content : Content}
    (hadmits : a.info.layout.admits content = true)
    (hcontent : content = .group ∨ ∃ backing, content = .overlay backing)
    (h : Makes frames (.parts (a.fill content []).frame 0 a.info.offset) l out m) :
    Makes frames (.atom a) l out m
  | complete {f : Frame κ} {index : Nat} (frames : List (Frame κ)) (cursor : Nat) (l : Ledger κ)
    (hcount : ∀ count, f.info.layout.partCount? = some count → index = count) :
    Makes frames (.parts f index cursor) l ⟨f.close, none⟩ l
  | stopped (frames : List (Frame κ)) (f : Frame κ) (index cursor : Nat) (e : Error) (l : Ledger κ) :
    Makes frames (.parts f index cursor) l ⟨f.close, some e⟩ l
  | next {frames : List (Frame κ)} {f : Frame κ} {index cursor : Nat} {l m n : Ledger κ} {part out : Outcome κ}
    {name : String} {layout : AtomLayout κ} (hdeclares : f.info.layout.Declares index (name, layout))
    (hbits : layout.isBits = f.info.layout.isBits)
    (hpart : Makes (f :: frames) (.atom (.blank l.take.1 name layout cursor)) l.take.2 part m)
    (hrest : Makes frames (.parts (f.push part.atom) (index + 1) (f.after cursor part.atom)) m out n)
    (hdone : out.error? = none → part.error? = none) :
    Makes frames (.parts f index cursor) l out n
  | dropped {frames : List (Frame κ)} {f : Frame κ} {index cursor : Nat} {l m n : Ledger κ}
    {part out : Outcome κ} {name : String} {layout : AtomLayout κ} (hbits : layout.isBits = f.info.layout.isBits)
    (hpart : Makes (f :: frames) (.atom (.blank l.take.1 name layout cursor)) l.take.2 part m)
    (hrest : Makes frames (.parts f index cursor) (m.release part.atom) out n) :
    Makes frames (.parts f index cursor) l out n
  | amended {frames : List (Frame κ)} {stage : Stage κ} {l m : Ledger κ} {a : Atom κ} {change : Info κ → Info κ}
    (hamends : a.info.Amends (change a.info)) (h : Makes frames stage l ⟨a, none⟩ m) :
    Makes frames stage l ⟨a.mapInfo change, none⟩ m
  | failed {frames : List (Frame κ)} {stage : Stage κ} {l m : Ledger κ} {a : Atom κ} (e : Error)
    (h : Makes frames stage l ⟨a, none⟩ m) : Makes frames stage l ⟨a, some e⟩ m
  | warned {frames : List (Frame κ)} {stage : Stage κ} {l m : Ledger κ} {out : Outcome κ} {w : Warning}
    (hpath : w.path = Place.path ⟨out.atom, frames⟩) (h : Makes frames stage l out m) :
    Makes frames stage l out (m.warn w)

namespace Makes

variable {frames : List (Frame κ)} {stage : Stage κ} {f : Frame κ} {a : Atom κ} {l m n : Ledger κ}
  {out part : Outcome κ} {index cursor : Nat} {name : String} {layout : AtomLayout κ}

/-! ## Steps put together -/

theorem ready (h : Makes frames stage l ⟨a, none⟩ m) : Makes frames stage l ⟨a.ready, none⟩ m :=
  .amended ⟨rfl, rfl, rfl, fun _ => rfl⟩ h

theorem withTail (h : Makes frames stage l ⟨a, none⟩ m) (hbits : a.isBits = false) (tail : Bytes) :
    Makes frames stage l ⟨a.withTail tail, none⟩ m :=
  .amended ⟨rfl, rfl, rfl, fun h => absurd h (by rw [← isBits, hbits]; exact Bool.false_ne_true)⟩ h

theorem forceExtent (h : Makes frames stage l ⟨a, none⟩ m) (hbits : a.isBits = false) (config : Config)
    (extent : Nat) : Makes frames stage l ⟨a.forceExtent config extent, none⟩ m :=
  .amended ⟨rfl, rfl, rfl, fun h => absurd h (by rw [← isBits, hbits]; exact Bool.false_ne_true)⟩ h

/-- A part that is the last one that was begun. -/
theorem stop (hdeclares : f.info.layout.Declares index (name, layout))
    (hbits : layout.isBits = f.info.layout.isBits)
    (hpart : Makes (f :: frames) (.atom (.blank l.take.1 name layout cursor)) l.take.2 part m) (e : Error) :
    Makes frames (.parts f index cursor) l ⟨(f.push part.atom).close, some e⟩ m :=
  .next hdeclares hbits hpart (.stopped ..) fun h => by cases h

/-! ## What is left as it was -/

theorem kept (h : Makes frames stage l out m) :
    out.atom.info.site = stage.top.info.site ∧ out.atom.info.dirty = stage.top.info.dirty := by
  induction h with
  | refused | bits | host | complete | stopped => exact ⟨rfl, rfl⟩
  | @leaf _ a =>
    rw [withBytes_eq, info_fill, info_mapInfo]
    exact ⟨rfl, rfl⟩
  | @sized _ a _ _ _ _ _ ih =>
    cases a
    exact ih
  | compound _ _ _ ih => exact ih
  | next _ _ _ _ _ _ ih => exact ih
  | dropped _ _ _ _ ih => exact ih
  | amended hamends _ ih =>
    rw [info_mapInfo, hamends.site, hamends.dirty]
    exact ih
  | failed _ _ ih | warned _ _ ih => exact ih

/-- The atom stays where it is, under its name and with its layout. -/
theorem site (h : Makes frames stage l out m) : out.atom.info.site = stage.top.info.site := h.kept.1

theorem dirty (h : Makes frames stage l out m) : out.atom.info.dirty = stage.top.info.dirty := h.kept.2

end Makes

/-! ## Computations that make atoms -/

/-- However a blank atom comes out, it was made in these steps. -/
def Making {σ : Type} (ledger : σ → Ledger κ) (part : LoadPart (StateM σ) κ) : Prop :=
  ∀ frames a s, a.IsBlank → Ends (part frames a) s fun out t => Makes frames (.atom a) (ledger s) out (ledger t)

/-- An atom that `restarts` is emptied and made anew. Any other one is left as it is. -/
def MakesOver (restarts : Prop) (frames : List (Frame κ)) (a : Atom κ) (l : Ledger κ) (out : Outcome κ)
    (m : Ledger κ) : Prop :=
  restarts ∧ Makes frames (.atom a.cleared) (l.releaseAll a.parts) out m
    ∨ ¬ restarts ∧ m = l ∧ ∃ e, out = ⟨a, some e⟩

theorem nestingLimit_pos : 0 < Layout.nestingLimit := by simp [Layout.nestingLimit]

namespace MakesOver

variable {restarts : Prop} {frames : List (Frame κ)} {a : Atom κ} {l m : Ledger κ} {out : Outcome κ}

theorem refused (h : ¬ restarts) (e : Error) : MakesOver restarts frames a l ⟨a, some e⟩ l :=
  .inr ⟨h, rfl, e, rfl⟩

/-- A blank atom is empty already. -/
theorem of_blank (h : MakesOver restarts frames a l out m) (ha : a.IsBlank) : Makes frames (.atom a) l out m := by
  rcases h with ⟨-, h⟩ | ⟨-, rfl, e, rfl⟩
  · rw [ha.parts] at h
    exact ha ▸ h
  · exact .refused frames a e m

end MakesOver

end BinaryLayout
