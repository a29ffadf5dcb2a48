import Mathlib.Algebra.GroupWithZero.Nat
import BinaryLayout.Allocate.Layout
import BinaryLayout.Proofs.Run
import BinaryLayout.Proofs.Tree.Shape

/-!
# The account of handles

Every handle that was ever made is either that of exactly one atom or free. Handles move between
atoms and the list of free ones, one at a time and in the middle of computations that may stop
anywhere, so what is kept is an equation: for each handle, the number of atoms that have it, and of
its places on the free list, less one if it was made.

## Main definitions

* `Atom.tally`, `Frame.tally`: how often a handle occurs in a tree, and around a gap.
* `Ledger.balance`: how often a handle is free, less one if it was made.
* `Arrives`: an atom that was spawned from a ledger, and what it became.
* `Accounts`: what becomes of an atom and the ledger when handles are neither lost nor doubled.

## Main statements

* `Ends.spawn`, `Ledger.balance_release`: a handle handed out, and those of a tree taken back.
* `Arrives.push`: an atom that came, put among the parts of another.
-/

namespace BinaryLayout

variable {κ : Type}

/-! ## Tallies -/

namespace Atom

mutual

/-- How many atoms of the tree have the handle. -/
def tally (h : Nat) : Atom κ → Nat
  | .node info _ parts => (if info.id = h then 1 else 0) + tallies h parts

/-- How many atoms of the trees have the handle. -/
def tallies (h : Nat) : List (Atom κ) → Nat
  | [] => 0
  | a :: as => tally h a + tallies h as

end

theorem tally_eq (h : Nat) (a : Atom κ) :
    a.tally h = (if a.info.id = h then 1 else 0) + tallies h a.parts := by
  cases a
  rfl

@[simp] theorem tallies_append (h : Nat) (as bs : List (Atom κ)) :
    tallies h (as ++ bs) = tallies h as + tallies h bs := by
  induction as with
  | nil => simp [tallies]
  | cons a as ih => simp [tallies, ih, Nat.add_assoc]

@[simp] theorem tallies_reverse (h : Nat) (as : List (Atom κ)) :
    tallies h as.reverse = tallies h as := by
  induction as with
  | nil => rfl
  | cons a as ih => simp [tallies, ih, Nat.add_comm]

/-- Only the handle and the parts matter. -/
theorem tally_congr {h : Nat} {a b : Atom κ} (hid : b.info.id = a.info.id)
    (hp : tallies h b.parts = tallies h a.parts) : b.tally h = a.tally h := by
  rw [tally_eq, tally_eq, hid, hp]

/-- Flags and a tail do not matter. -/
theorem tally_mapInfo {h : Nat} {a : Atom κ} {change : Info κ → Info κ}
    (hsite : (change a.info).site = a.info.site) : (a.mapInfo change).tally h = a.tally h :=
  tally_congr (by rw [info_mapInfo, Info.id_of_site hsite]) (by rw [parts_mapInfo])

theorem tally_fill (h : Nat) (content : Content) (parts : List (Atom κ)) (a : Atom κ) :
    (a.fill content parts).tally h = (if a.info.id = h then 1 else 0) + tallies h parts :=
  tally_eq h _

/-- An atom without parts has one handle. -/
theorem tally_of_parts {h : Nat} {a : Atom κ} (hp : a.parts = []) :
    a.tally h = if a.info.id = h then 1 else 0 := by
  rw [tally_eq, hp]
  rfl

end Atom

namespace Frame

open Atom

/-- How often the handle occurs around the gap. -/
def tally (h : Nat) (f : Frame κ) : Nat :=
  (if f.info.id = h then 1 else 0) + tallies h f.left + tallies h f.right

@[simp] theorem tally_plug (h : Nat) (f : Frame κ) (a : Atom κ) :
    (f.plug a).tally h = f.tally h + a.tally h := by
  rw [Atom.tally_eq, parts_plug, info_plug]
  simp only [tallies_append, tallies_reverse, tallies, tally]
  omega

@[simp] theorem tally_close (h : Nat) (f : Frame κ) : f.close.tally h = f.tally h := by
  rw [Atom.tally_eq, parts_close, info_close]
  simp only [tallies_append, tallies_reverse, tally]
  omega

@[simp] theorem tally_push (h : Nat) (f : Frame κ) (a : Atom κ) :
    (f.push a).tally h = f.tally h + a.tally h := by
  have hl : (f.push a).tally h =
      (if f.info.id = h then 1 else 0) + (a.tally h + tallies h f.left) + tallies h f.right := rfl
  rw [hl, tally]
  omega

end Frame

/-- How often the handle occurs around an atom. -/
def Frame.tallies (h : Nat) (frames : List (Frame κ)) : Nat := (frames.map (Frame.tally h)).sum

theorem Place.tally_assemble (h : Nat) (a : Atom κ) (frames : List (Frame κ)) :
    (Place.assemble a frames).tally h = a.tally h + Frame.tallies h frames := by
  induction frames generalizing a with
  | nil => simp [assemble, Frame.tallies]
  | cons f frames ih =>
    rw [assemble, ih]
    simp only [Frame.tally_plug, Frame.tallies, List.map_cons, List.sum_cons]
    omega

/-- The outermost site does not depend on what stands further in. -/
theorem Place.site_assemble_of {a b : Atom κ} (h : a.info.site = b.info.site)
    (frames : List (Frame κ)) :
    (assemble a frames).info.site = (assemble b frames).info.site := by
  induction frames generalizing a b with
  | nil => exact h
  | cons f frames ih => exact ih rfl

/-! ## Balances -/

namespace Ledger

/-- How often the handle is free, less one if it was made. -/
def balance (h : Nat) (l : Ledger κ) : Int :=
  ((l.vacant.map fun a => a.info.id).count h : Int) - if h < l.made then 1 else 0

/-- A handle that is handed out is no longer free. -/
theorem balance_take (h : Nat) (l : Ledger κ) :
    (if l.take.1 = h then 1 else 0) + l.take.2.balance h = l.balance h := by
  obtain ⟨made, vacant, warnings⟩ := l
  cases vacant with
  | nil => grind [take, balance]
  | cons a vacant => grind [take, balance]

mutual

/-- The handles of a tree that is taken back become free. -/
theorem balance_release (h : Nat) : ∀ (a : Atom κ) (l : Ledger κ),
    (release a l).balance h = l.balance h + a.tally h
  | .node info content parts, l => by
    have hparts := balance_releaseAll h parts l
    simp only [release, balance, Atom.tally, blankAfter, Atom.blank, Atom.info_node, List.map_cons,
      List.count_cons, beq_iff_eq, made_releaseAll] at hparts ⊢
    split <;> omega

/-- The handles of trees that are taken back become free. -/
theorem balance_releaseAll (h : Nat) : ∀ (as : List (Atom κ)) (l : Ledger κ),
    (releaseAll as l).balance h = l.balance h + Atom.tallies h as
  | [], l => by simp [releaseAll, Atom.tallies]
  | a :: as, l => by
    simp only [releaseAll, Atom.tallies, balance_releaseAll h as, balance_release h a]
    omega

end

end Ledger

/-! ## Atoms that come and atoms that change -/

/-- The atom `a` with the ledger `m` came out of the ledger `l`: it is well shaped, it is measured
in bits or in bytes, and its handles are those that `l` has and `m` has not. -/
structure Arrives (l : Ledger κ) (inBits : Bool) (a : Atom κ) (m : Ledger κ) : Prop where
  shaped : Atom.Everywhere Atom.Shaped a
  isBits : a.isBits = inBits
  balance : ∀ h, a.tally h + m.balance h = l.balance h

/-- The atom `b` with the ledger `m` came out of the atom `a` with the ledger `l`: it stands at the
same site, it is well shaped, and no handle was lost or doubled. -/
structure Accounts (a : Atom κ) (l : Ledger κ) (b : Atom κ) (m : Ledger κ) : Prop where
  site : b.info.site = a.info.site
  shaped : Atom.Everywhere Atom.Shaped b
  balance : ∀ h, b.tally h + m.balance h = a.tally h + l.balance h

/-- A new atom is blank and has a handle that was free or not made yet. -/
theorem Ends.spawn (name : String) (layout : AtomLayout κ) (offset : Nat) (l : Ledger κ) :
    Ends (LedgerM.spawn name layout offset) l fun a m =>
      a.IsBlank ∧ a.info.layout = layout ∧ a.info.offset = offset ∧ Arrives l layout.isBits a m := by
  refine ⟨rfl, rfl, rfl, (Atom.isBlank_blank ..).shaped, rfl, fun h => ?_⟩
  have htake := Ledger.balance_take h l
  have hid : (LedgerM.spawn name layout offset l).1.info.id = l.take.1 := rfl
  have hleft : (LedgerM.spawn name layout offset l).2 = l.take.2 := rfl
  rw [Atom.tally_of_parts (a := (LedgerM.spawn name layout offset l).1) rfl, hid, hleft]
  split at htake <;> simp_all

/-- The frame is well shaped and takes further parts. -/
structure Frame.Open (f : Frame κ) (inBits : Bool) : Prop where
  takes : f.Takes inBits
  shaped : Atom.Everywhere Atom.Shaped f.close

namespace Accounts

variable {a b c : Atom κ} {l m n : Ledger κ}

theorem refl (h : Atom.Everywhere Atom.Shaped a) : Accounts a l a l := ⟨rfl, h, fun _ => rfl⟩

theorem trans (hab : Accounts a l b m) (hbc : Accounts b m c n) : Accounts a l c n :=
  ⟨hbc.site.trans hab.site, hbc.shaped, fun h => (hbc.balance h).trans (hab.balance h)⟩

theorem isBits (h : Accounts a l b m) : b.isBits = a.isBits := Atom.isBits_of_site h.site

/-- Flags and a tail do not matter. -/
theorem mapInfo (h : Accounts a l b m) {change : Info κ → Info κ}
    (hsite : (change b.info).site = b.info.site) : Accounts a l (b.mapInfo change) m :=
  ⟨by rw [Atom.info_mapInfo, hsite, h.site], h.shaped.shaped_mapInfo hsite, fun x => by
    rw [Atom.tally_mapInfo hsite]
    exact h.balance x⟩

theorem ready (h : Accounts a l b m) : Accounts a l b.ready m := h.mapInfo rfl

theorem forceExtent (h : Accounts a l b m) (config : Config) (extent : Nat) :
    Accounts a l (b.forceExtent config extent) m :=
  h.mapInfo rfl

theorem warn (h : Accounts a l b m) (w : Warning) : Accounts a l b (m.warn w) :=
  ⟨h.site, h.shaped, h.balance⟩

/-- An atom without parts that gets content and perhaps flags. -/
theorem filled (ha : a.parts = []) (hsite : b.info.site = a.info.site) (hparts : b.parts = [])
    (hadmits : a.info.layout.admits b.content = true)
    (hholds : b.content.Holds a.isBits ([] : List (Atom κ))) : Accounts a l b l := by
  refine ⟨hsite, ?_, fun x => ?_⟩
  · refine Atom.everywhere_iff.2 ⟨⟨?_, ?_⟩, by simp [hparts]⟩
    · rw [Info.layout_of_site hsite]
      exact hadmits
    · rw [Atom.isBits_of_site hsite, hparts]
      exact hholds
  · rw [Atom.tally_of_parts hparts, Atom.tally_of_parts ha, Info.id_of_site hsite]

/-- An atom without parts that gets content. -/
theorem fill (ha : a.IsBlank) (content : Content) (hadmits : a.info.layout.admits content = true)
    (hholds : content.Holds a.isBits ([] : List (Atom κ))) : Accounts a l (a.fill content []) l :=
  filled ha.parts rfl rfl hadmits hholds

/-- An atom without parts that gets one. -/
theorem fillPart {inBits : Bool} {part : Atom κ} (h : a.IsBlank) (content : Content)
    (hadmits : a.info.layout.admits content = true)
    (hholds : content.Holds a.isBits [part]) (hpart : Arrives l inBits part m) :
    Accounts a l (a.fill content [part]) m :=
  ⟨rfl, Atom.everywhere_iff.2 ⟨⟨hadmits, hholds⟩, by simpa using hpart.shaped⟩, fun x => by
    have hbalance := hpart.balance x
    rw [Atom.tally_fill, Atom.tally_of_parts h.parts]
    simp only [Atom.tallies]
    omega⟩

/-- An atom that is emptied. -/
theorem clear (a : Atom κ) (l : Ledger κ) : Accounts a l a.cleared (l.releaseAll a.parts) :=
  ⟨Atom.site_cleared a, (Atom.isBlank_cleared a).shaped, fun x => by
    have hid := Info.id_of_site (Atom.site_cleared a)
    rw [Atom.tally_of_parts (Atom.isBlank_cleared a).parts, hid, Ledger.balance_releaseAll,
      Atom.tally_eq x a]
    omega⟩

end Accounts

namespace Arrives

variable {a b : Atom κ} {l m n : Ledger κ} {inBits : Bool} {f : Frame κ}

/-- What became of an atom that came. -/
theorem onto (ha : Arrives l inBits a m) (hb : Accounts a m b n) : Arrives l inBits b n :=
  ⟨hb.shaped, hb.isBits.trans ha.isBits, fun h => (hb.balance h).trans (ha.balance h)⟩

/-- An atom that came is given up. -/
theorem drop (ha : Arrives l inBits a m) (h : Nat) : (m.release a).balance h = l.balance h := by
  have := ha.balance h
  rw [Ledger.balance_release]
  omega

theorem push_open (ha : Arrives l inBits a m) (hf : f.Open inBits) : (f.push a).Open inBits :=
  ⟨hf.takes.push a, f.shaped_push hf.takes hf.shaped ha.shaped ha.isBits⟩

/-- An atom that came, put into a frame. -/
theorem push (ha : Arrives l inBits a m) (hf : f.Open inBits) : Accounts f.close l (f.push a).close m :=
  ⟨rfl, (ha.push_open hf).shaped, fun h => by
    have := ha.balance h
    simp only [Frame.tally_close, Frame.tally_push]
    omega⟩

/-- A frame that did not take the atom that came. -/
theorem skip (ha : Arrives l inBits a m) (hf : f.Open inBits) : Accounts f.close l f.close (m.release a) :=
  ⟨rfl, hf.shaped, fun h => by rw [ha.drop h]⟩

end Arrives

end BinaryLayout
