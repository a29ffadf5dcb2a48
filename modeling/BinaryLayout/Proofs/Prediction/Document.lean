import BinaryLayout.Proofs.Handles.Forest
import BinaryLayout.Proofs.Prediction.Load

/-!
# Sizes as predicted in a document

Default content is made of parts whose sizes were predicted, so everything in it has its predicted size as
well. A forced extent is put on a field after it was made; nothing is predicted of that.

An operation that loads an atom, or gives it default content, leaves it with the size that is known of its
layout, and with it everything in it: whatever the rules, the settings and the source are, at whatever
offset the atom is, and whether it is an outermost atom or a part of one.

## Main definitions

* `Document.AsPredicted`: the atom with a handle, and everything in it, is as predicted.

## Main statements

* `predicts_allocate`: default content under a layout of known size.
* `predicted_allocate`: everything in default content.
* `Document.Reachable.predicted_sizes`: what loading and allocating leave.
-/

namespace BinaryLayout

section Default

variable {κ : Type}

open Atom

/-- Nothing is predicted of an atom whose extent was forced. -/
theorem Atom.Gathers.predicted_forceExtent {info : Info κ} {layout : Layout κ} {a : Atom κ}
    (h : a.Gathers info) (hlayout : info.layout = .bytes layout) (config : Config) (extent : Nat) :
    Everywhere Predicted (a.forceExtent config extent) := by
  have hforced : (a.forceExtent config extent).Gathers { info with extent? := some extent } := by
    refine ⟨?_, ?_, ?_⟩
    · rw [forceExtent, info_mapInfo]
      exact h.layout
    · rw [forceExtent, info_mapInfo]
    · rw [forceExtent, parts_mapInfo]
      exact h.parts
  exact hforced.predicted hlayout fun hnone => absurd hnone (Option.some_ne_none extent)

/-- What atoms of bytes are given as default content. -/
def MakesPredicted (part : LoadPart (LedgerM κ) κ) : Prop :=
  ∀ layout frames a l, a.info.layout = .bytes layout →
    Ends (part frames a) l fun out _ => out.Predicts a.info layout.staticSize

section Allocate

variable {env : Env κ} {part : LoadPart (LedgerM κ) κ}

theorem gathers_allocateFields (hpart : MakesPredicted part) (frames : List (Frame κ)) {f : Frame κ}
    (hf : f.Gathers) (index cursor : Nat) (fields : List (Field κ (Layout κ))) (l : Ledger κ) :
    Ends (allocateFields env part frames f index cursor fields) l fun out _ =>
      out.error? = none → out.atom.Gathers f.info := by
  induction fields generalizing f index cursor l with
  | nil => exact Ends.pure fun _ => hf.close.ready
  | cons field fields ih =>
    rw [allocateFields]
    split
    · exact Ends.pure Error.of_absent
    · rename_i layout _
      refine (Ends.spawn field.name (.bytes layout) cursor l).bind fun blank m hblank => ?_
      have hlayout := hblank.2.1
      refine (hpart layout _ _ m hlayout).bind fun out n hout => ?_
      split
      · exact Ends.pure Error.of_absent
      · rename_i herror _
        exact ih (f := f.push out.atom) (hf.push (hout.everywhere hlayout herror)) _ _ n
      · rename_i rule herror _
        split
        · exact Ends.pure Error.of_absent
        · rename_i extent _
          have hforced := (hout herror).1.predicted_forceExtent hlayout env.config extent
          exact ih (f := f.push (out.atom.forceExtent env.config extent)) (hf.push hforced) _ _ n

theorem gathers_allocateElements (hpart : MakesPredicted part) (element : Layout κ)
    (frames : List (Frame κ)) (count : Nat) {f : Frame κ} (hf : f.Gathers) (index cursor : Nat)
    (l : Ledger κ) :
    Ends (allocateElements part element frames count f index cursor) l fun out _ =>
      out.error? = none → out.atom.Gathers f.info := by
  induction count generalizing f index cursor l with
  | zero => exact Ends.pure fun _ => hf.close.ready
  | succ count ih =>
    rw [allocateElements]
    refine (Ends.spawn (toString index) (.bytes element) cursor l).bind fun blank m hblank => ?_
    refine (hpart element _ _ m hblank.2.1).bind fun out n hout => ?_
    dsimp only
    split
    · exact Ends.pure Error.of_absent
    · rename_i herror
      exact ih (f := f.push out.atom) (hf.push (hout.everywhere hblank.2.1 herror)) _ _ n

theorem gathers_allocateHost (depth : Nat) {layout : BitLayout κ} (frames : List (Frame κ)) (a : Atom κ)
    (l : Ledger κ) :
    Ends (allocateHost env depth layout frames a) l fun out _ =>
      out.error? = none → out.atom.Gathers a.info := by
  rw [allocateHost]
  split
  · exact Ends.pure Error.of_absent
  · rename_i position _
    refine (Ends.spawn "" (.bits layout) position l).bind fun root m hroot => ?_
    refine (Ends.via _ (predicted_allocateBits env depth layout _ root m hroot.2.1)) fun out n hout => ?_
    dsimp only
    split
    · exact Ends.pure Error.of_absent
    · rename_i herror
      obtain ⟨hgathers, hwidth⟩ := hout herror
      exact Ends.pure fun _ => (gathers_hostedBits a (hgathers.predicted_bits hroot.2.1 hwidth) _).ready

theorem gathers_allocateLeaf {layout : Layout κ} (frames : List (Frame κ)) (a : Atom κ)
    (herror : (allocateLeaf env layout frames a).error? = none) :
    (allocateLeaf env layout frames a).atom.Gathers a.info := by
  rw [allocateLeaf] at herror ⊢
  split at herror
  · cases herror
  · rename_i raw _
    have hmade : (a.withBytes layout raw).Gathers a.info := by
      refine .of_nil ?_ ?_ ?_
      · rw [withBytes_eq, info_fill]
      · rw [withBytes_eq, info_fill]
      · rw [withBytes_eq, parts_fill]
    exact hmade.ready

/-- Default content has the size that is known of its layout, and so has everything in it. -/
theorem predicts_allocate (env : Env κ) (depth : Nat) : MakesPredicted (allocate env depth) := by
  induction depth with
  | zero => exact fun _ _ _ _ _ => Ends.pure (.failed _ _)
  | succ depth ih =>
    intro layout frames a l hlayout
    have hdefaults := honours_allocate env (depth + 1) frames hlayout l
    suffices hgathers : Ends (allocate env (depth + 1) frames a) l fun out _ =>
        out.error? = none → out.atom.Gathers a.info from
      fun herror => ⟨hgathers herror, fun _ => (hdefaults herror).2⟩
    rw [allocate, hlayout]
    have hclear : Ends (LedgerM.clear a) l fun b _ => b = a.cleared := rfl
    refine hclear.bind fun b m hb => ?_
    subst hb
    have hback {b : Atom κ} (h : b.Gathers a.cleared.info) : b.Gathers a.info := by
      obtain ⟨info, content, parts⟩ := a
      exact ⟨h.layout, h.extent, h.parts⟩
    have hstart := Frame.Gathers.start a.cleared .group
    cases layout
    case record name fields =>
      exact (gathers_allocateFields (f := (a.cleared.fill .group []).frame) ih frames hstart 0 _ fields
        m).mono fun _ _ h herror => hback (h herror)
    case array element shape =>
      refine (gathers_allocateElements (f := (a.cleared.fill .group []).frame) ih element frames _ hstart 0
        _ m).bind fun out n hout => ?_
      split
      · exact Ends.pure Error.of_absent
      · rename_i herror
        exact Ends.pure fun _ => hback ((hout herror).withTail _)
    case union name members size =>
      exact LedgerM.ends_fromBytes ((gathers_loadMembers (fun _ frames _ s _ h =>
        predicts_load env depth frames h s) _ frames (Frame.Gathers.start a.cleared (.overlay _)) members
        _).mono fun _ _ h herror => hback (h herror))
    case bits root order =>
      exact (gathers_allocateHost depth frames a.cleared m).mono fun _ _ h herror => hback (h herror)
    all_goals exact Ends.pure fun herror => hback (gathers_allocateLeaf frames a.cleared herror)

/-- Every atom of bytes in default content has the size that is known of its layout, unless an extent is
forced on it, and every atom of bits has the width that is known. -/
theorem predicted_allocate (env : Env κ) (depth : Nat) (frames : List (Frame κ)) (a : Atom κ)
    (l : Ledger κ) :
    Ends (allocate env depth frames a) l fun out _ => out.error? = none →
      out.atom.Gathers a.info ∧ Everywhere Predicted out.atom := by
  cases hlayout : a.info.layout with
  | bytes layout =>
    exact (predicts_allocate env depth layout frames a l hlayout).mono fun out _ hout herror =>
      ⟨(hout herror).1, hout.everywhere hlayout herror⟩
  | bits layout =>
    cases depth with
    | zero => exact Ends.pure Error.of_absent
    | succ depth =>
      rw [allocate, hlayout]
      refine (predicted_allocateBits env (depth + 1) layout frames a l hlayout).mono
        fun out _ hout herror => ?_
      obtain ⟨hgathers, hwidth⟩ := hout herror
      exact ⟨hgathers, hgathers.predicted_bits hlayout hwidth⟩

end Allocate

end Default

variable {κ : Type}

open Atom

namespace Atom

theorem predicted_unplaced {a : Atom κ} : a.unplaced.Predicted ↔ a.Predicted := by
  constructor
  · intro h
    refine ⟨fun layout size hlayout hnone hsize => ?_, fun layout width hlayout hwidth => ?_⟩
    · rw [← size_unplaced]
      exact h.size layout size (by rwa [info_unplaced]) (by rwa [info_unplaced]) hsize
    · rw [← bitCount_unplaced]
      exact h.width layout width (by rwa [info_unplaced]) hwidth
  · intro h
    refine ⟨fun layout size hlayout hnone hsize => ?_, fun layout width hlayout hwidth => ?_⟩
    · rw [info_unplaced] at hlayout hnone
      rw [size_unplaced]
      exact h.size layout size hlayout hnone hsize
    · rw [info_unplaced] at hlayout
      rw [bitCount_unplaced]
      exact h.width layout width hlayout hwidth

/-- Moving atoms does not change their sizes. -/
theorem predicted_of_unplaced {a b : Atom κ} (h : b.unplaced = a.unplaced) (ha : Everywhere Predicted a) :
    Everywhere Predicted b := by
  rw [← everywhere_unplaced fun _ => predicted_unplaced, h,
    everywhere_unplaced fun _ => predicted_unplaced]
  exact ha

end Atom

/-- What was made where an atom with this info stood: each atom of bytes in it has the size that is known
of its layout, unless an extent is forced on it, and each atom of bits the width. -/
def Outcome.AsPredicted (info : Info κ) (out : Outcome κ) : Prop :=
  out.error? = none → out.atom.info.layout = info.layout ∧ out.atom.info.extent? = info.extent?
    ∧ Everywhere Predicted out.atom

namespace Document

variable {d t : Document κ}

/-- The handle leads to an atom with this layout and this forced extent. Each atom of bytes in it has the
size that is known of its layout, unless an extent is forced on it, and each atom of bits the width. -/
def AsPredicted (t : Document κ) (id : Nat) (layout : AtomLayout κ) (extent? : Option Nat) : Prop :=
  ∃ q, t.find? id = some q ∧ q.atom.info.layout = layout ∧ q.atom.info.extent? = extent?
    ∧ Everywhere Predicted q.atom

/-- The size of an atom on which no extent is forced. -/
theorem AsPredicted.size {id : Nat} {layout : Layout κ} (h : t.AsPredicted id (.bytes layout) none)
    {size : Nat} (hsize : layout.staticSize = some size) :
    ∃ q, t.find? id = some q ∧ q.atom.size = size := by
  obtain ⟨q, hfind, hlayout, hnone, hpredicted⟩ := h
  exact ⟨q, hfind, hpredicted.here.size layout size hlayout hnone hsize⟩

/-- An atom that was made is put back, and what surrounds it moves. -/
theorem Balanced.asPredicted_put (hd : d.Balanced) {p : Place κ} (hp : p ∈ d.places) {a : Atom κ}
    {m : Ledger κ} (h : Accounts p.root.atom d.ledger (Place.assemble a p.frames) m)
    (hid : a.info.id = p.atom.info.id) (ha : a.Gathers p.atom.info) (hpredicted : Everywhere Predicted a) :
    ({ d with ledger := m }.put (Place.reflow ⟨a, p.frames⟩)).AsPredicted
      p.atom.info.id p.atom.info.layout p.atom.info.extent? := by
  have hsame : (Place.reflow ⟨a, p.frames⟩).atom.unplaced = a.unplaced :=
    (Place.unplaced_reflow ⟨a, p.frames⟩).1
  have hinfo := congrArg Atom.info hsame
  rw [info_unplaced, info_unplaced] at hinfo
  have hfind := hd.find?_put hp (q := Place.reflow ⟨a, p.frames⟩)
    (h.trans (accounts_reflow (p := ⟨a, p.frames⟩) h.shaped m))
  have hid' : (Place.reflow ⟨a, p.frames⟩).atom.info.id = a.info.id := (congrArg Info.id hinfo :)
  rw [hid', hid] at hfind
  exact ⟨_, hfind, (congrArg Info.layout hinfo :).trans ha.layout,
    (congrArg Info.extent? hinfo :).trans ha.extent, predicted_of_unplaced hsame hpredicted⟩

theorem Balanced.predicted_loadAtom (hd : d.Balanced) {p : Place κ} (hp : p ∈ d.places) :
    Yields (loadAtom p.atom.info.id) d
      (fun _ t => t.AsPredicted p.atom.info.id p.atom.info.layout p.atom.info.extent?)
      fun _ _ => True := by
  refine (DocumentM.yields_place (live_of_mem hp)).bind fun p' t ht => ?_
  obtain ⟨⟨hp', -, hid⟩, rfl⟩ := ht
  obtain rfl := hd.eq_of_id hp' hp hid
  dsimp only
  split
  · exact Yields.throw_bind trivial
  · refine DocumentM.yields_got ?_
    have hshaped := hd.shaped_place hp
    have hload := (accounts_load t.env Layout.nestingLimit p'.frames (.inl (Everywhere.of_assemble hshaped))
      ⟨t.ledger, t.sources, .source t.source⟩).and (predicted_load t.env Layout.nestingLimit p'.frames
        p'.atom ⟨t.ledger, t.sources, .source t.source⟩)
    refine (DocumentM.yields_ofLoad hload).bind fun out u hu => ?_
    obtain ⟨s, rfl, haccounts, hmade⟩ := hu
    split
    · exact Yields.via (fun _ _ => True) trivial fun _ _ _ => Yields.throw trivial
    · rename_i herror
      obtain ⟨hgathers, hpredicted⟩ := hmade herror
      have hsources : Balanced { t with sources := s.sources } := ⟨hd.shaped, hd.balance⟩
      exact Yields.modified (hsources.asPredicted_put hp (haccounts.assemble hshaped)
        (Info.id_of_site haccounts.site) hgathers hpredicted)

theorem Balanced.predicted_allocateAtom (hd : d.Balanced) {p : Place κ} (hp : p ∈ d.places) :
    Yields (allocateAtom p.atom.info.id) d
      (fun _ t => t.AsPredicted p.atom.info.id p.atom.info.layout p.atom.info.extent?)
      fun _ _ => True := by
  refine DocumentM.yields_got (yields_edit (live_of_mem hp) fun p' hp' _ hid => ?_)
  obtain rfl := hd.eq_of_id hp' hp hid
  have hshaped := hd.shaped_place hp
  have hmade := (accounts_allocate d.env Layout.nestingLimit p'.frames (Everywhere.of_assemble hshaped)
    d.ledger).and (predicted_allocate d.env Layout.nestingLimit p'.frames p'.atom d.ledger)
  refine Yields.via (fun _ s => ({ d with ledger := s.ledger }.put s.place.reflow).AsPredicted
      p'.atom.info.id p'.atom.info.layout p'.atom.info.extent?)
    (EditM.yields_remake (hmade.mono fun out m h => ⟨fun herror => ?_, fun _ _ => trivial⟩))
    fun _ _ hs => Yields.modified hs
  obtain ⟨⟨haccounts, -⟩, hmade⟩ := h
  obtain ⟨hgathers, hpredicted⟩ := hmade herror
  exact hd.asPredicted_put hp (haccounts.assemble hshaped) (Info.id_of_site haccounts.site) hgathers
    hpredicted

/-! ## Outermost atoms -/

/-- An operation that makes the content of a new outermost atom. -/
theorem Balanced.predicted_createWith (hd : d.Balanced) (layout : Layout κ) (name : String) (offset : Nat)
    {m : Nat → DocumentM κ Unit} (hm : ∀ t : Document κ, t.Balanced → ∀ p ∈ t.places,
      Yields (m p.atom.info.id) t
        (fun _ u => u.AsPredicted p.atom.info.id p.atom.info.layout p.atom.info.extent?) fun _ _ => True) :
    Yields (createWith layout name offset m) d (fun id t => t.AsPredicted id (.bytes layout) none)
      fun _ _ => True := by
  refine Yields.bind (hd.yields_create layout name offset) fun id t ht => ?_
  obtain ⟨hbalanced, a, ha, rfl, hlayout, hextent⟩ := ht
  rw [← hlayout, ← hextent]
  refine Yields.via (fun _ u => u.AsPredicted a.info.id a.info.layout a.info.extent?) ?_
    fun _ _ hu => Yields.pure hu
  refine Yields.tryCatch (hm t hbalanced ⟨a, []⟩ (mem_places.2 ha)) fun e u _ => ?_
  exact (Yields.trivial _ u).bind fun _ v _ =>
    Yields.via (fun _ _ => True) (Yields.modified trivial) fun _ _ _ => Yields.throw trivial

/-- Sizes that are known beforehand are exact. In whatever document operations made, an atom that is loaded
or given its default content, be it new or there already, has the size that is known of its layout, and so
has everything in it on which no extent is forced. This goes for whatever is loaded or made, inside any
frames and at any depth: elements, fields, members of unions and what pointers refer to. -/
theorem Reachable.predicted_sizes (hd : d.Reachable) :
    (∀ layout name offset id t, (loadNew layout name offset).run d = (.ok id, t) →
        t.AsPredicted id (.bytes layout) none)
      ∧ (∀ layout name id t, (allocateNew layout name).run d = (.ok id, t) →
        t.AsPredicted id (.bytes layout) none)
      ∧ (∀ p ∈ d.places, ∀ t, (loadAtom p.atom.info.id).run d = (.ok (), t) →
        t.AsPredicted p.atom.info.id p.atom.info.layout p.atom.info.extent?)
      ∧ (∀ p ∈ d.places, ∀ t, (allocateAtom p.atom.info.id).run d = (.ok (), t) →
        t.AsPredicted p.atom.info.id p.atom.info.layout p.atom.info.extent?)
      ∧ ∀ (env : Env κ) (depth : Nat) (frames : List (Frame κ)) (a : Atom κ),
        (∀ s, Outcome.AsPredicted a.info (load env depth frames a s).1)
          ∧ ∀ l, Outcome.AsPredicted a.info (allocate env depth frames a l).1 := by
  have hbalanced := hd.balanced
  refine ⟨fun layout name offset id t hrun => ?_, fun layout name id t hrun => ?_, fun p hp t hrun => ?_,
    fun p hp t hrun => ?_, fun env depth frames a => ⟨fun s herror => ?_, fun l herror => ?_⟩⟩
  · exact (hbalanced.predicted_createWith layout name offset fun _ ht _ hp =>
      ht.predicted_loadAtom hp).of_ok hrun
  · exact (hbalanced.predicted_createWith layout name 0 fun _ ht _ hp =>
      ht.predicted_allocateAtom hp).of_ok hrun
  · exact (hbalanced.predicted_loadAtom hp).of_ok hrun
  · exact (hbalanced.predicted_allocateAtom hp).of_ok hrun
  · obtain ⟨hgathers, hpredicted⟩ := predicted_load env depth frames a s herror
    exact ⟨hgathers.layout, hgathers.extent, hpredicted⟩
  · obtain ⟨hgathers, hpredicted⟩ := predicted_allocate env depth frames a l herror
    exact ⟨hgathers.layout, hgathers.extent, hpredicted⟩

end Document

/-! ## A packet -/

namespace Packet

open Document

/-- Two words, a block array that cuts its last element short, a union, ten bits and a pointer. -/
def layout : Layout Empty :=
  .record "packet" [
    ⟨"words", .given (.array (.int (.u16 .little)) (.counted 2)), none, none⟩,
    ⟨"chunks", .given (.array (.block 2) (.block 5)), none, none⟩,
    ⟨"view", .given (.union "view" [("byte", .int .u8), ("pair", .block 2)] 3), none, none⟩,
    ⟨"flags", .given (.bits (.record "flags"
      [⟨"low", .given (.int 3 false)⟩, ⟨"high", .given (.int 7 true)⟩]) .big), none, none⟩,
    ⟨"next", .given (.pointer .u8 (.int .u8) .absolute), none, none⟩]

def document : Document Empty where
  env := ⟨{}, ⟨nofun, nofun, nofun, nofun, nofun, nofun, nofun, nofun⟩⟩
  sources := [.memory (Array.range 20 |>.map UInt8.ofNat) false 0]
  source := 0

/-- A packet has fifteen bytes when it is loaded and when it is made. -/
theorem predicted_packet :
    layout.staticSize = some 15
      ∧ (∃ id t, (loadNew layout "p" 3).run document = (.ok id, t)
        ∧ ∃ q, t.find? id = some q ∧ q.atom.size = 15)
      ∧ ∃ id t, (allocateNew layout "p").run document = (.ok id, t)
        ∧ ∃ q, t.find? id = some q ∧ q.atom.size = 15 := by
  have hsize : layout.staticSize = some 15 := by decide +kernel
  have hload : ((loadNew layout "p" 3).run document).1.toOption = some 0 := by decide +kernel
  have hallocate : ((allocateNew layout "p").run document).1.toOption = some 0 := by decide +kernel
  obtain ⟨hloaded, hallocated, -⟩ := Reachable.predicted_sizes (.empty _ _ _ : Reachable document)
  exact ⟨hsize, ⟨0, _, run_of_toOption hload, (hloaded _ _ _ _ _ (run_of_toOption hload)).size hsize⟩,
    0, _, run_of_toOption hallocate, (hallocated _ _ _ _ (run_of_toOption hallocate)).size hsize⟩

end Packet

end BinaryLayout
