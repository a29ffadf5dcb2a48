import BinaryLayout.Proofs.Extent.Edit
import BinaryLayout.Proofs.Placement.Document

/-!
# Extents in a document

Whatever is loaded, allocated or laid out anew keeps to its extents. So do all atoms of a document,
as long as content is changed only where nothing declares how many bytes it takes: an assignment to a
sized field, or to something in it, may change how many bytes the field takes, and its extent is not
forced again.

## Main definitions

* `Operation.Sparing`: the operation changes content at free places only.
* `Document.Spared`: the documents that successful sparing operations on live handles make.

## Main statements

* `Document.Spared.extents`: every atom of such a document keeps to its extents.
-/

namespace BinaryLayout

variable {κ α : Type}

open Atom

namespace Atom

/-- An atom that is not ready and has no parts keeps to its extents. -/
theorem honours_of_unready {a : Atom κ} (hready : a.info.initialized = false)
    (hextent : a.info.extent? = none) (hparts : a.parts = []) : Everywhere Honours a := by
  refine everywhere_iff.2 ⟨⟨fun _ extent hforced => ?_, fun _ _ _ h => ?_, fun i part hpart => ?_⟩,
    fun part hpart => ?_⟩
  · rw [hextent] at hforced
    cases hforced
  · rw [hready] at h
    cases h
  · rw [hparts] at hpart
    cases hpart
  · rw [hparts] at hpart
    cases hpart

theorem IsBlank.honours {a : Atom κ} (h : a.IsBlank) (hextent : a.info.extent? = none) :
    Everywhere Honours a :=
  honours_of_unready (isBlank_iff.1 h).2.1 hextent h.parts

end Atom

/-- An atom moved within its surroundings. -/
theorem honours_assemble_of_unplaced {a b : Atom κ} (h : b.unplaced = a.unplaced)
    {frames : List (Frame κ)} (ha : Everywhere Honours (Place.assemble a frames)) :
    Everywhere Honours (Place.assemble b frames) := by
  refine everywhere_assemble_of (R := fun a b => b.unplaced = a.unplaced) (fun f x y hxy hx => ?_) h
    (honours_of_unplaced h ha.of_assemble) ha
  have hplug : (f.plug y).unplaced = (f.plug x).unplaced := by
    simp [Frame.plug, unplaced_node, hxy]
  refine ⟨?_, hplug⟩
  rw [← honours_unplaced, hplug, honours_unplaced]
  exact hx

namespace Document

/-! ## Pointers -/

/-- A pointer with its referent. -/
theorem honours_push_referent {a b : Atom κ} {wire : Bytes} (hcontent : a.content = .pointer wire)
    {frames : List (Frame κ)} (ha : Everywhere Honours (Place.assemble a frames))
    (hb : Everywhere Honours b) (hextent : b.info.extent? = none) :
    Everywhere Honours (Place.assemble (a.push b) frames) := by
  have hfooting : SameFooting a (a.push b) := sameFooting_push hcontent
  have hatom : Everywhere Honours a := ha.of_assemble
  have hinfo : (a.push b).info = a.info := info_push _ _
  refine honours_assemble_of_footing hfooting ⟨hfooting.isBits, fun _ => congrArg _ hinfo⟩
    (everywhere_iff.2 ⟨hatom.here.of_footing hfooting (by rw [hinfo]) fun i part hpart hbits hforced => ?_,
      ?_⟩) ha
  · rw [parts_push] at hpart
    rcases List.mem_append.1 (List.mem_of_getElem? hpart) with hold | hnew
    · obtain ⟨j, hj, rfl⟩ := List.getElem_of_mem hold
      have hgroup := (hatom.here.ruled j _ (List.getElem?_eq_getElem hj) hbits hforced).1
      rw [hcontent] at hgroup
      cases hgroup
    · rw [List.mem_singleton.1 hnew] at hforced
      exact absurd hextent hforced
  · rw [parts_push]
    exact List.forall_mem_append.2 ⟨fun _ => hatom.part, List.forall_mem_singleton.2 hb⟩

/-- What a pointer refers to keeps to its extents, and none is forced on it. -/
theorem honours_loadReferent (env : Env κ) (p : Place κ) (s : LoadState κ) :
    Ends (loadReferent env p) s fun result _ => ∀ a, result = .ok a →
      Everywhere Honours a ∧ a.info.extent? = none := by
  rw [loadReferent]
  split
  · refine Ends.pure fun a ha => ?_
    cases ha
  · refine (LoadM.limits_spawn _ _ _ s).bind fun a t ha => ?_
    obtain ⟨⟨hblank, -⟩, -, hextent, -⟩ := ha
    refine Ends.pure fun b hb => ?_
    cases hb
    refine ⟨honours_of_unready ?_ ?_ ?_, ?_⟩
    · rw [info_mapInfo]
      exact (isBlank_iff.1 hblank).2.1
    · rw [info_mapInfo]
      exact hextent
    · rw [parts_mapInfo, hblank.parts]
    · rw [info_mapInfo]
      exact hextent
  · refine (LoadM.limits_spawn _ _ _ s).bind fun blank t hblank => ?_
    obtain ⟨-, -, hextent, -⟩ := hblank
    refine (honours_load env Layout.nestingLimit _ blank t).bind fun out u hout => ?_
    split
    · rename_i herror
      refine Ends.pure fun a ha => ?_
      cases ha
      exact ⟨(hout.made herror).honours hextent, hout.extent.trans hextent⟩
    · refine (Ends.trivial _ u).bind fun _ _ _ => Ends.pure fun a ha => ?_
      cases ha

theorem honours_followPointer (env : Env κ) {p : Place κ} (hp : Everywhere Honours p.root.atom)
    (s : LoadState κ) :
    Ends (followPointer env p) s fun result _ =>
      ∀ q, result = .ok q → Everywhere Honours q.root.atom := by
  rw [followPointer]
  split
  · refine Ends.pure fun q hq => ?_
    cases hq
  · refine Ends.pure fun q hq => ?_
    cases hq
    exact hp
  · refine ((honours_loadReferent env p s).and (arrives_loadReferent env p s)).bind
      fun result t hresult => ?_
    obtain ⟨hhonours, hpointer⟩ := hresult
    split
    · refine Ends.pure fun q hq => ?_
      cases hq
    · obtain ⟨⟨wire, hcontent⟩, -⟩ := hpointer
      refine Ends.pure fun q hq => ?_
      cases hq
      obtain ⟨hreferent, hextent⟩ := hhonours _ rfl
      exact honours_push_referent hcontent hp hreferent hextent

/-- If the computation succeeds, all atoms keep to their extents. -/
def Sparing (d : Document κ) (m : DocumentM κ α) : Prop :=
  Yields m d (fun _ t => t.Throughout Honours) fun _ _ => True

variable {d : Document κ}

/-- The workplace of a free place of the document. -/
theorem Balanced.kept (hd : d.Balanced) (hhonours : d.Throughout Honours) {p : Place κ}
    (hp : p ∈ d.places) (hfree : p.Free) : Workplace.Kept ⟨d.ledger, p⟩ :=
  ⟨hd.shaped_place hp, hhonours.place hp, hfree⟩

/-! ## Content -/

/-- Edits that uphold extents. -/
theorem Balanced.sparing_edit (hd : d.Balanced) (hhonours : d.Throughout Honours) {id : Nat}
    (hid : d.Live id) {m : EditM κ Unit} {R : Place κ → Prop}
    (hready : ∀ p, d.find? id = some p → p.Free ∧ R p)
    (hm : ∀ s : Workplace κ, s.Kept → R s.place → Upholds s m) : Sparing d (edit id m) := by
  refine yields_edit hid fun p hp hfind _ => ?_
  obtain ⟨hfree, hplain⟩ := hready p hfind
  exact (hm _ (hd.kept hhonours hp hfree) hplain).mono
    (fun _ s hs => hhonours.put hs.2.honours _ _) fun _ _ h => h

theorem Balanced.sparing_assign (hd : d.Balanced) (hhonours : d.Throughout Honours) {id : Nat}
    (hid : d.Live id)
    (hready : ∀ p, d.find? id = some p → p.Free ∧ p.atom.info.layout.isPlain = true) (v : Value) :
    Sparing d (assign id v) :=
  DocumentM.yields_got <| hd.sparing_edit hhonours hid hready fun _ hs hplain =>
    EditM.upholds_setValue d.env v hs hplain

theorem Balanced.sparing_reference (hd : d.Balanced) (hhonours : d.Throughout Honours) {id : Nat}
    (hid : d.Live id) (hfree : ∀ p, d.find? id = some p → p.Free) (address : Nat) :
    Sparing d (reference id address) :=
  DocumentM.yields_got <| hd.sparing_edit hhonours hid (R := fun _ => True)
    (fun p hp => ⟨hfree p hp, trivial⟩) fun _ hs _ => EditM.upholds_reference d.env address hs

theorem Balanced.sparing_allocateAtom (hd : d.Balanced) (hhonours : d.Throughout Honours) {id : Nat}
    (hid : d.Live id) (hfree : ∀ p, d.find? id = some p → p.Free) : Sparing d (allocateAtom id) := by
  refine DocumentM.yields_got <| hd.sparing_edit hhonours hid (R := fun _ => True)
    (fun p hp => ⟨hfree p hp, trivial⟩) fun s hs _ => ?_
  refine Upholds.bind (EditM.upholds_remake hs) fun _ t _ ht => ?_
  exact Yields.modified ⟨conserves_reflow ht.shaped, EditM.kept_reflow ht⟩

theorem Balanced.sparing_assignAt (hd : d.Balanced) (hhonours : d.Throughout Honours) {id : Nat}
    (hid : d.Live id) (path : String)
    (hready : ∀ p, d.locate id path = .ok p → p.Free ∧ p.atom.info.layout.isPlain = true) (v : Value) :
    Sparing d (assignAt id path v) := by
  refine DocumentM.yields_got ?_
  refine Yields.via (fun q t => t = d ∧ d.locate id path = .ok q) ?_ fun q t ht => ?_
  · exact DocumentM.yields_ofExcept (fun q hq => ⟨rfl, hq⟩) fun _ _ => trivial
  · obtain ⟨rfl, hlocate⟩ := ht
    have hq := mem_places_of_locate hid hlocate
    refine hd.sparing_assign hhonours (live_of_mem hq) (fun p hfind => ?_) v
    obtain ⟨r, hr, hfind', hsame⟩ := find?_of_live (live_of_mem hq)
    rw [hfind', Option.some.injEq] at hfind
    subst hfind
    rw [hd.eq_of_id hr hq hsame]
    exact hready q hlocate

theorem Balanced.sparing_loadAtom (hd : d.Balanced) (hhonours : d.Throughout Honours) {id : Nat}
    (hid : d.Live id) (hfree : ∀ p, d.find? id = some p → p.Free) : Sparing d (loadAtom id) := by
  refine (DocumentM.yields_place hid).bind fun p t ht => ?_
  obtain ⟨⟨hp, hfind, -⟩, rfl⟩ := ht
  dsimp only
  split
  · exact Yields.throw_bind trivial
  · refine (DocumentM.yields_get t).bind fun e u hu => ?_
    obtain ⟨rfl, rfl⟩ := hu
    have hkept := hd.kept hhonours hp (hfree p hfind)
    refine (DocumentM.yields_ofLoad (EditM.kept_load u.env hkept u.sources u.source)).bind fun out t ht => ?_
    obtain ⟨s, rfl, hout⟩ := ht
    split
    · exact Yields.via (fun _ _ => True) trivial fun _ _ _ => Yields.throw trivial
    · rename_i herror
      exact Yields.modified (hhonours.put (EditM.kept_reflow (hout herror)).honours _ _)

theorem sparing_relocate (hhonours : d.Throughout Honours) {id : Nat} (hid : d.Live id) (offset : Nat) :
    Sparing d (relocate id offset) := by
  refine (DocumentM.yields_place hid).bind fun p t ht => ?_
  obtain ⟨⟨hp, -, -⟩, rfl⟩ := ht
  have hsame : (p.atom.relocate offset).unplaced = p.atom.unplaced := by
    rw [Atom.relocate, unplaced_arranged]
    obtain ⟨⟨info, content, parts⟩, frames⟩ := p
    rfl
  exact Yields.modified (hhonours.put (p := ⟨p.atom.relocate offset, p.frames⟩)
    (honours_assemble_of_unplaced hsame (hhonours.place hp)) _ _)

theorem sparing_dereference (hhonours : d.Throughout Honours) {id : Nat} (hid : d.Live id) :
    Sparing d (dereference id) := by
  refine (DocumentM.yields_place hid).bind fun p t ht => ?_
  obtain ⟨⟨hp, -, -⟩, rfl⟩ := ht
  refine DocumentM.yields_got ?_
  have hfollow := honours_followPointer t.env (hhonours.place hp)
    ⟨t.ledger, t.sources, .source t.source⟩
  refine (DocumentM.yields_ofLoad hfollow).bind fun result u hu => ?_
  obtain ⟨s, rfl, hresult⟩ := hu
  split
  · exact Yields.throw trivial
  · refine Yields.via (fun _ u => u.Throughout Honours) (Yields.modified ?_) fun _ _ hu => Yields.pure hu
    exact hhonours.put (hresult _ rfl) _ _

theorem Balanced.sparing_referenceAtom (hd : d.Balanced) (hhonours : d.Throughout Honours)
    {id target : Nat} (hid : d.Live id) (htarget : d.Live target)
    (hfree : ∀ p, d.find? id = some p → p.Free) : Sparing d (referenceAtom id target) := by
  refine (DocumentM.yields_place htarget).bind fun p t ht => ?_
  obtain ⟨-, rfl⟩ := ht
  exact hd.sparing_reference hhonours hid hfree _

/-! ## Outermost atoms -/

/-- A new outermost atom is at a free place. -/
theorem Balanced.sparing_create (hd : d.Balanced) (hhonours : d.Throughout Honours) (layout : Layout κ)
    (name : String) (offset : Nat) {failed : Error → Document κ → Prop} :
    Yields (create layout name offset) d (fun id t => t.Balanced ∧ t.Throughout Honours ∧ t.Live id
      ∧ ∀ p, t.find? id = some p → p.Free) failed := by
  have hspawn : Ends (LedgerM.spawn name (.bytes layout) offset) d.ledger fun a _ =>
      a.info.extent? = none := rfl
  refine (DocumentM.yields_ofLedger ((Ends.spawn name (.bytes layout) offset d.ledger).and hspawn)).bind
    fun a t ht => ?_
  obtain ⟨l, rfl, ⟨hblank, -, -, hcame⟩, hextent⟩ := ht
  obtain ⟨hadd, hbalanced⟩ := hd.add hcame
  refine Yields.via (fun _ u => u = ({ d with ledger := l }.add a)) (Yields.modified rfl)
    fun _ u hu => ?_
  subst hu
  have hroot : a ∈ ({ d with ledger := l }.add a).roots := by
    rw [hadd]
    exact List.mem_cons_self
  refine Yields.pure ⟨hbalanced, hhonours.add (hblank.honours hextent) l,
    live_of_mem (p := ⟨a, []⟩) (mem_places.2 hroot), fun p hfind => ?_⟩
  rw [hbalanced.find?_root hroot, Option.some.injEq] at hfind
  subst hfind
  exact ⟨.inr hextent, trivial⟩

/-- An operation on a new outermost atom. -/
theorem Balanced.sparing_createWith (hd : d.Balanced) (hhonours : d.Throughout Honours)
    (layout : Layout κ) (name : String) (offset : Nat) {m : Nat → DocumentM κ Unit}
    (hm : ∀ (t : Document κ) id, t.Balanced → t.Throughout Honours → t.Live id →
      (∀ p, t.find? id = some p → p.Free) → Sparing t (m id)) :
    Sparing d (createWith layout name offset m) := by
  refine Yields.bind (hd.sparing_create hhonours layout name offset) fun id t ht => ?_
  obtain ⟨hbalanced, hthonours, hlive, hfree⟩ := ht
  refine Yields.via (fun _ u => u.Throughout Honours) ?_ fun _ _ hu => Yields.pure hu
  refine Yields.tryCatch (hm t id hbalanced hthonours hlive hfree) fun e u _ => ?_
  exact (Yields.trivial _ u).bind fun p v _ =>
    Yields.via (fun _ _ => True) (Yields.modified trivial) fun _ _ _ => Yields.throw trivial

theorem sparing_discard (hhonours : d.Throughout Honours) {id : Nat} (hid : d.Live id) :
    Sparing d (discard id) := by
  refine (DocumentM.yields_place hid).bind fun p t ht => ?_
  obtain ⟨-, rfl⟩ := ht
  dsimp only
  split
  · exact Yields.throw_bind trivial
  · exact Yields.modified (hhonours.remove p.atom)

theorem sparing_cast (hhonours : d.Throughout Honours) {id : Nat} (hid : d.Live id)
    (layout : Layout κ) : Sparing d (cast id layout) := by
  refine (DocumentM.yields_place hid).bind fun p t ht => ?_
  obtain ⟨-, rfl⟩ := ht
  refine DocumentM.yields_got ?_
  have hspawn (name : String) (offset : Nat) : Ends (LedgerM.spawn name (.bytes layout) offset) t.ledger
      fun a _ => a.info.extent? = none := rfl
  refine (DocumentM.yields_ofLedger (hspawn _ _)).bind fun blank u hu => ?_
  obtain ⟨l, rfl, hextent⟩ := hu
  have hload (bytes : Bytes) (offset : Nat) :
      Ends (LedgerM.fromBytes bytes offset (load t.env Layout.nestingLimit [] blank)) l
        fun out _ => out.error? = none → out.atom.Made blank.info :=
    LedgerM.ends_fromBytes ((honours_load t.env Layout.nestingLimit [] blank _).mono fun _ _ h => h.made)
  refine (DocumentM.yields_ofLedger (hload _ _)).bind fun out v hv => ?_
  obtain ⟨m, rfl, hout⟩ := hv
  split
  · exact Yields.via (fun _ _ => True) trivial fun _ _ _ => Yields.throw trivial
  · rename_i herror
    exact Yields.via (fun _ w => w.Throughout Honours)
      (Yields.modified (hhonours.add ((hout herror).honours hextent) m)) fun _ _ hw => Yields.pure hw

theorem sparing_copy (hhonours : d.Throughout Honours) {id : Nat} (hid : d.Live id) :
    Sparing d (copy id) := by
  refine (DocumentM.yields_place hid).bind fun p t ht => ?_
  obtain ⟨-, rfl⟩ := ht
  split
  · exact sparing_cast hhonours hid _
  · exact Yields.throw trivial

/-! ## Runs -/

/-- Atoms are made anew at free places only, and values are assigned to plain atoms there. The updates
of an atom may assign to any field in it, so they are left out. -/
def Operation.Sparing (d : Document κ) : Operation κ → Prop
  | .loadAtom id | .allocateAtom id | .reference id _ | .referenceAtom id _ =>
    ∀ p, d.find? id = some p → p.Free
  | .assign id _ => ∀ p, d.find? id = some p → p.Free ∧ p.atom.info.layout.isPlain = true
  | .assignAt id path _ =>
    ∀ p, d.locate id path = .ok p → p.Free ∧ p.atom.info.layout.isPlain = true
  | .recalculate _ | .commit _ => False
  | _ => True

/-- The documents that sparing operations on live handles make of an empty one when each of them
succeeds. The open sources may change at any time. -/
inductive Spared : Document κ → Prop
  | empty (env : Env κ) (sources : Sources) (source : Nat) : Spared { env, sources, source }
  | step {d : Document κ} (op : Operation κ) (hd : Spared d) (hlive : ∀ id ∈ op.handles, d.Live id)
      (hsparing : op.Sparing d) (hok : (op.run.run d).1 = .ok ()) : Spared (op.run.run d).2
  | outside {d : Document κ} (sources : Sources) (hd : Spared d) : Spared { d with sources }

theorem Spared.reachable (h : Spared d) : Reachable d := by
  induction h with
  | empty env sources source => exact .empty env sources source
  | step op _ hlive _ _ ih => exact .step op ih hlive
  | outside sources _ ih => exact .outside sources ih

theorem Sparing.forget {m : DocumentM κ α} (h : Sparing d m) : Sparing d (do let _ ← m) :=
  Yields.bind h fun _ _ ht => Yields.pure ht

/-- What one operation keeps. -/
theorem Balanced.sparing_run (hd : d.Balanced) (hhonours : d.Throughout Honours) (op : Operation κ)
    (hlive : ∀ id ∈ op.handles, d.Live id) (hsparing : op.Sparing d) : Sparing d op.run := by
  have hone {id : Nat} (h : op.handles = [id]) : d.Live id :=
    hlive id (h ▸ List.mem_singleton_self id)
  cases op with
  | create layout name offset =>
    exact .forget ((hd.sparing_create hhonours layout name offset).mono (fun _ _ h => h.2.1) fun _ _ h => h)
  | loadNew layout name offset =>
    exact .forget (hd.sparing_createWith hhonours layout name offset
      fun _ _ ht hthonours hid hfree => ht.sparing_loadAtom hthonours hid hfree)
  | allocateNew layout name =>
    exact .forget (hd.sparing_createWith hhonours layout name 0
      fun _ _ ht hthonours hid hfree => ht.sparing_allocateAtom hthonours hid hfree)
  | loadAtom id => exact hd.sparing_loadAtom hhonours (hone rfl) hsparing
  | allocateAtom id => exact hd.sparing_allocateAtom hhonours (hone rfl) hsparing
  | assign id v => exact hd.sparing_assign hhonours (hone rfl) hsparing v
  | assignAt id path v => exact hd.sparing_assignAt hhonours (hone rfl) path hsparing v
  | recalculate id | commit id => exact False.elim hsparing
  | dereference id => exact .forget (sparing_dereference hhonours (hone rfl))
  | reference id address => exact hd.sparing_reference hhonours (hone rfl) hsparing address
  | referenceAtom id target =>
    have hid := hlive id List.mem_cons_self
    have htarget := hlive target (List.mem_cons_of_mem _ List.mem_cons_self)
    exact hd.sparing_referenceAtom hhonours hid htarget hsparing
  | relocate id offset => exact sparing_relocate hhonours (hone rfl) offset
  | cast id layout => exact .forget (sparing_cast hhonours (hone rfl) layout)
  | copy id => exact .forget (sparing_copy hhonours (hone rfl))
  | discard id => exact sparing_discard hhonours (hone rfl)
  | takeWarnings => exact Yields.modified hhonours

/-- What a run of operations keeps. -/
theorem Spared.honours (h : Spared d) : d.Throughout Honours := by
  induction h with
  | empty env sources source => exact fun _ ha => absurd ha List.not_mem_nil
  | step op hd hlive hsparing hok ih =>
    exact (hd.reachable.balanced.sparing_run ih op hlive hsparing).of_ok (Prod.ext hok rfl)
  | outside sources _ ih => exact ih

/-- Every atom keeps to the extents that are declared: one of bytes whose content fits into the extent
that is forced on it takes exactly these bytes, and a block array on which none is forced takes the
bytes of its layout. -/
theorem Spared.extents (h : Spared d) {p : Place κ} (hp : p ∈ d.places) :
    (p.atom.isBits = false → ∀ extent, p.atom.info.extent? = some extent →
        p.atom.contentSize ≤ extent → p.atom.size = extent)
      ∧ ∀ element extent, p.atom.info.layout = .bytes (.array element (.block extent)) →
        p.atom.info.extent? = none → p.atom.info.initialized = true → p.atom.size = extent := by
  have hhonours : p.atom.Honours := (h.honours.place hp).of_assemble.here
  exact ⟨hhonours.forced, fun element extent hlayout => hhonours.block extent ⟨element, hlayout⟩⟩

end Document

/-! ## A text of forced extent -/

namespace SizedText

open Document

/-- The text takes as many bytes as the number before it says. -/
def rules : Rules Unit where
  layout _ _ := .ok (.block 1)
  bitLayout _ _ := .ok (.int 1 false)
  extent _ scope := scope.uint "n"
  update _ _ := .ok (.unsigned 0)
  accepts _ _ _ _ := true
  distance _ n := n
  toAddress _ _ _ := .ok 0
  ofAddress _ _ _ := .ok 0

/-- A number, a text of so many bytes, and a block array of three bytes. -/
def layout : Layout Unit :=
  .record "R" [⟨"n", .given (.int .u8), none, none⟩,
    ⟨"t", .given (.text ⟨.ascii, .terminated⟩), some (), none⟩,
    ⟨"a", .given (.array (.block 2) (.block 3)), none, none⟩]

def empty : Document Unit where
  env := ⟨{}, rules⟩
  sources := [.memory #[4, 0x61, 0, 0xBB, 0xCC, 1, 2, 3] false 0]
  source := 0

/-- The text has two bytes, and its tail two more. -/
def loaded : Document Unit := ((Operation.loadNew layout "r" 0).run.run empty).2

def roomier : Document Unit := ((Operation.assign 1 (.unsigned 6)).run.run loaded).2

def longer : Document Unit := ((Operation.assign 2 (.text "ab")).run.run loaded).2

theorem runs_loaded : ((Operation.loadNew layout "r" 0).run.run empty).1 = .ok () :=
  ok_of_toOption (by decide +kernel)

theorem live_loaded {id : Nat} (h : id ≤ 3) : loaded.Live id := by
  have hall : ∀ id ∈ List.range 4, loaded.Live id := by decide +kernel
  exact hall id (List.mem_range.2 (by omega))

/-- The text keeps to its new extent. -/
theorem extents_of_roomier : ∃ p ∈ roomier.places, p.atom.info.extent? = some 6 ∧ p.atom.contentSize = 2
    ∧ p.atom.size = 6 := by
  have hloaded : Spared loaded := by
    refine .step (.loadNew layout "r" 0) (.empty ..) (fun id hid => ?_) trivial runs_loaded
    cases hid
  have hready : (loaded.find? 1).all (fun p => decide (p.Free ∧ p.atom.info.layout.isPlain = true))
      = true := by
    decide +kernel
  have hroomier : Spared roomier := by
    refine .step (.assign 1 (.unsigned 6)) hloaded (List.forall_mem_singleton.2 (live_loaded (by decide)))
      (fun p hp => ?_) (ok_of_toOption (by decide +kernel))
    rw [hp, Option.all_some, decide_eq_true_eq] at hready
    exact hready
  have hshown : (roomier.find? 2).map (fun p => (p.atom.isBits, p.atom.info.extent?, p.atom.contentSize))
      = some (false, some 6, 2) := by
    decide +kernel
  obtain ⟨p, hp, hfind, -⟩ := find?_of_live (show roomier.Live 2 by decide +kernel)
  rw [hfind, Option.map_some, Option.some.injEq, Prod.mk.injEq, Prod.mk.injEq] at hshown
  obtain ⟨hbits, hextent, hsize⟩ := hshown
  exact ⟨p, hp, hextent, hsize, (Spared.extents hroomier hp).1 hbits 6 hextent (by omega)⟩

/-- The text that was assigned itself takes a byte more than its extent. -/
theorem size_of_longer_text : Attained longer ∧ ∃ p ∈ longer.places, p.atom.info.extent? = some 4
    ∧ p.atom.contentSize = 3 ∧ p.atom.size = 5 := by
  have hloaded : Attained loaded := by
    refine .step (.loadNew layout "r" 0) (.empty ..) (fun id hid => ?_) trivial runs_loaded
    cases hid
  refine ⟨.step (.assign 2 (.text "ab")) hloaded (List.forall_mem_singleton.2 (live_loaded (by decide)))
    trivial (ok_of_toOption (by decide +kernel)), ?_⟩
  have hshown : (longer.find? 2).map (fun p => (p.atom.info.extent?, p.atom.contentSize, p.atom.size))
      = some (some 4, 3, 5) := by
    decide +kernel
  obtain ⟨p, hp, hfind, -⟩ := find?_of_live (show longer.Live 2 by decide +kernel)
  rw [hfind, Option.map_some, Option.some.injEq, Prod.mk.injEq, Prod.mk.injEq] at hshown
  exact ⟨p, hp, hshown⟩

end SizedText

end BinaryLayout
