import Mathlib.Data.List.Perm.Basic
import Mathlib.Data.List.Range
import Mathlib.Logic.Relation
import BinaryLayout.Proofs.Handles.Operations

/-!
# The forest of a document

A document that operations on live handles made, one after another and whether they succeeded or
failed, is a forest: each atom in it is found by its handle alone, what an atom contains has it as
its parent, nothing contains itself, and the handles of the atoms and the free ones are all that
were ever made, each once.

## Main definitions

* `Document.Operation`: the operations, as data.
* `Document.Reachable`: the documents that operations on live handles make.
* `Document.Forest`: handles, parts and parents agree, and no handle is lost.

## Main statements

* `Document.Reachable.forest`: reachable documents are forests.
-/

namespace BinaryLayout

variable {κ : Type}

open Atom

theorem Atom.count_ids_le (h : Nat) (as : List (Atom κ)) :
    (as.map fun a => a.info.id).count h ≤ tallies h as := by
  induction as with
  | nil => exact Nat.le_refl 0
  | cons a as ih =>
    rw [List.map_cons, List.count_cons, tallies, tally_eq]
    simp only [beq_iff_eq]
    omega

theorem Place.parts_ids (p : Place κ) :
    (p.parts.map fun q => q.atom.info.id) = p.atom.parts.map fun a => a.info.id := by
  have hamong (frames : List (Frame κ)) (info : Info κ) (content : Content) (left as : List (Atom κ)) :
      ((partsAmong frames info content left as).map fun q => q.atom.info.id)
        = as.map fun a => a.info.id := by
    induction as generalizing left with
    | nil => rfl
    | cons a as ih => rw [partsAmong, List.map_cons, ih, List.map_cons]
  obtain ⟨⟨info, content, parts⟩, frames⟩ := p
  exact hamong frames info content [] parts

theorem Place.length_up? {p q : Place κ} (h : q.up? = some p) :
    p.frames.length < q.frames.length := by
  obtain ⟨a, frames⟩ := q
  cases frames with
  | nil => cases h
  | cons f frames =>
    cases h
    exact Nat.lt_succ_self _

namespace Document

/-! ## Runs -/

/-- The operations on a document. -/
inductive Operation (κ : Type) where
  | create (layout : Layout κ) (name : String) (offset : Nat)
  | loadNew (layout : Layout κ) (name : String) (offset : Nat)
  | allocateNew (layout : Layout κ) (name : String)
  | loadAtom (id : Nat)
  | allocateAtom (id : Nat)
  | assign (id : Nat) (v : Value)
  | assignAt (id : Nat) (path : String) (v : Value)
  | recalculate (id : Nat)
  | dereference (id : Nat)
  | reference (id address : Nat)
  | referenceAtom (id target : Nat)
  | relocate (id offset : Nat)
  | commit (id : Nat)
  | cast (id : Nat) (layout : Layout κ)
  | copy (id : Nat)
  | discard (id : Nat)
  | takeWarnings

namespace Operation

/-- The handles that the operation is applied to. -/
def handles : Operation κ → List Nat
  | create .. | loadNew .. | allocateNew .. | takeWarnings => []
  | loadAtom id | allocateAtom id | assign id _ | assignAt id _ _ | recalculate id | dereference id
  | reference id _ | relocate id _ | commit id | cast id _ | copy id | discard id => [id]
  | referenceAtom id target => [id, target]

/-- Runs the operation. The handle that some of them give is left out. -/
def run : Operation κ → DocumentM κ Unit
  | create layout name offset => do let _ ← Document.create layout name offset
  | loadNew layout name offset => do let _ ← Document.loadNew layout name offset
  | allocateNew layout name => do let _ ← Document.allocateNew layout name
  | loadAtom id => Document.loadAtom id
  | allocateAtom id => Document.allocateAtom id
  | assign id v => Document.assign id v
  | assignAt id path v => Document.assignAt id path v
  | recalculate id => Document.recalculate id
  | dereference id => do let _ ← Document.dereference id
  | reference id address => Document.reference id address
  | referenceAtom id target => Document.referenceAtom id target
  | relocate id offset => Document.relocate id offset
  | commit id => Document.commit id
  | cast id layout => do let _ ← Document.cast id layout
  | copy id => do let _ ← Document.copy id
  | discard id => Document.discard id
  | takeWarnings => modify fun d => d.takeWarnings.2

end Operation

/-- The documents that operations on live handles make of an empty one, whether they succeed or
fail. The open sources may change at any time. -/
inductive Reachable : Document κ → Prop
  | empty (env : Env κ) (sources : Sources) (source : Nat) : Reachable { env, sources, source }
  | step {d : Document κ} (op : Operation κ) (hd : Reachable d)
      (hlive : ∀ id ∈ op.handles, d.Live id) : Reachable (op.run.run d).2
  | outside {d : Document κ} (sources : Sources) (hd : Reachable d) :
      Reachable { d with sources }

variable {d : Document κ}

theorem Balancing.forget {α : Type} {m : DocumentM κ α} (h : Balancing d m) :
    Balancing d (do let _ ← m) :=
  Yields.bind h fun _ _ ht => Yields.pure ht

/-- What one operation keeps. -/
theorem Balanced.balancing_run (hd : d.Balanced) (op : Operation κ)
    (hlive : ∀ id ∈ op.handles, d.Live id) : Balancing d op.run := by
  have hone {id : Nat} (h : op.handles = [id]) : d.Live id :=
    hlive id (h ▸ List.mem_singleton_self id)
  cases op with
  | create layout name offset =>
    exact .forget ((hd.yields_create layout name offset).mono (fun _ _ h => h.1) fun _ _ h => h)
  | loadNew layout name offset => exact .forget (hd.balancing_loadNew layout name offset)
  | allocateNew layout name => exact .forget (hd.balancing_allocateNew layout name)
  | loadAtom id => exact (hd.renewing_loadAtom (hone rfl)).balancing
  | allocateAtom id => exact (hd.renewing_allocateAtom (hone rfl)).balancing
  | assign id v => exact (hd.renewing_assign (hone rfl) v).balancing
  | assignAt id path v => exact (hd.renewing_assignAt (hone rfl) path v).balancing
  | recalculate id => exact (hd.renewing_recalculate (hone rfl)).balancing
  | dereference id => exact .forget (hd.renewing_dereference (hone rfl)).balancing
  | reference id address => exact (hd.renewing_reference (hone rfl) address).balancing
  | referenceAtom id target =>
    have hid := hlive id List.mem_cons_self
    have htarget := hlive target (List.mem_cons_of_mem _ List.mem_cons_self)
    exact (hd.renewing_referenceAtom hid htarget).balancing
  | relocate id offset => exact (hd.renewing_relocate (hone rfl) offset).balancing
  | commit id => exact (hd.renewing_commit (hone rfl)).balancing
  | cast id layout => exact .forget (hd.balancing_cast (hone rfl) layout)
  | copy id => exact .forget (hd.balancing_copy (hone rfl))
  | discard id => exact hd.balancing_discard (hone rfl)
  | takeWarnings => exact Yields.modified ⟨hd.shaped, hd.balance⟩

/-- What a run of operations keeps. -/
theorem Reachable.balanced (h : Reachable d) : d.Balanced := by
  induction h with
  | empty env sources source => exact ⟨fun _ ha => absurd ha List.not_mem_nil, fun _ => rfl⟩
  | step op _ hlive ih => exact (ih.balancing_run op hlive).of_run
  | outside sources _ ih => exact ⟨ih.shaped, ih.balance⟩

/-! ## Forests -/

/-- The handle `h` is that of an atom directly inside the one with the handle `outer`. -/
def Inside (d : Document κ) (h outer : Nat) : Prop :=
  ∃ q ∈ d.places, ∃ p, q.up? = some p ∧ q.atom.info.id = h ∧ p.atom.info.id = outer

/-- Handles, parts and parents agree, and every handle is that of one atom or free. -/
structure Forest (d : Document κ) : Prop where
  /-- An atom is found by its handle. -/
  found : ∀ p ∈ d.places, d.find? p.atom.info.id = some p
  /-- What an atom contains is live and has that atom as its parent. -/
  parts : ∀ p ∈ d.places, ∀ q ∈ p.parts, d.Live q.atom.info.id ∧ q.up? = some p
  /-- A parent contains the atom once. -/
  parent : ∀ q ∈ d.places, ∀ p, q.up? = some p →
    p ∈ d.places ∧ (p.parts.map fun part => part.atom.info.id).count q.atom.info.id = 1
  /-- Only outermost atoms have no parent. -/
  outermost : ∀ q ∈ d.places, q.up? = none → ∃ a ∈ d.roots, q = ⟨a, []⟩
  /-- Nothing contains itself. -/
  acyclic : ∀ h, ¬ Relation.TransGen d.Inside h h
  /-- No handle is free twice. -/
  free : (d.ledger.vacant.map fun a => a.info.id).Nodup
  /-- The handles that are not free are those of atoms. -/
  live : ∀ h, d.Live h ↔ h < d.ledger.made ∧ h ∉ d.ledger.vacant.map fun a => a.info.id
  /-- The handles in use are as many as the atoms that walks visit. -/
  count : d.atomCount = (d.roots.map fun a => (Place.walk ⟨a, []⟩).length).sum

theorem Balanced.perm (hd : d.Balanced) :
    ((d.places.map fun p => p.atom.info.id) ++ d.ledger.vacant.map fun a => a.info.id).Perm
      (List.range d.ledger.made) := by
  refine List.perm_iff_count.2 fun h => ?_
  have hbalance := hd.balance h
  rw [List.count_append, count_places, List.count_range]
  rw [Ledger.balance] at hbalance
  split at hbalance <;> rename_i hmade <;> simp only [hmade, if_true, if_false] <;> omega

/-- An atom stands once among the parts of its parent. -/
theorem Balanced.count_parts (hd : d.Balanced) {p q : Place κ} (hp : p ∈ d.places)
    (hq : q ∈ p.parts) :
    (p.parts.map fun part => part.atom.info.id).count q.atom.info.id = 1 := by
  have hpos : 0 < (p.parts.map fun part => part.atom.info.id).count q.atom.info.id :=
    List.count_pos_iff.2 (List.mem_map_of_mem hq)
  have hparts : (p.parts.map fun part => part.atom.info.id).count q.atom.info.id
      ≤ tallies q.atom.info.id p.atom.parts := by
    rw [p.parts_ids]
    exact count_ids_le _ _
  have hatom := tally_eq q.atom.info.id p.atom
  have hroot := Place.tally_assemble q.atom.info.id p.atom p.frames
  have hroots : (Place.assemble p.atom p.frames).tally q.atom.info.id
      ≤ tallies q.atom.info.id d.roots := tallies_pos (mem_places.1 hp) _
  have hle := hd.tallies_le q.atom.info.id
  omega

/-- Going outwards along handles goes outwards. -/
theorem Balanced.outwards (hd : d.Balanced) {h outer : Nat} (hin : Relation.TransGen d.Inside h outer) :
    ∃ q ∈ d.places, ∃ p ∈ d.places, q.atom.info.id = h ∧ p.atom.info.id = outer
      ∧ p.frames.length < q.frames.length := by
  induction hin with
  | single hin =>
    obtain ⟨q, hq, p, hup, hqid, hpid⟩ := hin
    exact ⟨q, hq, p, mem_places_of_root (Place.root_up? hup) hq, hqid, hpid, Place.length_up? hup⟩
  | tail _ hin ih =>
    obtain ⟨q, hq, p, hp, hqid, hpid, hlt⟩ := ih
    obtain ⟨p', hp', outer, hup, hpid', houter⟩ := hin
    obtain rfl := hd.eq_of_id hp hp' (hpid.trans hpid'.symm)
    exact ⟨q, hq, outer, mem_places_of_root (Place.root_up? hup) hp, hqid, houter,
      (Place.length_up? hup).trans hlt⟩

/-- Balanced documents are forests. -/
theorem Balanced.isForest (hd : d.Balanced) : d.Forest where
  found p hp := by
    obtain ⟨q, hq, hfind, hid⟩ := find?_of_live (live_of_mem hp)
    rw [hfind, hd.eq_of_id hq hp hid]
  parts p hp q hq := by
    have hup := Place.mem_parts.1 hq
    exact ⟨live_of_mem (mem_places_of_root (Place.root_up? hup).symm hp), hup⟩
  parent q hq p hup := by
    have hp := mem_places_of_root (Place.root_up? hup) hq
    exact ⟨hp, hd.count_parts hp (Place.mem_parts.2 hup)⟩
  outermost q hq hup := by
    obtain ⟨a, frames⟩ := q
    cases frames with
    | nil => exact ⟨a, mem_places.1 hq, rfl⟩
    | cons f frames => cases hup
  acyclic h hin := by
    obtain ⟨q, hq, p, hp, hqid, hpid, hlt⟩ := hd.outwards hin
    obtain rfl := hd.eq_of_id hq hp (hqid.trans hpid.symm)
    exact Nat.lt_irrefl _ hlt
  free := (hd.perm.nodup_iff.2 List.nodup_range).of_append_right
  live h := by
    have hmem : h ∈ (d.places.map fun p => p.atom.info.id)
        ++ d.ledger.vacant.map (fun a => a.info.id) ↔ h < d.ledger.made := by
      rw [hd.perm.mem_iff, List.mem_range]
    have hdisjoint := List.disjoint_of_nodup_append (hd.perm.nodup_iff.2 List.nodup_range)
    have hlive : d.Live h ↔ h ∈ d.places.map fun p => p.atom.info.id := by
      simp [Live]
    rw [hlive, ← hmem, List.mem_append]
    constructor
    · exact fun h => ⟨.inl h, hdisjoint h⟩
    · exact fun h => h.1.resolve_right h.2
  count := by
    have hlength := hd.perm.length_eq
    rw [List.length_append, List.length_map, List.length_map, List.length_range] at hlength
    rw [atomCount, Ledger.inUse, ← List.length_flatMap]
    exact Nat.sub_eq_of_eq_add hlength.symm

/-- A changed place that was put back is one of the document. -/
theorem Balanced.places_put (hd : d.Balanced) {p q : Place κ} {m : Ledger κ} (hp : p ∈ d.places)
    (h : Accounts p.root.atom d.ledger q.root.atom m) :
    ({ d with ledger := m }.put q).Balanced ∧ q ∈ ({ d with ledger := m }.put q).places := by
  obtain ⟨before, after, -, hput, hbalanced⟩ :=
    hd.put (mem_places.1 hp) (Info.id_of_site h.site) h.shaped h.balance
  refine ⟨hbalanced, mem_places.2 ?_⟩
  rw [hput]
  exact List.mem_append_right _ List.mem_cons_self

/-- It is found by the handle that it had. -/
theorem Balanced.find?_put (hd : d.Balanced) {p q : Place κ} {m : Ledger κ} (hp : p ∈ d.places)
    (h : Accounts p.root.atom d.ledger q.root.atom m) :
    ({ d with ledger := m }.put q).find? q.atom.info.id = some q := by
  obtain ⟨hbalanced, hplace⟩ := hd.places_put hp h
  exact hbalanced.isForest.found q hplace

/-- Whatever operations on live handles made a document, it is a forest. -/
theorem Reachable.forest (h : Reachable d) : d.Forest := h.balanced.isForest

/-- A record is made, an assignment to it fails, and it is given up. -/
theorem forest_of_failed_assignment :
    let empty : Document Empty :=
      { env := ⟨{}, ⟨nofun, nofun, nofun, nofun, nofun, nofun, nofun, nofun⟩⟩
        sources := []
        source := 0 }
    let record : Layout Empty := .record "r" [⟨"a", .given (.block 2), none, none⟩]
    let made := ((Operation.allocateNew record "x").run.run empty).2
    let kept := ((Operation.assign 0 (.text "")).run.run made).2
    made.atomCount = 2 ∧ kept.Live 1 ∧ ((Operation.discard 0).run.run kept).2.Forest := by
  intro empty record made kept
  have hmade : Reachable made := .step _ (.empty ..) nofun
  have hlive : made.Live 0 := ⟨_, List.mem_cons_self, rfl⟩
  have hkept : Reachable kept := .step _ hmade (List.forall_mem_singleton.2 hlive)
  have hkeptlive : kept.Live 0 := ⟨_, List.mem_cons_self, rfl⟩
  refine ⟨rfl, ⟨_, List.mem_cons_of_mem _ List.mem_cons_self, rfl⟩, ?_⟩
  exact Reachable.forest (.step _ hkept (List.forall_mem_singleton.2 hkeptlive))

end Document

end BinaryLayout
