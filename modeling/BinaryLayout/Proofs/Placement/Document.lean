import BinaryLayout.Proofs.Handles.Forest
import BinaryLayout.Proofs.Placement.Edit

/-!
# Where the atoms of a document stand

Operations that succeed, one after another, leave every atom of a document where its layout puts it,
as long as no atom is moved out of an atom that holds it: the only atoms that may be moved on their
own are the outermost ones and what pointers refer to.

## Main definitions

* `Document.InPlace`: all atoms of a document are laid out.
* `Document.Attained`: the documents that successful operations on live handles make.
* `Atom.Standing`: where the parts of an atom stand, and how many bytes it stands for.

## Main statements

* `Document.Attained.standing`: every atom of an attained document stands where it should.
-/

namespace BinaryLayout

variable {κ α : Type}

open Atom

namespace Document

/-- All atoms are laid out. -/
def InPlace (d : Document κ) : Prop := ∀ a ∈ d.roots, Everywhere LaidOut a

/-- If the computation succeeds, all atoms are laid out. -/
def Placing (d : Document κ) (m : DocumentM κ α) : Prop :=
  Yields m d (fun _ t => t.InPlace) fun _ _ => True

variable {d : Document κ}

theorem InPlace.place (hd : d.InPlace) {p : Place κ} (hp : p ∈ d.places) :
    Everywhere LaidOut p.root.atom :=
  hd _ (mem_places.1 hp)

/-- A changed place put back. -/
theorem InPlace.put (hd : d.InPlace) {p : Place κ} (hp : Everywhere LaidOut p.root.atom)
    (l : Ledger κ) (sources : Sources) : ({ d with ledger := l, sources }.put p).InPlace := by
  intro a ha
  rcases mem_roots_put ha with rfl | ha
  · exact hp
  · exact hd a ha

theorem InPlace.add (hd : d.InPlace) {a : Atom κ} (ha : Everywhere LaidOut a) (l : Ledger κ) :
    ({ d with ledger := l }.add a).InPlace := by
  intro b hb
  rcases List.mem_cons.1 hb with rfl | hb
  · exact ha
  · exact hd b (List.mem_of_mem_filter hb)

theorem InPlace.remove (hd : d.InPlace) (a : Atom κ) : (d.remove a).InPlace :=
  fun b hb => hd b (List.mem_of_mem_filter hb)

/-- The workplace of an atom of the document. -/
theorem Balanced.tidy (hd : d.Balanced) (hplace : d.InPlace) {p : Place κ} (hp : p ∈ d.places) :
    Workplace.Tidy ⟨d.ledger, p⟩ :=
  ⟨hd.shaped_place hp, hplace.place hp⟩

/-! ## Content -/

/-- Edits that leave everything in order. -/
theorem Balanced.placing_edit (hd : d.Balanced) (hplace : d.InPlace) {id : Nat} (hid : d.Live id)
    {m : EditM κ Unit} (hm : ∀ s : Workplace κ, s.Tidy → EditM.Tidying s m) :
    Placing d (edit id m) := by
  refine yields_edit hid fun p hp _ _ => ?_
  exact (hm _ (hd.tidy hplace hp)).mono (fun _ s hs => hplace.put hs.laid _ _) fun _ _ h => h

theorem Balanced.placing_assign (hd : d.Balanced) (hplace : d.InPlace) {id : Nat} (hid : d.Live id)
    (v : Value) : Placing d (assign id v) :=
  DocumentM.yields_got <| hd.placing_edit hplace hid fun _ hs =>
    EditM.tidying_of_reaches (EditM.tidies_setValue d.env v hs.ready)

theorem Balanced.placing_recalculate (hd : d.Balanced) (hplace : d.InPlace) {id : Nat}
    (hid : d.Live id) : Placing d (recalculate id) :=
  DocumentM.yields_got <| hd.placing_edit hplace hid fun _ hs => EditM.tidying_recalculate d.env hs

theorem Balanced.placing_reference (hd : d.Balanced) (hplace : d.InPlace) {id : Nat}
    (hid : d.Live id) (address : Nat) : Placing d (reference id address) :=
  DocumentM.yields_got <| hd.placing_edit hplace hid fun _ hs =>
    EditM.tidying_of_reaches (EditM.tidies_reference d.env address hs.ready)

theorem Balanced.placing_allocateAtom (hd : d.Balanced) (hplace : d.InPlace) {id : Nat}
    (hid : d.Live id) : Placing d (allocateAtom id) :=
  DocumentM.yields_got <| hd.placing_edit hplace hid fun _ hs =>
    EditM.tidying_of_reaches (EditM.tidies_remake hs.ready)

theorem Balanced.placing_assignAt (hd : d.Balanced) (hplace : d.InPlace) {id : Nat}
    (hid : d.Live id) (path : String) (v : Value) : Placing d (assignAt id path v) := by
  refine DocumentM.yields_got ?_
  refine Yields.via (fun q t => t = d ∧ q ∈ d.places) ?_ fun q t ht => ?_
  · refine DocumentM.yields_ofExcept (fun q hq => ⟨rfl, ?_⟩) fun _ _ => trivial
    exact mem_places_of_locate hid hq
  · obtain ⟨rfl, hq⟩ := ht
    exact hd.placing_assign hplace (live_of_mem hq) v

theorem Balanced.placing_loadAtom (_ : d.Balanced) (hplace : d.InPlace) {id : Nat} (hid : d.Live id) :
    Placing d (loadAtom id) := by
  refine (DocumentM.yields_place hid).bind fun p t ht => ?_
  obtain ⟨⟨hp, -, -⟩, rfl⟩ := ht
  dsimp only
  split
  · exact Yields.throw_bind trivial
  · refine (DocumentM.yields_get t).bind fun e u hu => ?_
    obtain ⟨rfl, rfl⟩ := hu
    have hload := laid_load u.env Layout.nestingLimit p.frames p.atom
      ⟨u.ledger, u.sources, .source u.source⟩
    refine (DocumentM.yields_ofLoad hload).bind fun out t ht => ?_
    obtain ⟨s, rfl, hout⟩ := ht
    split
    · exact Yields.via (fun _ _ => True) trivial fun _ _ _ => Yields.throw trivial
    · rename_i herror
      obtain ⟨hlaid, hsite⟩ := hout herror
      have hpoised := poised_of_laidOut (hplace.place hp)
      rw [← Info.offset_of_site hsite] at hpoised
      obtain ⟨frames, hreflow, hwhole, -⟩ := laidOut_reflow hlaid hpoised
      have hput : Place.reflow ⟨out.atom, p.frames⟩ = ⟨out.atom, frames⟩ := hreflow
      rw [hput]
      exact Yields.modified (hplace.put (p := ⟨out.atom, frames⟩) hwhole _ _)

/-- The atom may be moved on its own: nothing holds it, or a pointer refers to it. -/
def Movable (p : Place κ) : Prop := ∀ outer, p.up? = some outer → ∃ wire, outer.atom.content = .pointer wire

theorem Balanced.placing_relocate (_ : d.Balanced) (hplace : d.InPlace) {id : Nat} (hid : d.Live id)
    (hmovable : ∀ p, d.find? id = some p → Movable p) (offset : Nat) :
    Placing d (relocate id offset) := by
  refine (DocumentM.yields_place hid).bind fun p t ht => ?_
  obtain ⟨⟨hp, hfind, -⟩, rfl⟩ := ht
  have hwhole := hplace.place hp
  have hmoved : Everywhere LaidOut (p.atom.relocate offset) := laidOut_relocate offset hwhole.of_assemble
  refine Yields.modified (hplace.put (p := ⟨p.atom.relocate offset, p.frames⟩) ?_ _ _)
  have hfree := hmovable p hfind
  obtain ⟨a, frames⟩ := p
  cases frames with
  | nil => exact hmoved
  | cons f frames =>
    obtain ⟨wire, hcontent⟩ := hfree _ rfl
    have hpointer : f.isPointer = true := Frame.isPointer_iff.2 ⟨wire, hcontent⟩
    have hpoised := poised_of_laidOut hwhole
    rw [Poised, if_pos hpointer] at hpoised
    exact hpoised _ hmoved

/-! ## Pointers -/

/-- What a pointer refers to is laid out. -/
theorem laid_loadReferent (env : Env κ) (p : Place κ) (s : LoadState κ) :
    Ends (loadReferent env p) s fun result _ => ∀ a, result = .ok a → Everywhere LaidOut a := by
  rw [loadReferent]
  split
  · exact Ends.pure fun _ h => by cases h
  · refine (LoadM.ends_spawn _ _ _ s).bind fun a t ha => ?_
    refine Ends.pure fun b hb => ?_
    cases hb
    have hlaid := ha.1.laidOut
    obtain ⟨info, content, parts⟩ := a
    exact everywhere_iff.2 ⟨⟨hlaid.here.seats, hlaid.here.tail, hlaid.here.wire⟩, (everywhere_iff.1 hlaid).2⟩
  · refine (LoadM.ends_spawn _ _ _ s).bind fun blank t _ => ?_
    refine (laid_load env Layout.nestingLimit _ blank t).bind fun out u hout => ?_
    split
    · rename_i herror
      exact Ends.pure fun a ha => by cases ha; exact (hout herror).1
    · exact (Ends.trivial _ u).bind fun _ _ _ => Ends.pure fun _ h => by cases h

/-- A pointer takes as many bytes with its referent as without. -/
theorem sameFooting_push {a b : Atom κ} {wire : Bytes} (hcontent : a.content = .pointer wire) :
    SameFooting a (a.push b) := by
  obtain ⟨info, content, parts⟩ := a
  cases hcontent
  refine ⟨rfl, rfl, ?_, rfl⟩
  cases hbits : info.layout.isBits <;> simp [push, size, contentSize, hbits, bitCount]

theorem laid_followPointer (env : Env κ) {p : Place κ} (hp : Everywhere LaidOut p.root.atom)
    (s : LoadState κ) :
    Ends (followPointer env p) s fun result _ =>
      ∀ q, result = .ok q → Everywhere LaidOut q.root.atom := by
  rw [followPointer]
  split
  · exact Ends.pure fun _ h => by cases h
  · exact Ends.pure fun q hq => by cases hq; exact hp
  · refine ((laid_loadReferent env p s).and (arrives_loadReferent env p s)).bind fun result t hresult => ?_
    obtain ⟨hlaid, hpointer⟩ := hresult
    split
    · exact Ends.pure fun _ h => by cases h
    · rename_i referent
      obtain ⟨⟨wire, hcontent⟩, -⟩ := hpointer
      refine Ends.pure fun q hq => ?_
      cases hq
      have hatom : Everywhere LaidOut p.atom := hp.of_assemble
      refine (sameFooting_push hcontent).laidOut_assemble ?_ hp
      refine everywhere_iff.2 ⟨⟨?_, hatom.here.tail, hatom.here.wire⟩, ?_⟩
      · rw [content_push, hcontent]
        exact trivial
      · rw [parts_push]
        exact List.forall_mem_append.2 ⟨fun _ => hatom.part, List.forall_mem_singleton.2 (hlaid _ rfl)⟩

theorem InPlace.placing_dereference (hplace : d.InPlace) {id : Nat}
    (hid : d.Live id) : Placing d (dereference id) := by
  refine (DocumentM.yields_place hid).bind fun p t ht => ?_
  obtain ⟨⟨hp, -, -⟩, rfl⟩ := ht
  refine DocumentM.yields_got ?_
  have hfollow := laid_followPointer t.env (hplace.place hp)
    ⟨t.ledger, t.sources, .source t.source⟩
  refine (DocumentM.yields_ofLoad hfollow).bind fun result u hu => ?_
  obtain ⟨s, rfl, hresult⟩ := hu
  split
  · exact Yields.throw trivial
  · refine Yields.via (fun _ u => u.InPlace) (Yields.modified ?_) fun _ _ hu => Yields.pure hu
    exact hplace.put (hresult _ rfl) _ _

theorem Balanced.placing_referenceAtom (hd : d.Balanced) (hplace : d.InPlace) {id target : Nat}
    (hid : d.Live id) (htarget : d.Live target) : Placing d (referenceAtom id target) := by
  refine (DocumentM.yields_place htarget).bind fun p t ht => ?_
  obtain ⟨-, rfl⟩ := ht
  exact hd.placing_reference hplace hid _

/-! ## Outermost atoms and bytes -/

theorem Balanced.placing_commit (hd : d.Balanced) (hplace : d.InPlace) {id : Nat} (hid : d.Live id) :
    Placing d (commit id) := by
  refine (DocumentM.yields_place hid).bind fun p t ht => ?_
  obtain ⟨⟨hp, -, -⟩, rfl⟩ := ht
  have howner := live_of_mem (mem_places_of_root p.root_byteOwner hp)
  refine Yields.bind (hd.placing_recalculate hplace howner) fun _ u hu => ?_
  refine Yields.via (fun _ v => v = u) ?_ fun q v hv => ?_
  · exact DocumentM.yields_got (DocumentM.yields_ofExcept (fun _ _ => rfl) fun _ _ => trivial)
  subst hv
  refine DocumentM.yields_got ?_
  refine Yields.via (fun _ w => w.InPlace) ?_ fun _ w hw => ?_
  · exact DocumentM.yields_ofSources (fun _ => hu) fun _ => trivial
  refine Yields.via (fun _ w => w.InPlace) ?_ fun written x hx => ?_
  · exact DocumentM.yields_ofSources (fun _ => hw) fun _ => trivial
  split
  · exact Yields.throw trivial
  · exact Yields.pure hx

theorem InPlace.placing_create (hplace : d.InPlace) (layout : Layout κ) (name : String) (offset : Nat) :
    Placing d (create layout name offset) := by
  refine (DocumentM.yields_ofLedger (Ends.spawn name (.bytes layout) offset d.ledger)).bind
    fun a t ht => ?_
  obtain ⟨l, rfl, hblank, -⟩ := ht
  exact Yields.via (fun _ u => u.InPlace) (Yields.modified (hplace.add hblank.laidOut l)) fun _ _ hu =>
    Yields.pure hu

/-- An operation on a new outermost atom. -/
theorem Balanced.placing_createWith (hd : d.Balanced) (hplace : d.InPlace) (layout : Layout κ)
    (name : String) (offset : Nat) {m : Nat → DocumentM κ Unit}
    (hm : ∀ (t : Document κ) id, t.Balanced → t.InPlace → t.Live id → Placing t (m id)) :
    Placing d (createWith layout name offset m) := by
  have hcreate := Yields.and (f := fun _ _ => True) (hd.yields_create layout name offset)
    (hplace.placing_create layout name offset)
  refine Yields.bind (hcreate.mono (fun _ _ h => h) fun _ _ _ => trivial) fun id t ht => ?_
  obtain ⟨⟨hbalanced, a, ha, rfl, -⟩, htplace⟩ := ht
  have hlive : t.Live a.info.id := live_of_mem (p := ⟨a, []⟩) (mem_places.2 ha)
  refine Yields.via (fun _ u => u.InPlace) ?_ fun _ _ hu => Yields.pure hu
  refine Yields.tryCatch (hm t _ hbalanced htplace hlive) fun e u _ => ?_
  exact (Yields.trivial _ u).bind fun p v _ =>
    Yields.via (fun _ _ => True) (Yields.modified trivial) fun _ _ _ => Yields.throw trivial

theorem Balanced.placing_discard (_ : d.Balanced) (hplace : d.InPlace) {id : Nat} (hid : d.Live id) :
    Placing d (discard id) := by
  refine (DocumentM.yields_place hid).bind fun p t ht => ?_
  obtain ⟨-, rfl⟩ := ht
  dsimp only
  split
  · exact Yields.throw_bind trivial
  · exact Yields.modified (hplace.remove p.atom)

theorem InPlace.placing_cast (hplace : d.InPlace) {id : Nat} (hid : d.Live id) (layout : Layout κ) :
    Placing d (cast id layout) := by
  refine (DocumentM.yields_place hid).bind fun p t ht => ?_
  obtain ⟨-, rfl⟩ := ht
  refine DocumentM.yields_got ?_
  refine (DocumentM.yields_ofLedger (Ends.spawn _ _ _ _)).bind fun blank u hu => ?_
  obtain ⟨l, rfl, -⟩ := hu
  have hload (bytes : Bytes) (offset : Nat) :
      Ends (LedgerM.fromBytes bytes offset (load t.env Layout.nestingLimit [] blank)) l
        fun out _ => out.Laid blank.info :=
    LedgerM.ends_fromBytes (laid_load t.env Layout.nestingLimit [] blank _)
  refine (DocumentM.yields_ofLedger (hload _ _)).bind fun out v hv => ?_
  obtain ⟨m, rfl, hout⟩ := hv
  split
  · exact Yields.via (fun _ _ => True) trivial fun _ _ _ => Yields.throw trivial
  · rename_i herror
    exact Yields.via (fun _ w => w.InPlace) (Yields.modified (hplace.add (hout herror).1 m)) fun _ _ hw =>
      Yields.pure hw

theorem InPlace.placing_copy (hplace : d.InPlace) {id : Nat} (hid : d.Live id) : Placing d (copy id) := by
  refine (DocumentM.yields_place hid).bind fun p t ht => ?_
  obtain ⟨-, rfl⟩ := ht
  split
  · exact hplace.placing_cast hid _
  · exact Yields.throw trivial

/-! ## Runs -/

/-- Only an atom that nothing but a pointer holds is moved on its own. -/
def Operation.Admissible (d : Document κ) : Operation κ → Prop
  | .relocate id _ => ∀ p, d.find? id = some p → Movable p
  | _ => True

/-- The documents that operations on live handles make of an empty one when each of them succeeds.
The open sources may change at any time. -/
inductive Attained : Document κ → Prop
  | empty (env : Env κ) (sources : Sources) (source : Nat) : Attained { env, sources, source }
  | step {d : Document κ} (op : Operation κ) (hd : Attained d) (hlive : ∀ id ∈ op.handles, d.Live id)
      (hmoves : op.Admissible d) (hok : (op.run.run d).1 = .ok ()) : Attained (op.run.run d).2
  | outside {d : Document κ} (sources : Sources) (hd : Attained d) : Attained { d with sources }

theorem Attained.reachable (h : Attained d) : Reachable d := by
  induction h with
  | empty env sources source => exact .empty env sources source
  | step op _ hlive _ _ ih => exact .step op ih hlive
  | outside sources _ ih => exact .outside sources ih

theorem Placing.forget {m : DocumentM κ α} (h : Placing d m) : Placing d (do let _ ← m) :=
  Yields.bind h fun _ _ ht => Yields.pure ht

/-- What one operation keeps. -/
theorem Balanced.placing_run (hd : d.Balanced) (hplace : d.InPlace) (op : Operation κ)
    (hlive : ∀ id ∈ op.handles, d.Live id) (hmoves : op.Admissible d) : Placing d op.run := by
  have hone {id : Nat} (h : op.handles = [id]) : d.Live id :=
    hlive id (h ▸ List.mem_singleton_self id)
  cases op with
  | create layout name offset => exact .forget (hplace.placing_create layout name offset)
  | loadNew layout name offset =>
    exact .forget (hd.placing_createWith hplace layout name offset
      fun _ _ ht htplace hid => ht.placing_loadAtom htplace hid)
  | allocateNew layout name =>
    exact .forget (hd.placing_createWith hplace layout name 0
      fun _ _ ht htplace hid => ht.placing_allocateAtom htplace hid)
  | loadAtom id => exact hd.placing_loadAtom hplace (hone rfl)
  | allocateAtom id => exact hd.placing_allocateAtom hplace (hone rfl)
  | assign id v => exact hd.placing_assign hplace (hone rfl) v
  | assignAt id path v => exact hd.placing_assignAt hplace (hone rfl) path v
  | recalculate id => exact hd.placing_recalculate hplace (hone rfl)
  | dereference id => exact .forget (hplace.placing_dereference (hone rfl))
  | reference id address => exact hd.placing_reference hplace (hone rfl) address
  | referenceAtom id target =>
    have hid := hlive id List.mem_cons_self
    have htarget := hlive target (List.mem_cons_of_mem _ List.mem_cons_self)
    exact hd.placing_referenceAtom hplace hid htarget
  | relocate id offset => exact hd.placing_relocate hplace (hone rfl) hmoves offset
  | commit id => exact hd.placing_commit hplace (hone rfl)
  | cast id layout => exact .forget (hplace.placing_cast (hone rfl) layout)
  | copy id => exact .forget (hplace.placing_copy (hone rfl))
  | discard id => exact hd.placing_discard hplace (hone rfl)
  | takeWarnings => exact Yields.modified hplace

/-- What a run of operations keeps. -/
theorem Attained.inPlace (h : Attained d) : d.InPlace := by
  induction h with
  | empty env sources source => exact fun _ ha => absurd ha List.not_mem_nil
  | step op hd hlive hmoves hok ih =>
    have hplacing := hd.reachable.balanced.placing_run ih op hlive hmoves
    exact hplacing.of_ok (Prod.ext hok rfl)
  | outside sources _ ih => exact ih

end Document

/-! ## What it says of each atom -/

namespace AtomLayout

/-- The parts of atoms of this layout come one after another. -/
def isRun : AtomLayout κ → Bool
  | bytes (.record ..) | bytes (.array ..) | bits (.record ..) | bits (.array ..) => true
  | _ => false

/-- The parts of atoms of this layout share their bytes. -/
def isUnion : AtomLayout κ → Bool
  | bytes (.union ..) => true
  | _ => false

/-- Atoms of this layout are whole bytes around bits. -/
def isHost : AtomLayout κ → Bool
  | bytes (.bits ..) => true
  | _ => false

variable {layout : AtomLayout κ} {content : Content}

theorem content_of_isRun (h : layout.admits content = true) (hrun : layout.isRun = true) :
    content = .empty ∨ content = .group := by
  cases layout with
  | bits layout => cases layout <;> cases content <;> simp_all [admits, isRun]
  | bytes layout => cases layout <;> cases content <;> simp_all [admits, isRun, Layout.isLeaf]

theorem content_of_isUnion (h : layout.admits content = true) (hunion : layout.isUnion = true) :
    content = .empty ∨ ∃ backing, content = .overlay backing := by
  cases layout with
  | bits layout => cases hunion
  | bytes layout => cases layout <;> cases content <;> simp_all [admits, isUnion, Layout.isLeaf]

theorem content_of_isHost (h : layout.admits content = true) (hhost : layout.isHost = true) :
    content = .empty ∨ ∃ pad, content = .host pad := by
  cases layout with
  | bits layout => cases hhost
  | bytes layout => cases layout <;> cases content <;> simp_all [admits, isHost, Layout.isLeaf]

end AtomLayout

/-- The parts of an atom stand where it puts them, unless an offset leaves the address space, and the
atom has as many bytes as its measure says. -/
structure Atom.Standing (a : Atom κ) : Prop where
  /-- The first field or element stands where the record or the array does. -/
  first : a.info.layout.isRun = true → ∀ b, a.parts[0]? = some b → b.info.offset = a.info.offset
  /-- The next one stands after the one before, in bits among bits. -/
  next : a.info.layout.isRun = true → ∀ (i : Nat) (b c : Atom κ), a.parts[i]? = some b →
    a.parts[i + 1]? = some c → b.info.offset + b.step a.isBits < pow2 64 →
      c.info.offset = b.info.offset + b.step a.isBits
  /-- The members of a union stand where it does. -/
  members : a.info.layout.isUnion = true → ∀ b ∈ a.parts, b.info.offset = a.info.offset
  /-- The root of a host stands at its first bit. -/
  root : a.info.layout.isHost = true → 8 * a.info.offset < pow2 64 →
    ∀ b ∈ a.parts, b.info.offset = 8 * a.info.offset
  /-- The measure of the atom is the length of its bytes. -/
  length : ∀ order, (a.serialize order).length = a.size

theorem satAdd_of_lt {offset amount : Nat} (h : offset + amount < pow2 64) :
    satAdd offset amount = offset + amount := by
  rw [satAdd]
  omega

/-- The next of two atoms that stand one after another. -/
theorem Atom.InTurn.next {inBits : Bool} {cursor : Nat} {as : List (Atom κ)} (h : InTurn inBits cursor as)
    {i : Nat} {a b : Atom κ} (ha : as[i]? = some a) (hb : as[i + 1]? = some b) :
    b.info.offset = satAdd a.info.offset (a.step inBits) := by
  induction as generalizing cursor i with
  | nil => cases ha
  | cons c as ih =>
    obtain ⟨hoffset, hrest⟩ := h
    cases i with
    | zero =>
      cases ha
      cases as with
      | nil => cases hb
      | cons d as =>
        cases hb
        rw [hrest.1, hoffset]
    | succ i => exact ih hrest ha hb

/-- A laid out atom of a good shape, whose bytes are as many as its measure says, stands where it
should. -/
theorem Atom.LaidOut.stands {a : Atom κ} (hlaid : a.LaidOut) (hshaped : a.Shaped)
    (hlength : ∀ order, (a.serialize order).length = a.size) : a.Standing := by
  have hseats := hlaid.seats
  have hadmits := hshaped.admits
  have hempty (hcontent : a.content = .empty) : a.parts = [] := by
    rw [hcontent] at hseats
    exact hseats
  refine ⟨fun h b hb => ?_, fun h i b c hb hc hfits => ?_, fun h b hb => ?_, fun h hfits b hb => ?_,
    hlength⟩
  · rcases AtomLayout.content_of_isRun hadmits h with hcontent | hcontent
    · rw [hempty hcontent] at hb
      cases hb
    · rw [hcontent] at hseats
      obtain ⟨info, content, parts⟩ := a
      cases parts with
      | nil => cases hb
      | cons part parts =>
        cases hb
        exact hseats.1
  · rcases AtomLayout.content_of_isRun hadmits h with hcontent | hcontent
    · rw [hempty hcontent] at hb
      cases hb
    · rw [hcontent] at hseats
      have hnext : c.info.offset = satAdd b.info.offset (b.step a.isBits) := InTurn.next hseats hb hc
      rw [hnext, satAdd_of_lt hfits]
  · rcases AtomLayout.content_of_isUnion hadmits h with hcontent | ⟨backing, hcontent⟩
    · rw [hempty hcontent] at hb
      cases hb
    · rw [hcontent] at hseats
      exact hseats b hb
  · rcases AtomLayout.content_of_isHost hadmits h with hcontent | ⟨pad, hcontent⟩
    · rw [hempty hcontent] at hb
      cases hb
    · rw [hcontent] at hseats
      rw [hseats.1 b hb, hostedAt]
      omega

/-- A laid out atom of a good shape stands where it should. -/
theorem Atom.standing_of_laidOut {a : Atom κ} (hlaid : Everywhere LaidOut a) (hshaped : a.Shaped) :
    a.Standing :=
  hlaid.here.stands hshaped fun order => length_serialize order a hlaid

namespace Document

variable {d : Document κ}

/-- Every atom stands where it should. -/
theorem Attained.standing (h : Attained d) {p : Place κ} (hp : p ∈ d.places) : p.atom.Standing :=
  standing_of_laidOut (h.inPlace.place hp).of_assemble
    (h.reachable.balanced.shaped_place hp).of_assemble.here

/-- A record is made, its first field gets a byte more, and so its second field moves. -/
theorem standing_of_longer_field :
    let empty : Document Empty :=
      { env := ⟨{}, ⟨nofun, nofun, nofun, nofun, nofun, nofun, nofun, nofun⟩⟩
        sources := []
        source := 0 }
    let record : Layout Empty :=
      .record "r" [⟨"a", .given (.block 2), none, none⟩, ⟨"b", .given (.block 1), none, none⟩]
    let made := ((Operation.allocateNew record "x").run.run empty).2
    let longer := ((Operation.assign 1 (.bytes [1, 2, 3])).run.run made).2
    (longer.places.map fun p => (p.atom.info.offset, p.atom.size)) = [(0, 4), (0, 3), (3, 1)]
      ∧ ∀ p ∈ longer.places, p.atom.Standing := by
  intro empty record made longer
  have hmade : Attained made := .step _ (.empty ..) nofun trivial rfl
  have hlive : made.Live 1 := ⟨_, List.mem_cons_of_mem _ List.mem_cons_self, rfl⟩
  have hlonger : Attained longer := .step _ hmade (List.forall_mem_singleton.2 hlive) trivial rfl
  exact ⟨by decide +kernel, fun p hp => Attained.standing hlonger hp⟩

end Document

end BinaryLayout
