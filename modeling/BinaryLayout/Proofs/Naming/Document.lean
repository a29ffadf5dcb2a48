import BinaryLayout.Proofs.Naming.Edit
import BinaryLayout.Proofs.Placement.Document

/-!
# Declared parts in a document

Whether operations succeed or fail, the atoms of a document have parts as their layouts declare them. So the
names of its atoms are known from the layouts around them, and from the positions of elements.

## Main statements

* `Document.naming_run`: what one operation keeps.
* `Document.Reachable.conforms`: what holds in every document that operations make.
-/

namespace BinaryLayout

variable {κ α : Type}

open Atom

namespace Document

variable {d : Document κ}

/-! ## Pointers -/

/-- What a pointer refers to has no other name, and the layout that the pointer declares. -/
theorem suits_loadReferent (env : Env κ) (p : Place κ) (s : LoadState κ) :
    Ends (loadReferent env p) s fun result _ => ∀ a, result = .ok a →
      ∃ pointer, pointerAt p.atom = .ok pointer ∧ a.Suits ("*", .bytes pointer.target) := by
  have hpointer {pointer : PointerLayout κ} {address : Option Nat}
      (h : (do
        let pointer ← pointerAt p.atom
        let wire ← wireOf pointer p.atom
        if wire = 0 then return (pointer, none)
        else return (pointer, some (← env.address pointer.policy p wire)) :
          Except Error (PointerLayout κ × Option Nat)) = .ok (pointer, address)) :
      pointerAt p.atom = .ok pointer := by
    cases hat : pointerAt p.atom with
    | error e =>
      rw [hat] at h
      cases h
    | ok own =>
      rw [hat] at h
      simp only [bind, Except.bind] at h
      repeat' split at h
      all_goals cases h
      all_goals rfl
  rw [loadReferent]
  split
  · exact Ends.pure fun _ h => by cases h
  · rename_i pointer hfound
    refine (LoadM.isNew_spawn _ _ _ s).bind fun a t ha => Ends.pure fun b hb => ?_
    cases hb
    exact ⟨pointer, hpointer hfound, Suits.mapInfo ⟨ha.label, ha.blank.conforms⟩ rfl⟩
  · rename_i pointer address hfound
    refine (LoadM.isNew_spawn _ _ _ s).bind fun blank t hblank => ?_
    refine ((makesSuitable_load env _).suits _ hblank t).bind fun out u hout => ?_
    split
    · refine Ends.pure fun a ha => ?_
      cases ha
      exact ⟨pointer, hpointer hfound, hout⟩
    · exact (Ends.trivial _ u).bind fun _ _ _ => Ends.pure fun _ h => by cases h

/-- A pointer with what it refers to. -/
theorem conforms_followPointer (env : Env κ) {p : Place κ} (hp : Everywhere Conforms p.root.atom)
    (s : LoadState κ) :
    Ends (followPointer env p) s fun result _ =>
      ∀ q, result = .ok q → Everywhere Conforms q.root.atom := by
  rw [followPointer]
  split
  · exact Ends.pure fun _ h => by cases h
  · refine Ends.pure fun q hq => ?_
    cases hq
    exact hp
  · rename_i hnone
    refine ((suits_loadReferent env p s).and (arrives_loadReferent env p s)).bind fun result t hresult => ?_
    obtain ⟨hsuits, hcontent⟩ := hresult
    split
    · exact Ends.pure fun _ h => by cases h
    · obtain ⟨⟨wire, hcontent⟩, -⟩ := hcontent
      obtain ⟨pointer, hpointer, hreferent⟩ := hsuits _ rfl
      refine Ends.pure fun q hq => ?_
      cases hq
      have hparts := parts_of_unfollowed hcontent hnone
      have hframe : p.atom.frame.NextAt 0 := by
        refine ⟨?_, rfl, ?_⟩
        · rw [frame, hparts, List.reverse_nil, List.length_nil]
        · rw [close_frame]
          exact hp.of_assemble
      have hdeclared : p.atom.info.layout.Declares 0 ("*", .bytes pointer.target) := by
        rw [pointerAt] at hpointer
        split at hpointer
        · rename_i hlayout
          cases hpointer
          rw [hlayout]
          exact ⟨rfl, rfl, rfl⟩
        · cases hpointer
      have hpushed := (hframe.push hreferent hdeclared).close
      rw [Frame.close_push, plug_frame] at hpushed
      exact conforms_assemble_of hpushed.conforms hp hpushed.label

/-! ## Operations -/

/-- Whether the computation succeeds or fails, all atoms have parts as they are declared. -/
def Naming (d : Document κ) (m : DocumentM κ α) : Prop :=
  Yields m d (fun _ t => t.Throughout Conforms) fun _ t => t.Throughout Conforms

theorem Naming.forget {m : DocumentM κ α} (h : Naming d m) : Naming d (do let _ ← m) :=
  Yields.bind h fun _ _ ht => Yields.pure ht

section Operations

variable (hnames : d.Throughout Conforms) {id : Nat} (hid : d.Live id)

include hnames hid

theorem naming_edit {m : EditM κ Unit} (hm : ∀ s : Workplace κ, Everywhere Conforms s.whole → Obeys s m) :
    Naming d (edit id m) := by
  refine yields_edit hid fun p hp _ _ => ?_
  exact Yields.mono (hm ⟨d.ledger, p⟩ (hnames.place hp)) (fun _ s hs => hnames.put hs.conforms _ _)
    fun _ s hs => hnames.put hs.conforms _ _

theorem naming_assign (v : Value) : Naming d (assign id v) :=
  DocumentM.yields_got <| naming_edit hnames hid fun _ => EditM.obeys_setValue d.env v

theorem naming_recalculate : Naming d (recalculate id) :=
  DocumentM.yields_got <| naming_edit hnames hid fun _ => EditM.obeys_recalculate d.env

theorem naming_reference (address : Nat) : Naming d (reference id address) :=
  DocumentM.yields_got <| naming_edit hnames hid fun _ => EditM.obeys_reference d.env address

theorem naming_allocateAtom : Naming d (allocateAtom id) :=
  DocumentM.yields_got <| naming_edit hnames hid fun _ hs =>
    Obeys.bind (EditM.obeys_allocate hs) fun _ _ ht => EditM.obeys_reflow ht.conforms

theorem naming_assignAt (path : String) (v : Value) : Naming d (assignAt id path v) := by
  refine DocumentM.yields_got ?_
  refine Yields.via (fun q t => t = d ∧ d.locate id path = .ok q) ?_ fun q t ht => ?_
  · exact DocumentM.yields_ofExcept (fun q hq => ⟨rfl, hq⟩) fun _ _ => hnames
  · obtain ⟨rfl, hlocate⟩ := ht
    exact naming_assign hnames (live_of_mem (mem_places_of_locate hid hlocate)) v

theorem naming_loadAtom : Naming d (loadAtom id) := by
  refine (DocumentM.yields_place hid).bind fun p t ht => ?_
  obtain ⟨⟨hp, -, -⟩, rfl⟩ := ht
  dsimp only
  split
  · exact Yields.throw_bind hnames
  · refine (DocumentM.yields_get t).bind fun e u hu => ?_
    obtain ⟨rfl, rfl⟩ := hu
    have hwhole := hnames.place hp
    have hload := suits_load u.env Layout.nestingLimit p.frames (.inl hwhole.of_assemble)
      ⟨u.ledger, u.sources, .source u.source⟩
    refine (DocumentM.yields_ofLoad hload).bind fun out t ht => ?_
    obtain ⟨s, rfl, hout⟩ := ht
    have hloaded : Everywhere Conforms (Place.root ⟨out.atom, p.frames⟩).atom :=
      conforms_assemble_of hout.conforms hwhole hout.label
    split
    · refine Yields.via (fun _ t => t.Throughout Conforms) (Yields.modified ?_) fun _ _ ht =>
        Yields.throw ht
      exact hnames.put hloaded _ _
    · exact Yields.modified (hnames.put (conforms_reflow hloaded) _ _)

theorem naming_relocate (offset : Nat) : Naming d (relocate id offset) := by
  refine (DocumentM.yields_place hid).bind fun p t ht => ?_
  obtain ⟨⟨hp, -, -⟩, rfl⟩ := ht
  have hsame : (p.atom.relocate offset).unplaced = p.atom.unplaced := by
    rw [Atom.relocate, unplaced_arranged]
    obtain ⟨⟨info, content, parts⟩, frames⟩ := p
    rfl
  have hlabel := congrArg (fun a => a.info.label) hsame
  simp only [info_unplaced] at hlabel
  have hwhole := hnames.place hp
  exact Yields.modified (hnames.put (p := ⟨p.atom.relocate offset, p.frames⟩)
    (conforms_assemble_of (conforms_of_unplaced hsame hwhole.of_assemble) hwhole hlabel) _ _)

theorem naming_dereference : Naming d (dereference id) := by
  refine (DocumentM.yields_place hid).bind fun p t ht => ?_
  obtain ⟨⟨hp, -, -⟩, rfl⟩ := ht
  refine DocumentM.yields_got ?_
  have hfollow := conforms_followPointer t.env (hnames.place hp) ⟨t.ledger, t.sources, .source t.source⟩
  refine (DocumentM.yields_ofLoad hfollow).bind fun result u hu => ?_
  obtain ⟨s, rfl, hresult⟩ := hu
  split
  · exact Yields.throw hnames
  · refine Yields.via (fun _ u => u.Throughout Conforms) (Yields.modified ?_) fun _ _ hu => Yields.pure hu
    exact hnames.put (hresult _ rfl) _ _

theorem naming_commit : Naming d (commit id) := by
  refine (DocumentM.yields_place hid).bind fun p t ht => ?_
  obtain ⟨⟨hp, -, -⟩, rfl⟩ := ht
  have howner := live_of_mem (mem_places_of_root p.root_byteOwner hp)
  refine Yields.bind (naming_recalculate hnames howner) fun _ u hu => ?_
  refine Yields.via (fun _ v => v = u) ?_ fun q v hv => ?_
  · exact DocumentM.yields_got (DocumentM.yields_ofExcept (fun _ _ => rfl) fun _ _ => hu)
  subst hv
  refine DocumentM.yields_got ?_
  refine Yields.via (fun _ x => x.Throughout Conforms) ?_ fun _ x hx => ?_
  · exact DocumentM.yields_ofSources (fun _ => hu) fun _ => hu
  refine Yields.via (fun _ y => y.Throughout Conforms) ?_ fun written y hy => ?_
  · exact DocumentM.yields_ofSources (fun _ => hx) fun _ => hx
  split
  · exact Yields.throw hy
  · exact Yields.pure hy

theorem naming_discard : Naming d (discard id) := by
  refine (DocumentM.yields_place hid).bind fun p t ht => ?_
  obtain ⟨-, rfl⟩ := ht
  dsimp only
  split
  · exact Yields.throw_bind hnames
  · exact Yields.modified (hnames.remove p.atom)

theorem naming_cast (layout : Layout κ) : Naming d (cast id layout) := by
  refine (DocumentM.yields_place hid).bind fun p t ht => ?_
  obtain ⟨-, rfl⟩ := ht
  refine DocumentM.yields_got ?_
  refine (DocumentM.yields_ofLedger (LedgerM.isNew_spawn _ _ _ _)).bind fun blank u hu => ?_
  obtain ⟨l, rfl, hblank⟩ := hu
  have hload (bytes : Bytes) (offset : Nat) :
      Ends (LedgerM.fromBytes bytes offset (load t.env Layout.nestingLimit [] blank)) l
        fun out _ => Everywhere Conforms out.atom :=
    LedgerM.ends_fromBytes (((makesSuitable_load t.env _).suits [] hblank _).mono fun _ _ h => h.conforms)
  refine (DocumentM.yields_ofLedger (hload _ _)).bind fun out v hv => ?_
  obtain ⟨m, rfl, hout⟩ := hv
  split
  · exact Yields.via (fun _ x => x.Throughout Conforms) hnames fun _ _ hx => Yields.throw hx
  · exact Yields.via (fun _ x => x.Throughout Conforms) (Yields.modified (hnames.add hout m))
      fun _ _ hx => Yields.pure hx

theorem naming_copy : Naming d (copy id) := by
  refine (DocumentM.yields_place hid).bind fun p t ht => ?_
  obtain ⟨-, rfl⟩ := ht
  split
  · exact naming_cast hnames hid _
  · exact Yields.throw hnames

end Operations

theorem naming_referenceAtom (hnames : d.Throughout Conforms) {id target : Nat} (hid : d.Live id)
    (htarget : d.Live target) : Naming d (referenceAtom id target) := by
  refine (DocumentM.yields_place htarget).bind fun p t ht => ?_
  obtain ⟨-, rfl⟩ := ht
  exact naming_reference hnames hid _

/-! ## Outermost atoms -/

theorem naming_create (hnames : d.Throughout Conforms) (layout : Layout κ) (name : String) (offset : Nat)
    {failed : Error → Document κ → Prop} :
    Yields (create layout name offset) d (fun id t => t.Throughout Conforms ∧ t.Live id) failed := by
  refine (DocumentM.yields_ofLedger (LedgerM.isNew_spawn name (.bytes layout) offset d.ledger)).bind
    fun a t ht => ?_
  obtain ⟨l, rfl, hblank⟩ := ht
  refine Yields.via (fun _ u => u = ({ d with ledger := l }.add a)) (Yields.modified rfl)
    fun _ u hu => ?_
  subst hu
  refine Yields.pure ⟨hnames.add hblank.blank.conforms l, live_of_mem (p := ⟨a, []⟩) (mem_places.2 ?_)⟩
  exact List.mem_cons_self

/-- An operation on a new outermost atom, which is taken back if the operation fails. -/
theorem naming_createWith (hnames : d.Throughout Conforms) (layout : Layout κ) (name : String) (offset : Nat)
    {m : Nat → DocumentM κ Unit}
    (hm : ∀ (t : Document κ) id, t.Throughout Conforms → t.Live id → Naming t (m id)) :
    Naming d (createWith layout name offset m) := by
  refine Yields.bind (naming_create hnames layout name offset) fun id t ht => ?_
  obtain ⟨htnames, hlive⟩ := ht
  refine Yields.via (fun _ u => u.Throughout Conforms) ?_ fun _ _ hu => Yields.pure hu
  refine Yields.tryCatch (hm t id htnames hlive) fun e u hu => ?_
  refine Yields.via (fun _ v => v = u) ?_ fun p v hv => ?_
  · exact DocumentM.yields_got (DocumentM.yields_ofExcept (fun _ _ => rfl) fun _ _ => hu)
  subst hv
  exact Yields.via (fun _ x => x.Throughout Conforms) (Yields.modified (hu.remove p.atom))
    fun _ _ hx => Yields.throw hx

/-! ## Runs -/

/-- What one operation keeps. -/
theorem naming_run (hnames : d.Throughout Conforms) (op : Operation κ)
    (hlive : ∀ id ∈ op.handles, d.Live id) : Naming d op.run := by
  have hone {id : Nat} (h : op.handles = [id]) : d.Live id :=
    hlive id (h ▸ List.mem_singleton_self id)
  cases op with
  | create layout name offset =>
    exact .forget ((naming_create hnames layout name offset).mono (fun _ _ h => h.1) fun _ _ h => h)
  | loadNew layout name offset =>
    exact .forget (naming_createWith hnames layout name offset fun _ _ ht hid => naming_loadAtom ht hid)
  | allocateNew layout name =>
    exact .forget (naming_createWith hnames layout name 0 fun _ _ ht hid =>
      naming_allocateAtom ht hid)
  | loadAtom id => exact naming_loadAtom hnames (hone rfl)
  | allocateAtom id => exact naming_allocateAtom hnames (hone rfl)
  | assign id v => exact naming_assign hnames (hone rfl) v
  | assignAt id path v => exact naming_assignAt hnames (hone rfl) path v
  | recalculate id => exact naming_recalculate hnames (hone rfl)
  | dereference id => exact .forget (naming_dereference hnames (hone rfl))
  | reference id address => exact naming_reference hnames (hone rfl) address
  | referenceAtom id target =>
    have hid := hlive id List.mem_cons_self
    have htarget := hlive target (List.mem_cons_of_mem _ List.mem_cons_self)
    exact naming_referenceAtom hnames hid htarget
  | relocate id offset => exact naming_relocate hnames (hone rfl) offset
  | commit id => exact naming_commit hnames (hone rfl)
  | cast id layout => exact .forget (naming_cast hnames (hone rfl) layout)
  | copy id => exact .forget (naming_copy hnames (hone rfl))
  | discard id => exact naming_discard hnames (hone rfl)
  | takeWarnings => exact Yields.modified hnames

/-- In every document that operations make, all atoms have parts as they are declared. -/
theorem Reachable.conforms (h : d.Reachable) : d.Throughout Conforms := by
  induction h with
  | empty env sources source => exact fun _ ha => absurd ha List.not_mem_nil
  | step op _ hlive ih => exact (naming_run ih op hlive).of_run
  | outside sources _ ih => exact ih

end Document

end BinaryLayout
