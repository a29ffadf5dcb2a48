import BinaryLayout.Edit.Recalculate
import BinaryLayout.Proofs.Edit.Rules
import BinaryLayout.Proofs.Flags.Surroundings
import BinaryLayout.Proofs.Handles.Edit

/-!
# Flags while atoms are edited

An edit may fail anywhere, and then what was changed so far stays changed. Wherever it ends, the flags of
the atoms tell the truth, and null pointers refer to the same atoms as before. Assigning refuses those
atoms, so that only pointing a null referent at an address and allocating it give it content.

Raw bytes go into a text as they are, so the values that are assigned decide which bytes are left open.

## Main definitions

* `Value.AllBytes`, `Env.GivesBytes`: what all raw byte strings in a value satisfy, and in those that update
  rules give.
* `Tells`: what holds between the workplaces before and after an edit.
* `Heeds`: an edit after which flags tell the truth, with or without an error.

## Main statements

* `heeds_setValue`, `heeds_recalculate`, `heeds_reference`: the edits of an atom.
-/

namespace BinaryLayout

variable {κ α β : Type}

open Atom

namespace Value

mutual

/-- All raw byte strings in the value satisfy `P`. -/
def AllBytes (P : Bytes → Prop) : Value → Prop
  | .bytes raw => P raw
  | .fields members => AllBytesOfFields P members
  | .items elements => AllBytesOfItems P elements
  | _ => True

/-- All raw byte strings in the fields satisfy `P`. -/
def AllBytesOfFields (P : Bytes → Prop) : List (String × Value) → Prop
  | [] => True
  | (_, v) :: members => AllBytes P v ∧ AllBytesOfFields P members

/-- All raw byte strings in the elements satisfy `P`. -/
def AllBytesOfItems (P : Bytes → Prop) : List Value → Prop
  | [] => True
  | v :: elements => AllBytes P v ∧ AllBytesOfItems P elements

end

variable {P : Bytes → Prop}

theorem allBytes_fields {members : List (String × Value)} :
    (Value.fields members).AllBytes P ↔ ∀ m ∈ members, m.2.AllBytes P := by
  rw [AllBytes]
  induction members with
  | nil => exact iff_of_true trivial fun _ h => by cases h
  | cons m members ih => rw [AllBytesOfFields, List.forall_mem_cons, ih]

theorem allBytes_items {elements : List Value} :
    (Value.items elements).AllBytes P ↔ ∀ v ∈ elements, v.AllBytes P := by
  rw [AllBytes]
  induction elements with
  | nil => exact iff_of_true trivial fun _ h => by cases h
  | cons v elements ih => rw [AllBytesOfItems, List.forall_mem_cons, ih]

/-- What holds of every byte string holds of those in a value. -/
theorem allBytes_of_forall (h : ∀ raw, P raw) (v : Value) : v.AllBytes P := by
  refine of_inductive (P := AllBytes P) (fun v hmembers helements => ?_) v
  cases v with
  | bytes raw => exact h raw
  | fields members => exact allBytes_fields.2 (hmembers members rfl)
  | items elements => exact allBytes_items.2 (helements elements rfl)
  | unsigned | signed | bool | float | text | bits => trivial

end Value

/-- All raw byte strings in the values that the update rules give satisfy `P`. -/
def Env.GivesBytes (env : Env κ) (P : Bytes → Prop) : Prop :=
  ∀ rule scope v, env.rules.update rule scope = .ok v → v.AllBytes P

namespace Atom

variable {w : Leeway} {a : Atom κ}

theorem isPointer_frame : a.frame.isPointer = false ↔ ∀ wire, a.content ≠ .pointer wire := by
  rw [← Bool.not_eq_true, Frame.isPointer_iff]
  exact not_exists

/-- Only texts are marked. -/
theorem Flagged.unmarked_of (h : a.Flagged w)
    (hlayout : ∀ content, a.info.layout.isUndecodable content = false) : a.info.undecodable = false :=
  Bool.eq_false_iff.2 fun hmarked => Bool.eq_false_iff.1 (hlayout _) (h.marked hmarked).2

/-- No null pointer refers to a part of an atom that is no pointer. -/
theorem null_of_down? {p q : Place κ} {i : Nat} (h : p.down? i = some q)
    (hp : Everywhere (Flagged w) p.atom) (hpointer : p.atom.frame.isPointer = false) :
    q.atom.info.null = false := by
  obtain ⟨f, -, hplug, -⟩ := Place.frames_of_down? h
  rw [← hplug] at hp hpointer
  exact (null_of_plug hp.here (isPointer_frame.1 hpointer)).2.1

end Atom

/-- The flags of all atoms tell the truth after an edit, and null pointers refer to the same atoms around
the place as before. -/
structure Tells (w : Leeway) (s t : Workplace κ) : Prop where
  flags : Everywhere (Flagged w) t.whole
  null : t.place.atom.info.null = s.place.atom.info.null
  links : Frame.links t.place.frames = Frame.links s.place.frames

section Tells

variable {w : Leeway} {s t u : Workplace κ}

theorem Workplace.truthful (hs : Everywhere (Flagged w) s.whole) :
    s.place.atom.Truthful w s.place.atom.info.null :=
  ⟨rfl, Everywhere.of_assemble hs⟩

namespace Tells

theorem refl (hs : Everywhere (Flagged w) s.whole) : Tells w s s := ⟨hs, rfl, rfl⟩

theorem trans (hst : Tells w s t) (htu : Tells w t u) : Tells w s u :=
  ⟨htu.flags, htu.null.trans hst.null, htu.links.trans hst.links⟩

/-- Another atom at the same place. -/
theorem of_atom {l : Ledger κ} {a : Atom κ} (hs : Everywhere (Flagged w) s.whole)
    (ha : a.Truthful w s.place.atom.info.null) : Tells w s ⟨l, ⟨a, s.place.frames⟩⟩ :=
  ⟨flagged_assemble_of ha.flags hs ha.null, ha.null, rfl⟩

/-- Other surroundings of the same atom. -/
theorem of_frames {l : Ledger κ} {frames : List (Frame κ)}
    (h : Everywhere (Flagged w) (Place.assemble s.place.atom frames))
    (hlinks : Frame.links frames = Frame.links s.place.frames) :
    Tells w s ⟨l, ⟨s.place.atom, frames⟩⟩ :=
  ⟨h, rfl, hlinks⟩

end Tells

/-- Flags tell the truth around the enclosing atom of an edited one. -/
def TellsOuter (w : Leeway) (s t : Workplace κ) : Prop :=
  ∃ outer outer', s.place.up? = some outer ∧ t.place.up? = some outer'
    ∧ Tells w { s with place := outer } { t with place := outer' }
    ∧ outer'.atom.frame.isPointer = outer.atom.frame.isPointer

theorem TellsOuter.trans (hst : TellsOuter w s t) (htu : TellsOuter w t u) : TellsOuter w s u := by
  obtain ⟨p, q, hp, hq, htells, hpointer⟩ := hst
  obtain ⟨q', r, hq', hr, htells', hpointer'⟩ := htu
  rw [hq, Option.some.injEq] at hq'
  subst hq'
  exact ⟨p, r, hp, hr, htells.trans htells', hpointer'.trans hpointer⟩

theorem Tells.outwards (h : Tells w s t) {outer : Place κ} (hup : s.place.up? = some outer) :
    TellsOuter w s t := by
  obtain ⟨hflags, -, hlinks⟩ := h
  obtain ⟨l, a, frames⟩ := s
  obtain ⟨m, b, frames'⟩ := t
  obtain _ | ⟨f, frames⟩ := frames
  · cases hup
  obtain _ | ⟨f', frames'⟩ := frames'
  · cases hlinks
  obtain ⟨hlink, hrest⟩ := List.cons.inj hlinks
  cases hup
  exact ⟨_, _, rfl, rfl, ⟨hflags, congrArg Prod.fst hlink, hrest⟩, congrArg Prod.snd hlink⟩

end Tells

/-- However the edit ends, flags tell the truth. -/
def Heeds (w : Leeway) (s : Workplace κ) (m : EditM κ α) : Prop :=
  Yields m s (fun _ t => Tells w s t) fun _ t => Tells w s t

namespace Heeds

variable {w : Leeway} {s : Workplace κ}

theorem pure (hs : Everywhere (Flagged w) s.whole) (a : α) : Heeds w s (Pure.pure a : EditM κ α) :=
  Yields.pure (.refl hs)

theorem throw (hs : Everywhere (Flagged w) s.whole) (e : Error) :
    Heeds w s (MonadExcept.throw e : EditM κ α) :=
  Yields.throw (.refl hs)

/-- One edit after another, by what holds after the first. -/
theorem after {m : EditM κ α} {f : α → EditM κ β} {q : α → Workplace κ → Prop}
    (hm : Yields m s q fun _ t => Tells w s t)
    (hf : ∀ a t, q a t → Tells w s t ∧ Heeds w t (f a)) : Heeds w s (m >>= f) := by
  refine hm.bind fun a t hmid => ?_
  obtain ⟨hst, hheeds⟩ := hf a t hmid
  exact hheeds.mono (fun _ _ h => hst.trans h) fun _ _ h => hst.trans h

theorem bind {m : EditM κ α} {f : α → EditM κ β} (hm : Heeds w s m)
    (hf : ∀ a t, Tells w s t → Heeds w t (f a)) : Heeds w s (m >>= f) :=
  after hm fun a t hst => ⟨hst, hf a t hst⟩

/-- An error seen from further out is still one. -/
theorem within {m : EditM κ α} (outer : Path) (hm : Heeds w s m) : Heeds w s (EditM.within outer m) :=
  EditM.yields_within outer hm

end Heeds

namespace EditM

variable {w : Leeway} {env : Env κ} {s : Workplace κ}

theorem heeds_setAtom (hs : Everywhere (Flagged w) s.whole) {a : Atom κ}
    (ha : a.Truthful w s.place.atom.info.null) : Heeds w s (setAtom a) :=
  yields_setAtom (.of_atom hs ha)

/-- The atom at the place gets default content. -/
theorem heeds_allocate (hs : Everywhere (Flagged w) s.whole)
    (hnull : s.place.atom.info.null = true → w.content) :
    Heeds w s (remake (allocate env Layout.nestingLimit)) := by
  refine yields_remake ((truthful_allocate env _ s.place.frames hnull (.inl (Workplace.truthful hs)) _).mono
    fun _ _ h => ⟨fun _ => .of_atom hs h, fun _ _ => .of_atom hs h⟩)

/-- What surrounds the atom at the place follows. -/
theorem heeds_around {follow : Atom κ → List (Frame κ) → LedgerM κ (Surroundings κ)}
    (hfollow : Ends (follow s.place.atom s.place.frames) s.ledger fun out _ =>
      Everywhere (Flagged w) (Place.assemble s.place.atom out.frames)
        ∧ Frame.links out.frames = Frame.links s.place.frames) :
    Heeds w s (around follow) :=
  yields_around (hfollow.mono fun _ _ h => ⟨fun _ => .of_frames h.1 h.2, fun _ _ => .of_frames h.1 h.2⟩)

theorem heeds_syncUnions (hs : Everywhere (Flagged w) s.whole) : Heeds w s (around (syncUnions env)) :=
  heeds_around (flagged_syncUnions _ _ hs _)

theorem heeds_markDirty (hs : Everywhere (Flagged w) s.whole) :
    Heeds w s (modify fun s => { s with place := ⟨s.place.atom, markDirty s.place.frames⟩ }) := by
  obtain ⟨hflags, hlinks⟩ := flagged_markDirty hs
  exact Yields.modified (.of_frames hflags hlinks)

theorem heeds_reflow (hs : Everywhere (Flagged w) s.whole) :
    Heeds w s (modify fun s => { s with place := s.place.reflow }) := by
  obtain ⟨hflags, hnull, hlinks⟩ := flagged_reflow hs
  exact Yields.modified ⟨hflags, hnull, hlinks⟩

theorem heeds_afterChange (hs : Everywhere (Flagged w) s.whole) : Heeds w s (afterChange env) := by
  refine Heeds.bind (heeds_around (flagged_followDependents _ _ hs _)) fun _ t ht => ?_
  refine Heeds.bind (heeds_reflow ht.flags) fun _ u hu => ?_
  exact Heeds.bind (heeds_syncUnions hu.flags) fun _ v hv => heeds_markDirty hv.flags

/-- The changed atom is initialized, and what surrounds it follows. -/
theorem heeds_finish (hs : Everywhere (Flagged w) s.whole)
    (hnull : s.place.atom.info.null = true → w.content) : Heeds w s (finish env) := by
  refine Heeds.after (yields_atom s) fun a t ht => ?_
  obtain ⟨rfl, rfl⟩ := ht
  exact ⟨.refl hs, Heeds.bind (heeds_setAtom hs ((Workplace.truthful hs).ready hnull))
    fun _ u hu => heeds_afterChange hu.flags⟩

/-- What is edited is not what a null pointer refers to. -/
theorem heeds_prepare (hs : Everywhere (Flagged w) s.whole) :
    Yields (prepare env) s (fun _ t => Tells w s t ∧ t.place.atom.info.null = false)
      fun _ t => Tells w s t := by
  refine (yields_atom s).bind fun a t ht => ?_
  obtain ⟨rfl, rfl⟩ := ht
  dsimp only
  split
  · exact Yields.throw_bind (.refl hs)
  · rename_i hnull
    rw [Bool.not_eq_true] at hnull
    split
    · refine (heeds_allocate hs fun h => ?_).mono (fun _ u hu => ⟨hu, hu.null.trans hnull⟩) fun _ _ h => h
      cases hnull.symm.trans h
    · exact Yields.pure ⟨.refl hs, hnull⟩

/-! ## Parts -/

/-- An edit of a part. -/
theorem tells_atPart (hs : Everywhere (Flagged w) s.whole) (i : Nat) {m : EditM κ Unit}
    (hm : ∀ p, s.place.down? i = some p → Yields m { s with place := p }
      (fun _ t => TellsOuter w { s with place := p } t) fun _ t => TellsOuter w { s with place := p } t) :
    Yields (atPart i m) s
      (fun _ t => Tells w s t ∧ t.place.atom.frame.isPointer = s.place.atom.frame.isPointer)
      fun _ t => Tells w s t := by
  refine yields_atPart (fun _ => ⟨.refl hs, rfl⟩) fun p hdown => ?_
  have hend (t : Workplace κ) (h : TellsOuter w { s with place := p } t) :
      Tells w s { t with place := t.place.up?.getD t.place }
        ∧ (t.place.up?.getD t.place).atom.frame.isPointer = s.place.atom.frame.isPointer := by
    obtain ⟨outer, outer', hup, hup', htells, hpointer⟩ := h
    obtain rfl : s.place = outer := Option.some.inj ((Place.up?_down? hdown).symm.trans hup)
    rw [hup']
    exact ⟨htells, hpointer⟩
  exact (hm p hdown).mono (fun _ t h => hend t h) fun _ t h => (hend t h).1

theorem flagged_down? {i : Nat} {p : Place κ} (h : s.place.down? i = some p)
    (hs : Everywhere (Flagged w) s.whole) :
    Everywhere (Flagged w) (Workplace.whole { s with place := p }) :=
  (whole_down? h).symm ▸ hs

/-- An edit of a part, told from where the part is. -/
theorem heeds_atPart (hs : Everywhere (Flagged w) s.whole) (i : Nat) {m : EditM κ Unit}
    (hm : ∀ p, s.place.down? i = some p → Heeds w { s with place := p } m) :
    Yields (atPart i m) s
      (fun _ t => Tells w s t ∧ t.place.atom.frame.isPointer = s.place.atom.frame.isPointer)
      fun _ t => Tells w s t := by
  refine tells_atPart hs i fun p hdown => ?_
  have hup : (Workplace.mk s.ledger p).place.up? = some s.place := Place.up?_down? hdown
  exact Yields.mono (hm p hdown) (fun _ _ h => h.outwards hup) fun _ _ h => h.outwards hup

/-- An edit of a part, whatever the part is. -/
theorem heeds_part (hs : Everywhere (Flagged w) s.whole) (i : Nat) {m : EditM κ Unit}
    (hm : ∀ t, Everywhere (Flagged w) t.whole → Heeds w t m) : Heeds w s (atPart i m) :=
  (heeds_atPart hs i fun _ hdown => hm _ (flagged_down? hdown hs)).mono (fun _ _ h => h.1) fun _ _ h => h

theorem heeds_atMember (hs : Everywhere (Flagged w) s.whole) (name : String) {m : EditM κ Unit}
    (hm : ∀ t, Everywhere (Flagged w) t.whole → Heeds w t m) : Heeds w s (atMember name m) := by
  refine Heeds.after (yields_atom s) fun a t ht => ?_
  obtain ⟨rfl, rfl⟩ := ht
  refine ⟨.refl hs, ?_⟩
  split
  · exact Heeds.within _ (heeds_part hs _ hm)
  · exact Heeds.throw hs _

theorem heeds_expectParts (hs : Everywhere (Flagged w) s.whole) (given : Nat) :
    Heeds w s (expectParts given) := by
  refine Heeds.after (yields_atom s) fun a t ht => ?_
  obtain ⟨rfl, rfl⟩ := ht
  refine ⟨.refl hs, ?_⟩
  dsimp only
  split
  · exact Heeds.throw hs _
  · exact Heeds.pure hs _

/-! ## Members and elements -/

section Values

variable {assign : Value → EditM κ Unit}

theorem heeds_assignMembers {members : List (String × Value)}
    (hmembers : ∀ m ∈ members, ∀ s : Workplace κ, Everywhere (Flagged w) s.whole → Heeds w s (assign m.2))
    {s : Workplace κ} (hs : Everywhere (Flagged w) s.whole) : Heeds w s (assignMembers assign members) := by
  induction members generalizing s with
  | nil => exact Heeds.pure hs ()
  | cons member members ih =>
    rw [List.forall_mem_cons] at hmembers
    refine Heeds.bind (heeds_atMember hs _ hmembers.1) fun _ t ht => ?_
    exact ih hmembers.2 ht.flags

theorem heeds_assignElements {elements : List Value}
    (helements : ∀ v ∈ elements, ∀ s : Workplace κ, Everywhere (Flagged w) s.whole → Heeds w s (assign v))
    {s : Workplace κ} (hs : Everywhere (Flagged w) s.whole) (index : Nat) :
    Heeds w s (assignElements assign index elements) := by
  induction elements generalizing s index with
  | nil => exact Heeds.pure hs ()
  | cons v elements ih =>
    rw [List.forall_mem_cons] at helements
    refine Heeds.bind (Heeds.within _ (heeds_part hs index helements.1)) fun _ t ht => ?_
    exact ih helements.2 ht.flags _

end Values

/-- Assigning to an atom of bits. -/
theorem heeds_setBits (env : Env κ) (v : Value) {s : Workplace κ} (hs : Everywhere (Flagged w) s.whole) :
    Heeds w s (setBits env v) := by
  revert s
  refine Value.of_inductive (P := fun v => ∀ {s : Workplace κ}, Everywhere (Flagged w) s.whole →
    Heeds w s (setBits env v)) (fun v hmembers helements s hs => ?_) v
  rw [setBits]
  refine Heeds.after (heeds_prepare hs) fun _ t ht => ⟨ht.1, ?_⟩
  obtain ⟨hst, hnull⟩ := ht
  have hfinish (u : Workplace κ) (hu : Tells w t u) : Heeds w u (finish env) :=
    heeds_finish hu.flags fun h => by cases (hu.null.trans hnull).symm.trans h
  refine Heeds.after (yields_atom t) fun a u hu => ?_
  obtain ⟨rfl, rfl⟩ := hu
  refine ⟨.refl hst.flags, ?_⟩
  split
  · rename_i bits signed hlayout
    refine Heeds.after (q := fun _ v => v = u) ?_ fun encoded v hv => ?_
    · exact yields_ofExcept (fun _ _ => rfl) fun _ _ => .refl hst.flags
    subst hv
    refine ⟨.refl hst.flags, Heeds.after (yields_atom v) fun a x hx => ?_⟩
    obtain ⟨rfl, rfl⟩ := hx
    have hmark : x.place.atom.info.undecodable = false :=
      (Workplace.truthful hst.flags).flags.here.unmarked_of fun content => by rw [hlayout]; rfl
    refine ⟨.refl hst.flags, Heeds.bind (heeds_setAtom hst.flags ?_) fun _ => hfinish⟩
    exact truthful_fill_nil rfl (fun h => by cases hnull.symm.trans h) hmark (.bits encoded)
      fun _ h => by cases h
  · split
    · rw [setBitFields_eq]
      exact Heeds.bind (heeds_assignMembers (hmembers _ rfl) hst.flags) fun _ => hfinish
    · exact Yields.throw_bind (.refl hst.flags)
  · split
    · refine Heeds.bind (heeds_expectParts hst.flags _) fun _ v hv => ?_
      rw [setBitElements_eq]
      refine Heeds.bind (heeds_assignElements (helements _ rfl) hv.flags _) fun _ x hx => ?_
      exact hfinish x (hv.trans hx)
    · exact Yields.throw_bind (.refl hst.flags)
  · exact Yields.throw_bind (.refl hst.flags)

/-! ## Bytes -/

theorem heeds_dropElements (hs : Everywhere (Flagged w) s.whole) {element : Layout κ} {shape : Shape κ}
    (hlayout : s.place.atom.info.layout = .bytes (.array element shape))
    (hnull : s.place.atom.info.null = false) :
    Yields dropElements s (fun _ t => Tells w s t ∧ t.place.atom.frame.isPointer = false)
      fun _ t => Tells w s t := by
  refine (yields_atom s).bind fun a t ht => ?_
  obtain ⟨rfl, rfl⟩ := ht
  have hmark : t.place.atom.info.undecodable = false :=
    (Workplace.truthful hs).flags.here.unmarked_of fun content => by rw [hlayout]; cases content <;> rfl
  refine Yields.via (fun _ u => u = { t with ledger := t.ledger.releaseAll t.place.atom.parts }) rfl
    fun _ u hu => ?_
  subst hu
  have hcontent (h : t.place.atom.info.null = true) : w.content := by cases hnull.symm.trans h
  refine yields_setAtom ⟨.of_atom hs ?_, rfl⟩
  exact (truthful_fill_nil rfl hcontent hmark .group nofun).withTail hcontent []

theorem heeds_addElement (hs : Everywhere (Flagged w) s.whole)
    (hpointer : s.place.atom.frame.isPointer = false) (element : Layout κ) (index cursor : Nat) :
    Yields (addElement env element index cursor) s
      (fun _ t => Tells w s t ∧ t.place.atom.frame.isPointer = false) fun _ t => Tells w s t := by
  refine Yields.bind (yields_ofLedger (LedgerM.truthful_spawn w _ _ _ _)) fun blank t ht => ?_
  obtain ⟨hplace, hblank⟩ := ht
  refine (yields_atom t).bind fun a u hu => ?_
  obtain ⟨rfl, rfl⟩ := hu
  obtain ⟨l, q⟩ := u
  subst hplace
  have hstart : Tells w s ⟨l, ⟨s.place.atom.push blank, s.place.frames⟩⟩ :=
    .of_atom hs ((Workplace.truthful hs).push hblank.flags fun _ => hblank.null)
  refine Yields.via (fun _ v => v = ⟨l, ⟨s.place.atom.push blank, s.place.frames⟩⟩) rfl
    fun _ v hv => ?_
  subst hv
  have hpart := heeds_atPart (m := remake (allocate env Layout.nestingLimit)) hstart.flags index
    fun p hdown => heeds_allocate (flagged_down? hdown hstart.flags) fun h => by
      cases (null_of_down? hdown (Workplace.truthful hstart.flags).flags hpointer).symm.trans h
  exact yields_within _ (hpart.mono (fun _ v hv => ⟨hstart.trans hv.1, hv.2.trans hpointer⟩)
    fun _ v hv => hstart.trans hv)

theorem heeds_setNewElements {elements : List Value}
    (helements : ∀ v ∈ elements, ∀ s : Workplace κ, Everywhere (Flagged w) s.whole →
      Heeds w s (setBytes env v))
    {s : Workplace κ} (hs : Everywhere (Flagged w) s.whole)
    (hpointer : s.place.atom.frame.isPointer = false) (element : Layout κ) (index cursor : Nat) :
    Heeds w s (setNewElements env element index cursor elements) := by
  induction elements generalizing s index cursor with
  | nil =>
    rw [setNewElements]
    exact Heeds.pure hs ()
  | cons v elements ih =>
    rw [List.forall_mem_cons] at helements
    rw [setNewElements]
    refine Heeds.after (heeds_addElement hs hpointer element index cursor) fun _ t ht => ⟨ht.1, ?_⟩
    refine Heeds.after (yields_within _ (heeds_atPart ht.1.flags index fun _ hdown =>
      helements.1 _ (flagged_down? hdown ht.1.flags))) fun _ u hu => ⟨hu.1, ?_⟩
    refine Heeds.after (yields_partSize index u) fun size v hv => ?_
    obtain ⟨rfl, rfl⟩ := hv
    exact ⟨.refl hu.1.flags, ih helements.2 hu.1.flags (hu.2.trans ht.2) _ _⟩

/-- Storing the bytes of a value, which decode unless they were given as such. -/
theorem heeds_setScalar (hs : Everywhere (Flagged w) s.whole) {layout : Layout κ}
    (hlayout : s.place.atom.info.layout = .bytes layout) (hnull : s.place.atom.info.null = false) {v : Value}
    (hv : v.AllBytes w.bytes) : Heeds w s (setScalar layout v) := by
  refine Yields.via (fun raw t => t = s ∧ layout.encode v = .ok raw) ?_ fun raw t ht => ?_
  · exact yields_ofExcept (fun _ h => ⟨rfl, h⟩) fun _ _ => .refl hs
  obtain ⟨rfl, hencode⟩ := ht
  refine (yields_atom t).bind fun a u hu => ?_
  obtain ⟨rfl, rfl⟩ := hu
  refine Yields.via (fun _ t => t = { u with ledger := u.ledger.releaseAll u.place.atom.parts }) rfl
    fun _ t ht => ?_
  subst ht
  refine yields_setAtom (.of_atom hs (truthful_withBytes hlayout rfl (fun h => ?_) false raw nofun
    fun hundecodable => .inr ?_))
  · cases hnull.symm.trans h
  · rw [Layout.isUndecodable_of_encode hencode hundecodable] at hv
    exact hv

/-- Assigning to an atom of bytes. -/
theorem heeds_setBytes (env : Env κ) {v : Value} (hv : v.AllBytes w.bytes) {s : Workplace κ}
    (hs : Everywhere (Flagged w) s.whole) : Heeds w s (setBytes env v) := by
  revert hv s
  refine Value.of_inductive (P := fun v => v.AllBytes w.bytes → ∀ {s : Workplace κ},
    Everywhere (Flagged w) s.whole → Heeds w s (setBytes env v))
    (fun v hmembers helements hv s hs => ?_) v
  rw [setBytes]
  refine Heeds.after (heeds_prepare hs) fun _ t ht => ⟨ht.1, ?_⟩
  obtain ⟨hst, hnull⟩ := ht
  have hfinish (u : Workplace κ) (hu : Tells w t u) : Heeds w u (finish env) :=
    heeds_finish hu.flags fun h => by cases (hu.null.trans hnull).symm.trans h
  refine Heeds.after (yields_atom t) fun a u hu => ?_
  obtain ⟨rfl, rfl⟩ := hu
  refine ⟨.refl hst.flags, ?_⟩
  cases hlayout : u.place.atom.info.layout with
  | bits layout => exact Yields.throw_bind (.refl hst.flags)
  | bytes layout =>
    cases layout
    case record | union =>
      cases v
      case fields members =>
        have hgiven := Value.allBytes_fields.1 hv
        have hloop : Heeds w u (assignMembers (setBytes env) members) :=
          heeds_assignMembers (fun m hm s => hmembers _ rfl m hm (hgiven m hm)) hst.flags
        rw [← setFields_eq] at hloop
        exact Heeds.bind hloop fun _ => hfinish
      all_goals exact Yields.throw_bind (.refl hst.flags)
    case array element shape =>
      cases v
      case items elements =>
        have hgiven := Value.allBytes_items.1 hv
        have heach (v : Value) (hv : v ∈ elements) (s : Workplace κ)
            (hs : Everywhere (Flagged w) s.whole) : Heeds w s (setBytes env v) :=
          helements _ rfl v hv (hgiven v hv) hs
        refine Heeds.after (yields_atom u) fun a t ht => ?_
        obtain ⟨rfl, rfl⟩ := ht
        refine ⟨.refl hst.flags, ?_⟩
        split
        · have hloop := heeds_assignElements heach hst.flags 0
          rw [← setElements_eq] at hloop
          exact Heeds.bind hloop fun _ => hfinish
        · have hanew : Heeds w t (do
              dropElements
              setNewElements env element 0 t.place.atom.info.offset elements
              finish env) := by
            refine Heeds.after (heeds_dropElements hst.flags hlayout hnull) fun _ u hu => ⟨hu.1, ?_⟩
            refine Heeds.bind (heeds_setNewElements heach hu.1.flags hu.2 _ _ _) fun _ v hv => ?_
            exact hfinish v (hu.1.trans hv)
          cases shape with
          | counted count => exact Yields.throw_bind (.refl hst.flags)
          | block | terminated | unending => exact hanew
      all_goals exact Yields.throw_bind (.refl hst.flags)
    case bits root order =>
      refine Heeds.after (yields_atom u) fun a t ht => ?_
      obtain ⟨rfl, rfl⟩ := ht
      refine ⟨.refl hst.flags, ?_⟩
      split
      · exact Heeds.bind (heeds_part hst.flags 0 fun t ht => heeds_setBits env v ht) fun _ => hfinish
      · exact Yields.throw_bind (.refl hst.flags)
    all_goals exact Heeds.bind (heeds_setScalar hst.flags hlayout hnull hv) fun _ => hfinish

/-- Assigning to any atom. -/
theorem heeds_setValue (env : Env κ) {v : Value} (hv : v.AllBytes w.bytes) {s : Workplace κ}
    (hs : Everywhere (Flagged w) s.whole) : Heeds w s (setValue env v) := by
  refine Heeds.after (yields_atom s) fun a t ht => ?_
  obtain ⟨rfl, rfl⟩ := ht
  refine ⟨.refl hs, ?_⟩
  split
  · exact heeds_setBits env v hs
  · exact heeds_setBytes env hv hs

/-! ## Pointers -/

/-- Pointing a pointer at an address gives it content. -/
theorem heeds_reference (env : Env κ) (address : Nat) (hs : Everywhere (Flagged w) s.whole)
    (hnull : s.place.atom.info.null = true → w.content) : Heeds w s (reference env address) := by
  refine (yields_place s).bind fun p t ht => ?_
  obtain ⟨rfl, rfl⟩ := ht
  refine Yields.via (fun pointer u => u = t ∧ pointerAt t.place.atom = .ok pointer) ?_
    fun pointer u hu => ?_
  · exact yields_ofExcept (fun _ h => ⟨rfl, h⟩) fun _ _ => .refl hs
  obtain ⟨rfl, hpointer⟩ := hu
  refine Yields.via (fun _ v => v = u) ?_ fun wire v hv => ?_
  · exact yields_ofExcept (fun _ _ => rfl) fun _ _ => .refl hs
  subst hv
  refine Yields.via (fun _ x => x = v) ?_ fun raw x hx => ?_
  · exact yields_ofExcept (fun _ _ => rfl) fun _ _ => .refl hs
  subst hx
  have hmark : x.place.atom.info.undecodable = false := by
    obtain ⟨format, target, policy, hlayout⟩ := layout_of_pointerAt hpointer
    exact (Workplace.truthful hs).flags.here.unmarked_of fun content => by
      rw [hlayout]
      cases content <;> rfl
  have hstored := truthful_fill_nil rfl hnull hmark (.pointer raw) nofun
  refine Yields.via (fun _ y => y = { x with ledger := x.ledger.releaseAll x.place.atom.parts }) rfl
    fun _ y hy => ?_
  subst hy
  refine Yields.via (fun _ y => Tells w x y) (.of_atom hs hstored) fun _ y hy => ?_
  exact (heeds_finish hy.flags (hy.null ▸ hnull)).mono (fun _ _ h => hy.trans h) fun _ _ h => hy.trans h

/-- A pointer with another number and the same referent. -/
theorem truthful_rewire {a : Atom κ} {null : Bool} (ha : a.Truthful w null) {wire : Bytes}
    (hcontent : a.content = .pointer wire) (raw : Bytes) :
    (a.fill (.pointer raw) a.parts).Truthful w null := by
  obtain ⟨hhere, hparts⟩ := everywhere_iff.1 ha.flags
  refine ⟨ha.null, everywhere_iff.2 ⟨hhere.refill rfl ?_ (fun bytes h => ?_) fun h => ?_, hparts⟩⟩
  · rw [hcontent]
    rfl
  · cases hcontent.symm.trans h
  · exact absurd rfl (h raw)

/-- Storing a followed pointer's number again. -/
theorem heeds_refreshWire (env : Env κ) (hs : Everywhere (Flagged w) s.whole) :
    Heeds w s (refreshWire env) := by
  refine (yields_place s).bind fun p t ht => ?_
  obtain ⟨rfl, rfl⟩ := ht
  refine Yields.via (fun raw? u => u = t ∧ refreshedWire env t.place = .ok raw?) ?_
    fun raw? u hu => ?_
  · exact yields_ofExcept (fun _ h => ⟨rfl, h⟩) fun _ _ => .refl hs
  obtain ⟨rfl, hraw⟩ := hu
  cases raw? with
  | none => exact Heeds.pure hs ()
  | some raw =>
    obtain ⟨_, _, _, -, hreferent, -⟩ := of_refreshedWire hraw
    obtain ⟨⟨wire, hcontent⟩, -⟩ := content_of_referent? hreferent
    have hstored := truthful_rewire (Workplace.truthful hs) hcontent raw
    dsimp only
    split
    · refine Heeds.bind (heeds_setAtom hs hstored) fun _ v hv => ?_
      exact Heeds.bind (heeds_syncUnions hv.flags) fun _ x hx => heeds_markDirty hx.flags
    · exact Heeds.pure hs ()

/-! ## Updates -/

theorem heeds_updateFields (hrules : env.GivesBytes w.bytes) (fields : List (Field κ (Layout κ)))
    (index : Nat) {s : Workplace κ} (hs : Everywhere (Flagged w) s.whole) :
    Heeds w s (updateFields env index fields) := by
  induction fields generalizing s index with
  | nil => exact Heeds.pure hs ()
  | cons field fields ih =>
    have hrest (t : Workplace κ) (ht : Tells w s t) : Heeds w t (updateFields env (index + 1) fields) :=
      ih (index + 1) ht.flags
    rw [updateFields]
    refine (yields_place s).bind fun p t ht => ?_
    obtain ⟨rfl, rfl⟩ := ht
    dsimp only
    split
    · exact hrest t (.refl hs)
    · rename_i rule _
      split
      · refine Heeds.bind (Heeds.within _ ?_) fun _ => hrest
        refine Heeds.after (q := fun wanted u => u = t
          ∧ env.rules.update rule (Scope.full env.config t.place) = .ok wanted) ?_ fun wanted u hu => ?_
        · exact yields_ofExcept (fun _ h => ⟨rfl, ok_of_mapError h⟩) fun _ _ => .refl hs
        obtain ⟨rfl, hwanted⟩ := hu
        refine ⟨.refl hs, ?_⟩
        split
        · exact heeds_part hs index fun v hv => heeds_setValue env (hrules _ _ _ hwanted) hv
        · exact Heeds.pure hs ()
      · exact hrest t (.refl hs)

/-- Editing an atom and its later siblings. -/
theorem tells_alongSiblings {m : EditM κ Unit}
    (hm : ∀ s : Workplace κ, Everywhere (Flagged w) s.whole → Heeds w s m) (count : Nat)
    {s : Workplace κ} (hs : Everywhere (Flagged w) s.whole) {outer : Place κ}
    (hup : s.place.up? = some outer) :
    Yields (alongSiblings m count) s (fun _ t => TellsOuter w s t) fun _ t => TellsOuter w s t := by
  induction count generalizing s outer with
  | zero => exact Yields.pure ((Tells.refl hs).outwards hup)
  | succ count ih =>
    rw [alongSiblings]
    refine (yields_place s).bind fun p t ht => ?_
    obtain ⟨rfl, rfl⟩ := ht
    refine Yields.via (fun _ u => Tells w t u) ?_ fun _ u hu => ?_
    · exact (Heeds.within _ (hm t hs)).mono (fun _ _ h => h) fun _ _ h => h.outwards hup
    have houter := hu.outwards hup
    refine (yields_place u).bind fun p v hv => ?_
    obtain ⟨rfl, rfl⟩ := hv
    split
    · exact Yields.pure houter
    · rename_i q hnext
      obtain ⟨-, outer', -, hup', -, -⟩ := houter
      have hupnext : q.up? = some outer' := (Place.up?_next? hnext).trans hup'
      have hwhole (p : Place κ) (hp : p.root = v.place.root) :
          Everywhere (Flagged w) (Workplace.whole { v with place := p }) := by
        rw [Workplace.whole, hp]
        exact hu.flags
      have hroot : outer'.root = v.place.root := Place.root_up? hup'
      have hstep : TellsOuter w v { v with place := q } :=
        ⟨outer', outer', hup', hupnext, .refl (hwhole _ hroot), rfl⟩
      refine Yields.via (fun _ x => x = { v with place := q }) rfl fun _ x hx => ?_
      subst hx
      have hback := (hu.outwards hup).trans hstep
      exact (ih (hwhole _ ((Place.root_up? hupnext).symm.trans hroot)) hupnext).mono
        (fun _ _ h => hback.trans h) fun _ _ h => hback.trans h

theorem heeds_eachPart {m : EditM κ Unit}
    (hm : ∀ s : Workplace κ, Everywhere (Flagged w) s.whole → Heeds w s m)
    (hs : Everywhere (Flagged w) s.whole) : Heeds w s (eachPart m) := by
  refine (yields_atom s).bind fun a t ht => ?_
  obtain ⟨rfl, rfl⟩ := ht
  refine (tells_atPart hs 0 fun p hdown => ?_).mono (fun _ _ h => h.1) fun _ _ h => h
  exact tells_alongSiblings hm _ (flagged_down? hdown hs) (Place.up?_down? hdown)

theorem heeds_recalculateTo (hrules : env.GivesBytes w.bytes) (depth : Nat) {s : Workplace κ}
    (hs : Everywhere (Flagged w) s.whole) : Heeds w s (recalculateTo env depth) := by
  induction depth generalizing s with
  | zero => exact Heeds.throw hs _
  | succ depth ih =>
    rw [recalculateTo]
    refine Heeds.bind (heeds_eachPart (fun s hs => ih hs) hs) fun _ t ht => ?_
    refine Heeds.after (yields_atom t) fun a u hu => ?_
    obtain ⟨rfl, rfl⟩ := hu
    have hrest (v : Workplace κ) (hv : Tells w u v) : Heeds w v (do
        refreshWire env
        setAtom ((← atom).mapInfo fun info => { info with dirty := false })) := by
      refine Heeds.bind (heeds_refreshWire env hv.flags) fun _ x hx => ?_
      refine Heeds.after (yields_atom x) fun a y hy => ?_
      obtain ⟨rfl, rfl⟩ := hy
      exact ⟨.refl hx.flags, heeds_setAtom hx.flags
        ((Workplace.truthful hx.flags).mapInfo rfl rfl rfl fun _ => .inr ⟨rfl, rfl⟩)⟩
    refine ⟨.refl ht.flags, ?_⟩
    split
    · exact Heeds.bind (heeds_updateFields hrules _ 0 ht.flags) fun _ => hrest
    · exact hrest u (.refl ht.flags)

/-- Running the updates of an atom and everything below it. -/
theorem heeds_recalculate (hrules : env.GivesBytes w.bytes) (hs : Everywhere (Flagged w) s.whole) :
    Heeds w s (recalculate env) := by
  refine Heeds.after (yields_atom s) fun a t ht => ?_
  obtain ⟨rfl, rfl⟩ := ht
  exact ⟨.refl hs, heeds_recalculateTo hrules _ hs⟩

end EditM

end BinaryLayout
