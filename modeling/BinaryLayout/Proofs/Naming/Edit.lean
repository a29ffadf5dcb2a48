import BinaryLayout.Edit.Recalculate
import BinaryLayout.Proofs.Edit.Rules
import BinaryLayout.Proofs.Handles.Edit
import BinaryLayout.Proofs.Naming.Surroundings

/-!
# Declared parts while atoms are edited

An edit leaves every atom with the parts that its layout declares. An array gets all its elements anew when
their number changes, one after another from the first, so an element bears its index; what is assigned to an
element on the way does not change how many there are.

## Main definitions

* `Adheres`: how an edit leaves parts and labels.
* `Obeys`: however the edit ends, parts are as they are declared.

## Main statements

* `EditM.obeys_setValue`, `EditM.obeys_reference`, `EditM.obeys_recalculate`: the edits.
-/

namespace BinaryLayout

variable {κ α β : Type}

open Atom

/-- All parts are as they are declared after an edit, the atom at the place has its label, and the atoms
around it are as many as before and have as many parts. -/
structure Adheres (s t : Workplace κ) : Prop where
  conforms : Everywhere Conforms t.whole
  label : t.place.atom.info.label = s.place.atom.info.label
  outline : t.place.frames.map Frame.outline = s.place.frames.map Frame.outline

section Adheres

variable {s t u : Workplace κ}

theorem Workplace.suits (hs : Everywhere Conforms s.whole) :
    s.place.atom.Suits s.place.atom.info.label :=
  (Everywhere.of_assemble hs).suits

namespace Adheres

theorem refl (hs : Everywhere Conforms s.whole) : Adheres s s := ⟨hs, rfl, rfl⟩

theorem trans (hst : Adheres s t) (htu : Adheres t u) : Adheres s u :=
  ⟨htu.conforms, htu.label.trans hst.label, htu.outline.trans hst.outline⟩

/-- Another atom at the same place. -/
theorem of_atom {l : Ledger κ} {a : Atom κ} (hs : Everywhere Conforms s.whole)
    (ha : a.Suits s.place.atom.info.label) : Adheres s ⟨l, ⟨a, s.place.frames⟩⟩ :=
  ⟨conforms_assemble_of ha.conforms hs ha.label, ha.label, rfl⟩

/-- Other surroundings of the same atom. -/
theorem of_frames {l : Ledger κ} {frames : List (Frame κ)}
    (h : Everywhere Conforms (Place.assemble s.place.atom frames))
    (houtline : frames.map Frame.outline = s.place.frames.map Frame.outline) :
    Adheres s ⟨l, ⟨s.place.atom, frames⟩⟩ :=
  ⟨h, rfl, houtline⟩

end Adheres

/-- What an edit of an atom leaves of the one around it. -/
def AdheresOuter (s t : Workplace κ) : Prop :=
  ∃ outer outer', s.place.up? = some outer ∧ t.place.up? = some outer'
    ∧ Adheres { s with place := outer } { t with place := outer' }
    ∧ outer'.atom.parts.length = outer.atom.parts.length

theorem AdheresOuter.trans (hst : AdheresOuter s t) (htu : AdheresOuter t u) : AdheresOuter s u := by
  obtain ⟨p, q, hp, hq, hadheres, hlength⟩ := hst
  obtain ⟨q', r, hq', hr, hadheres', hlength'⟩ := htu
  obtain rfl : q = q' := Option.some.inj (hq.symm.trans hq')
  exact ⟨p, r, hp, hr, hadheres.trans hadheres', hlength'.trans hlength⟩

theorem Adheres.outwards (h : Adheres s t) {outer : Place κ} (hup : s.place.up? = some outer) :
    AdheresOuter s t := by
  obtain ⟨hconforms, -, houtline⟩ := h
  obtain ⟨l, a, frames⟩ := s
  obtain ⟨m, b, frames'⟩ := t
  obtain _ | ⟨f, frames⟩ := frames
  · cases hup
  obtain _ | ⟨f', frames'⟩ := frames'
  · cases houtline
  obtain ⟨hhere, hrest⟩ := List.cons.inj houtline
  simp only [Frame.outline, Prod.mk.injEq, Info.face] at hhere
  obtain ⟨⟨-, hname, hlayout⟩, -, hleft, hright⟩ := hhere
  cases hup
  refine ⟨_, _, rfl, rfl, ⟨hconforms, ?_, hrest⟩, ?_⟩
  · rw [Frame.info_plug, Frame.info_plug, Info.label, Info.label, hname, hlayout]
  · simp only [Frame.parts_plug, List.length_append, List.length_cons, List.length_reverse, hleft, hright]

end Adheres

/-- However the edit ends, parts are as they are declared. -/
def Obeys (s : Workplace κ) (m : EditM κ α) : Prop :=
  Yields m s (fun _ t => Adheres s t) fun _ t => Adheres s t

namespace Obeys

variable {s : Workplace κ}

theorem pure (hs : Everywhere Conforms s.whole) (a : α) : Obeys s (Pure.pure a : EditM κ α) :=
  Yields.pure (.refl hs)

theorem throw (hs : Everywhere Conforms s.whole) (e : Error) :
    Obeys s (MonadExcept.throw e : EditM κ α) :=
  Yields.throw (.refl hs)

/-- One edit after another, by what holds after the first. -/
theorem after {m : EditM κ α} {f : α → EditM κ β} {q : α → Workplace κ → Prop}
    (hm : Yields m s q fun _ t => Adheres s t) (hf : ∀ a t, q a t → Adheres s t ∧ Obeys t (f a)) :
    Obeys s (m >>= f) := by
  refine hm.bind fun a t hmid => ?_
  obtain ⟨hst, hobeys⟩ := hf a t hmid
  exact hobeys.mono (fun _ _ h => hst.trans h) fun _ _ h => hst.trans h

theorem bind {m : EditM κ α} {f : α → EditM κ β} (hm : Obeys s m)
    (hf : ∀ a t, Adheres s t → Obeys t (f a)) : Obeys s (m >>= f) :=
  after hm fun a t hst => ⟨hst, hf a t hst⟩

theorem ofExcept (hs : Everywhere Conforms s.whole) (result : Except Error α) :
    Obeys s (EditM.ofExcept result) :=
  EditM.yields_ofExcept (fun _ _ => .refl hs) fun _ _ => .refl hs

/-- An error seen from further out is still one. -/
theorem within {m : EditM κ α} (outer : Path) (hm : Obeys s m) : Obeys s (EditM.within outer m) :=
  EditM.yields_within outer hm

end Obeys

namespace EditM

variable {env : Env κ} {s : Workplace κ}

theorem obeys_setAtom (hs : Everywhere Conforms s.whole) {a : Atom κ}
    (ha : a.Suits s.place.atom.info.label) : Obeys s (setAtom a) :=
  yields_setAtom (.of_atom hs ha)

/-- The atom at the place gets default content. -/
theorem obeys_allocate (hs : Everywhere Conforms s.whole) :
    Obeys s (remake (allocate env Layout.nestingLimit)) :=
  yields_remake ((suits_allocate env _ s.place.frames (.inl (Everywhere.of_assemble hs)) _).mono
    fun _ _ h => ⟨fun _ => .of_atom hs h, fun _ _ => .of_atom hs h⟩)

/-- What surrounds the atom at the place follows. -/
theorem obeys_around {follow : Atom κ → List (Frame κ) → LedgerM κ (Surroundings κ)}
    (hfollow : Ends (follow s.place.atom s.place.frames) s.ledger fun out _ =>
      Everywhere Conforms (Place.assemble s.place.atom out.frames)
        ∧ out.frames.map Frame.outline = s.place.frames.map Frame.outline) :
    Obeys s (around follow) :=
  yields_around (hfollow.mono fun _ _ h => ⟨fun _ => .of_frames h.1 h.2, fun _ _ => .of_frames h.1 h.2⟩)

theorem obeys_syncUnions (hs : Everywhere Conforms s.whole) : Obeys s (around (syncUnions env)) :=
  obeys_around ((conforms_syncUnions _ _ hs _).and (outline_syncUnions _ _ _))

theorem obeys_markDirty (hs : Everywhere Conforms s.whole) :
    Obeys s (modify fun s => { s with place := ⟨s.place.atom, markDirty s.place.frames⟩ }) :=
  Yields.modified (.of_frames (conforms_markDirty hs) (outline_markDirty _))

theorem obeys_reflow (hs : Everywhere Conforms s.whole) :
    Obeys s (modify fun s => { s with place := s.place.reflow }) := by
  obtain ⟨hatom, hframes⟩ := s.place.unplaced_reflow
  have hlabel := congrArg (fun a => a.info.label) hatom
  simp only [info_unplaced] at hlabel
  exact Yields.modified ⟨conforms_reflow hs, hlabel, Frame.map_outline_of_unplaced hframes⟩

theorem obeys_afterChange (hs : Everywhere Conforms s.whole) : Obeys s (afterChange env) := by
  refine Obeys.bind (obeys_around ?_) fun _ t ht => ?_
  · exact (conforms_followDependents _ _ hs _).and (outline_followDependents _ _ _)
  refine Obeys.bind (obeys_reflow ht.conforms) fun _ u hu => ?_
  exact Obeys.bind (obeys_syncUnions hu.conforms) fun _ v hv => obeys_markDirty hv.conforms

/-- The changed atom is initialized, and what surrounds it follows. -/
theorem obeys_finish (hs : Everywhere Conforms s.whole) : Obeys s (finish env) := by
  refine Obeys.after (yields_atom s) fun a t ht => ?_
  obtain ⟨rfl, rfl⟩ := ht
  exact ⟨.refl hs, Obeys.bind (obeys_setAtom hs (Workplace.suits hs).ready)
    fun _ u hu => obeys_afterChange hu.conforms⟩

theorem obeys_prepare (hs : Everywhere Conforms s.whole) : Obeys s (prepare env) := by
  refine Obeys.after (yields_atom s) fun a t ht => ?_
  obtain ⟨rfl, rfl⟩ := ht
  refine ⟨.refl hs, ?_⟩
  dsimp only
  split
  · exact Yields.throw_bind (.refl hs)
  · split
    · exact obeys_allocate hs
    · exact Obeys.pure hs ()

/-! ## Parts -/

/-- An edit of a part. -/
theorem adheres_atPart (hs : Everywhere Conforms s.whole) (i : Nat) {m : EditM κ Unit}
    (hm : ∀ p, s.place.down? i = some p → Yields m { s with place := p }
      (fun _ t => AdheresOuter { s with place := p } t) fun _ t => AdheresOuter { s with place := p } t) :
    Yields (atPart i m) s
      (fun _ t => Adheres s t ∧ t.place.atom.parts.length = s.place.atom.parts.length)
      fun _ t => Adheres s t := by
  refine yields_atPart (fun _ => ⟨.refl hs, rfl⟩) fun p hdown => ?_
  have hend (t : Workplace κ) (h : AdheresOuter { s with place := p } t) :
      Adheres s { t with place := t.place.up?.getD t.place }
        ∧ (t.place.up?.getD t.place).atom.parts.length = s.place.atom.parts.length := by
    obtain ⟨outer, outer', hup, hup', hadheres, hlength⟩ := h
    obtain rfl : s.place = outer := Option.some.inj ((Place.up?_down? hdown).symm.trans hup)
    rw [hup']
    exact ⟨hadheres, hlength⟩
  exact (hm p hdown).mono (fun _ t h => hend t h) fun _ t h => (hend t h).1

theorem conforms_down? {i : Nat} {p : Place κ} (h : s.place.down? i = some p)
    (hs : Everywhere Conforms s.whole) : Everywhere Conforms (Workplace.whole { s with place := p }) :=
  (whole_down? h).symm ▸ hs

/-- An edit of a part leaves as many parts as there were. -/
theorem obeys_atPart (hs : Everywhere Conforms s.whole) (i : Nat) {m : EditM κ Unit}
    (hm : ∀ t, Everywhere Conforms t.whole → Obeys t m) :
    Yields (atPart i m) s
      (fun _ t => Adheres s t ∧ t.place.atom.parts.length = s.place.atom.parts.length)
      fun _ t => Adheres s t := by
  refine adheres_atPart hs i fun p hdown => ?_
  have hup : (Workplace.mk s.ledger p).place.up? = some s.place := Place.up?_down? hdown
  exact Yields.mono (hm _ (conforms_down? hdown hs)) (fun _ _ h => h.outwards hup) fun _ _ h => h.outwards hup

theorem obeys_part (hs : Everywhere Conforms s.whole) (i : Nat) {m : EditM κ Unit}
    (hm : ∀ t, Everywhere Conforms t.whole → Obeys t m) : Obeys s (atPart i m) :=
  (obeys_atPart hs i hm).mono (fun _ _ h => h.1) fun _ _ h => h

theorem obeys_atMember (hs : Everywhere Conforms s.whole) (name : String) {m : EditM κ Unit}
    (hm : ∀ t, Everywhere Conforms t.whole → Obeys t m) : Obeys s (atMember name m) := by
  refine Obeys.after (yields_atom s) fun a t ht => ?_
  obtain ⟨rfl, rfl⟩ := ht
  refine ⟨.refl hs, ?_⟩
  split
  · exact Obeys.within _ (obeys_part hs _ hm)
  · exact Obeys.throw hs _

theorem obeys_expectParts (hs : Everywhere Conforms s.whole) (given : Nat) : Obeys s (expectParts given) := by
  refine Obeys.after (yields_atom s) fun a t ht => ?_
  obtain ⟨rfl, rfl⟩ := ht
  refine ⟨.refl hs, ?_⟩
  dsimp only
  split
  · exact Obeys.throw hs _
  · exact Obeys.pure hs _

/-! ## Members and elements -/

section Values

variable {assign : Value → EditM κ Unit}

theorem obeys_assignMembers {members : List (String × Value)}
    (hmembers : ∀ m ∈ members, ∀ s : Workplace κ, Everywhere Conforms s.whole → Obeys s (assign m.2))
    {s : Workplace κ} (hs : Everywhere Conforms s.whole) : Obeys s (assignMembers assign members) := by
  induction members generalizing s with
  | nil => exact Obeys.pure hs ()
  | cons member members ih =>
    rw [List.forall_mem_cons] at hmembers
    refine Obeys.bind (obeys_atMember hs _ hmembers.1) fun _ t ht => ?_
    exact ih hmembers.2 ht.conforms

theorem obeys_assignElements {elements : List Value}
    (helements : ∀ v ∈ elements, ∀ s : Workplace κ, Everywhere Conforms s.whole → Obeys s (assign v))
    {s : Workplace κ} (hs : Everywhere Conforms s.whole) (index : Nat) :
    Obeys s (assignElements assign index elements) := by
  induction elements generalizing s index with
  | nil => exact Obeys.pure hs ()
  | cons v elements ih =>
    rw [List.forall_mem_cons] at helements
    refine Obeys.bind (Obeys.within _ (obeys_part hs index helements.1)) fun _ t ht => ?_
    exact ih helements.2 ht.conforms _

end Values

/-- Assigning to an atom of bits. -/
theorem obeys_setBits (env : Env κ) (v : Value) {s : Workplace κ} (hs : Everywhere Conforms s.whole) :
    Obeys s (setBits env v) := by
  revert s
  refine Value.of_inductive (P := fun v => ∀ {s : Workplace κ}, Everywhere Conforms s.whole →
    Obeys s (setBits env v)) (fun v hmembers helements s hs => ?_) v
  rw [setBits]
  refine Obeys.bind (obeys_prepare hs) fun _ t hst => ?_
  have hfinish (u : Workplace κ) (hu : Adheres t u) : Obeys u (finish env) := obeys_finish hu.conforms
  refine Obeys.after (yields_atom t) fun a u hu => ?_
  obtain ⟨rfl, rfl⟩ := hu
  refine ⟨.refl hst.conforms, ?_⟩
  split
  · refine Obeys.bind (Obeys.ofExcept hst.conforms _) fun encoded v hv => ?_
    refine Obeys.after (yields_atom v) fun a x hx => ?_
    obtain ⟨rfl, rfl⟩ := hx
    refine ⟨.refl hv.conforms, Obeys.bind (obeys_setAtom hv.conforms ?_) fun _ y hy => ?_⟩
    · exact suits_fill_nil _ _
    · exact hfinish y (hv.trans hy)
  · split
    · rw [setBitFields_eq]
      exact Obeys.bind (obeys_assignMembers (hmembers _ rfl) hst.conforms) fun _ => hfinish
    · exact Yields.throw_bind (.refl hst.conforms)
  · split
    · refine Obeys.bind (obeys_expectParts hst.conforms _) fun _ v hv => ?_
      rw [setBitElements_eq]
      refine Obeys.bind (obeys_assignElements (helements _ rfl) hv.conforms _) fun _ x hx => ?_
      exact hfinish x (hv.trans hx)
    · exact Yields.throw_bind (.refl hst.conforms)
  · exact Yields.throw_bind (.refl hst.conforms)

/-! ## Bytes -/

/-- The place is at an array of these elements, which has so many. -/
structure IsFilledTo (element : Layout κ) (count : Nat) (s : Workplace κ) : Prop where
  layout : ∃ shape, s.place.atom.info.layout = .bytes (.array element shape)
  count : s.place.atom.parts.length = count

/-- Edits of elements leave their number. -/
theorem IsFilledTo.of_adheres {element : Layout κ} {count : Nat} {s t : Workplace κ}
    (h : IsFilledTo element count s) (hst : Adheres s t)
    (hlength : t.place.atom.parts.length = s.place.atom.parts.length) : IsFilledTo element count t :=
  ⟨h.layout.imp fun _ hlayout => (Info.layout_of_label hst.label).trans hlayout, hlength.trans h.count⟩

theorem obeys_dropElements (hs : Everywhere Conforms s.whole) {element : Layout κ} {shape : Shape κ}
    (hlayout : s.place.atom.info.layout = .bytes (.array element shape)) :
    Yields dropElements s (fun _ t => Adheres s t ∧ IsFilledTo element 0 t) fun _ t => Adheres s t := by
  refine (yields_atom s).bind fun a t ht => ?_
  obtain ⟨rfl, rfl⟩ := ht
  refine Yields.via (fun _ u => u = { t with ledger := t.ledger.releaseAll t.place.atom.parts }) rfl
    fun _ u hu => ?_
  subst hu
  exact yields_setAtom ⟨.of_atom hs ((suits_fill_nil .group t.place.atom).withTail []), ⟨shape, hlayout⟩, rfl⟩

theorem obeys_addElement (hs : Everywhere Conforms s.whole) {element : Layout κ} {index : Nat}
    (hfilled : IsFilledTo element index s) (cursor : Nat) :
    Yields (addElement env element index cursor) s
      (fun _ t => Adheres s t ∧ IsFilledTo element (index + 1) t) fun _ t => Adheres s t := by
  refine Yields.bind (yields_ofLedger (LedgerM.isNew_spawn _ _ _ _)) fun blank t ht => ?_
  obtain ⟨hplace, hblank⟩ := ht
  refine (yields_atom t).bind fun a u hu => ?_
  obtain ⟨rfl, rfl⟩ := hu
  obtain ⟨l, q⟩ := u
  subst hplace
  obtain ⟨shape, hlayout⟩ := hfilled.layout
  -- The new element is the one after those that there are.
  have hframe : s.place.atom.frame.NextAt index := by
    refine ⟨?_, rfl, ?_⟩
    · rw [frame, List.length_reverse, hfilled.count]
    · rw [close_frame]
      exact Everywhere.of_assemble hs
  have hpushed := (hframe.push (a := blank) ⟨hblank.label, hblank.blank.conforms⟩
    (hlayout ▸ ⟨rfl, .inl rfl⟩)).close
  rw [Frame.close_push, plug_frame] at hpushed
  have hstart : Adheres s ⟨l, ⟨s.place.atom.push blank, s.place.frames⟩⟩ := .of_atom hs hpushed
  have hmore : IsFilledTo element (index + 1) ⟨l, ⟨s.place.atom.push blank, s.place.frames⟩⟩ := by
    refine ⟨⟨shape, hlayout⟩, ?_⟩
    rw [parts_push, List.length_append, hfilled.count, List.length_singleton]
  refine Yields.via (fun _ v => v = ⟨l, ⟨s.place.atom.push blank, s.place.frames⟩⟩) rfl
    fun _ v hv => ?_
  subst hv
  have hpart := obeys_atPart (m := remake (allocate env Layout.nestingLimit)) hstart.conforms index
    fun _ => obeys_allocate
  exact yields_within _ (hpart.mono (fun _ v hv => ⟨hstart.trans hv.1, hmore.of_adheres hv.1 hv.2⟩)
    fun _ v hv => hstart.trans hv)

theorem obeys_setNewElements {elements : List Value}
    (helements : ∀ v ∈ elements, ∀ s : Workplace κ, Everywhere Conforms s.whole → Obeys s (setBytes env v))
    {s : Workplace κ} (hs : Everywhere Conforms s.whole) {element : Layout κ} {index : Nat}
    (hfilled : IsFilledTo element index s) (cursor : Nat) :
    Obeys s (setNewElements env element index cursor elements) := by
  induction elements generalizing s index cursor with
  | nil =>
    rw [setNewElements]
    exact Obeys.pure hs ()
  | cons v elements ih =>
    rw [List.forall_mem_cons] at helements
    rw [setNewElements]
    refine Obeys.after (obeys_addElement hs hfilled cursor) fun _ t ht => ⟨ht.1, ?_⟩
    refine Obeys.after (yields_within _ (obeys_atPart ht.1.conforms index helements.1))
      fun _ u hu => ⟨hu.1, ?_⟩
    refine Obeys.after (yields_partSize index u) fun size v hv => ?_
    obtain ⟨rfl, rfl⟩ := hv
    exact ⟨.refl hu.1.conforms, ih helements.2 hu.1.conforms (ht.2.of_adheres hu.1 hu.2) _⟩

theorem obeys_setScalar (hs : Everywhere Conforms s.whole) (layout : Layout κ) (v : Value) :
    Obeys s (setScalar layout v) := by
  refine Obeys.bind (Obeys.ofExcept hs _) fun raw t ht => ?_
  refine (yields_atom t).bind fun a u hu => ?_
  obtain ⟨rfl, rfl⟩ := hu
  refine Yields.via (fun _ t => t = { u with ledger := u.ledger.releaseAll u.place.atom.parts }) rfl
    fun _ t ht => ?_
  subst ht
  have hstored := suits_withBytes layout raw
    (u.place.atom.mapInfo fun info => { info with undecodable := false })
  rw [info_mapInfo] at hstored
  exact yields_setAtom (.of_atom ht.conforms hstored)

/-- Assigning to an atom of bytes. -/
theorem obeys_setBytes (env : Env κ) (v : Value) {s : Workplace κ} (hs : Everywhere Conforms s.whole) :
    Obeys s (setBytes env v) := by
  revert s
  refine Value.of_inductive (P := fun v => ∀ {s : Workplace κ}, Everywhere Conforms s.whole →
    Obeys s (setBytes env v)) (fun v hmembers helements s hs => ?_) v
  rw [setBytes]
  refine Obeys.bind (obeys_prepare hs) fun _ t hst => ?_
  have hfinish (u : Workplace κ) (hu : Adheres t u) : Obeys u (finish env) := obeys_finish hu.conforms
  refine Obeys.after (yields_atom t) fun a u hu => ?_
  obtain ⟨rfl, rfl⟩ := hu
  refine ⟨.refl hst.conforms, ?_⟩
  cases hlayout : u.place.atom.info.layout with
  | bits layout => exact Yields.throw_bind (.refl hst.conforms)
  | bytes layout =>
    cases layout
    case record | union =>
      cases v
      case fields members =>
        have hloop : Obeys u (assignMembers (setBytes env) members) :=
          obeys_assignMembers (hmembers _ rfl) hst.conforms
        rw [← setFields_eq] at hloop
        exact Obeys.bind hloop fun _ => hfinish
      all_goals exact Yields.throw_bind (.refl hst.conforms)
    case array element shape =>
      cases v
      case items elements =>
        have heach (v : Value) (hv : v ∈ elements) (s : Workplace κ)
            (hs : Everywhere Conforms s.whole) : Obeys s (setBytes env v) := helements _ rfl v hv hs
        refine Obeys.after (yields_atom u) fun a t ht => ?_
        obtain ⟨rfl, rfl⟩ := ht
        refine ⟨.refl hst.conforms, ?_⟩
        split
        · have hloop := obeys_assignElements heach hst.conforms 0
          rw [← setElements_eq] at hloop
          exact Obeys.bind hloop fun _ => hfinish
        · have hanew : Obeys t (do
              dropElements
              setNewElements env element 0 t.place.atom.info.offset elements
              finish env) := by
            refine Obeys.after (obeys_dropElements hst.conforms hlayout) fun _ u hu => ⟨hu.1, ?_⟩
            refine Obeys.bind (obeys_setNewElements heach hu.1.conforms hu.2 _) fun _ v hv => ?_
            exact hfinish v (hu.1.trans hv)
          cases shape with
          | counted count => exact Yields.throw_bind (.refl hst.conforms)
          | block | terminated | unending => exact hanew
      all_goals exact Yields.throw_bind (.refl hst.conforms)
    case bits root order =>
      refine Obeys.after (yields_atom u) fun a t ht => ?_
      obtain ⟨rfl, rfl⟩ := ht
      refine ⟨.refl hst.conforms, ?_⟩
      split
      · exact Obeys.bind (obeys_part hst.conforms 0 fun t ht => obeys_setBits env v ht) fun _ => hfinish
      · exact Yields.throw_bind (.refl hst.conforms)
    all_goals exact Obeys.bind (obeys_setScalar hst.conforms _ v) fun _ => hfinish

/-- Assigning to any atom. -/
theorem obeys_setValue (env : Env κ) (v : Value) {s : Workplace κ} (hs : Everywhere Conforms s.whole) :
    Obeys s (setValue env v) := by
  refine Obeys.after (yields_atom s) fun a t ht => ?_
  obtain ⟨rfl, rfl⟩ := ht
  refine ⟨.refl hs, ?_⟩
  split
  · exact obeys_setBits env v hs
  · exact obeys_setBytes env v hs

/-! ## Pointers -/

/-- Pointing a pointer at an address. -/
theorem obeys_reference (env : Env κ) (address : Nat) (hs : Everywhere Conforms s.whole) :
    Obeys s (reference env address) := by
  refine (yields_place s).bind fun p t ht => ?_
  obtain ⟨rfl, rfl⟩ := ht
  have hsame {α : Type} (result : Except Error α) :
      Yields (ofExcept result) t (fun _ u => u = t) fun _ u => Adheres t u :=
    yields_ofExcept (fun _ _ => rfl) fun _ _ => .refl hs
  refine Yields.via (fun _ u => u = t) (hsame _) fun pointer u hu => ?_
  subst hu
  refine Yields.via (fun _ v => v = u) (hsame _) fun wire v hv => ?_
  subst hv
  refine Yields.via (fun _ x => x = v) (hsame _) fun raw x hx => ?_
  subst hx
  refine Yields.via (fun _ y => y = { x with ledger := x.ledger.releaseAll x.place.atom.parts }) rfl
    fun _ y hy => ?_
  subst hy
  refine Yields.via (fun _ y => Adheres x y) (.of_atom hs (suits_fill_nil _ _)) fun _ y hy => ?_
  exact (obeys_finish hy.conforms).mono (fun _ _ h => hy.trans h) fun _ _ h => hy.trans h

/-- Storing a followed pointer's number again. -/
theorem obeys_refreshWire (env : Env κ) (hs : Everywhere Conforms s.whole) : Obeys s (refreshWire env) := by
  refine (yields_place s).bind fun p t ht => ?_
  obtain ⟨rfl, rfl⟩ := ht
  refine Yields.via (fun _ u => u = t) ?_ fun raw? u hu => ?_
  · exact yields_ofExcept (fun _ _ => rfl) fun _ _ => .refl hs
  subst hu
  cases raw? with
  | none => exact Obeys.pure hs ()
  | some raw =>
    have hhere := Everywhere.of_assemble hs
    have hstored : (u.place.atom.fill (.pointer raw) u.place.atom.parts).Suits u.place.atom.info.label :=
      ⟨rfl, everywhere_iff.2 ⟨hhere.here, fun _ => hhere.part⟩⟩
    dsimp only
    split
    · refine Obeys.bind (obeys_setAtom hs hstored) fun _ v hv => ?_
      exact Obeys.bind (obeys_syncUnions hv.conforms) fun _ x hx => obeys_markDirty hx.conforms
    · exact Obeys.pure hs ()

/-! ## Updates -/

theorem obeys_updateFields (env : Env κ) (fields : List (Field κ (Layout κ))) (index : Nat)
    {s : Workplace κ} (hs : Everywhere Conforms s.whole) : Obeys s (updateFields env index fields) := by
  induction fields generalizing s index with
  | nil => exact Obeys.pure hs ()
  | cons field fields ih =>
    have hrest (t : Workplace κ) (ht : Adheres s t) : Obeys t (updateFields env (index + 1) fields) :=
      ih (index + 1) ht.conforms
    rw [updateFields]
    refine (yields_place s).bind fun p t ht => ?_
    obtain ⟨rfl, rfl⟩ := ht
    dsimp only
    split
    · exact hrest t (.refl hs)
    · split
      · refine Obeys.bind (Obeys.within _ ?_) fun _ => hrest
        refine Obeys.bind (Obeys.ofExcept hs _) fun wanted u hu => ?_
        split
        · exact obeys_part hu.conforms index fun v hv => obeys_setValue env wanted hv
        · exact Obeys.pure hu.conforms ()
      · exact hrest t (.refl hs)

/-- Editing an atom and its later siblings. -/
theorem outer_obeys_alongSiblings {m : EditM κ Unit}
    (hm : ∀ s : Workplace κ, Everywhere Conforms s.whole → Obeys s m) (count : Nat)
    {s : Workplace κ} (hs : Everywhere Conforms s.whole) {outer : Place κ}
    (hup : s.place.up? = some outer) :
    Yields (alongSiblings m count) s (fun _ t => AdheresOuter s t) fun _ t => AdheresOuter s t := by
  induction count generalizing s outer with
  | zero => exact Yields.pure ((Adheres.refl hs).outwards hup)
  | succ count ih =>
    rw [alongSiblings]
    refine (yields_place s).bind fun p t ht => ?_
    obtain ⟨rfl, rfl⟩ := ht
    refine Yields.via (fun _ u => Adheres t u) ?_ fun _ u hu => ?_
    · exact (Obeys.within _ (hm t hs)).mono (fun _ _ h => h) fun _ _ h => h.outwards hup
    have houter := hu.outwards hup
    refine (yields_place u).bind fun p v hv => ?_
    obtain ⟨rfl, rfl⟩ := hv
    split
    · exact Yields.pure houter
    · rename_i q hnext
      obtain ⟨-, outer', -, hup', -, -⟩ := houter
      have hupnext : q.up? = some outer' := (Place.up?_next? hnext).trans hup'
      have hwhole (p : Place κ) (hp : p.root = v.place.root) :
          Everywhere Conforms (Workplace.whole { v with place := p }) := by
        rw [Workplace.whole, hp]
        exact hu.conforms
      have hroot : outer'.root = v.place.root := Place.root_up? hup'
      have hstep : AdheresOuter v { v with place := q } :=
        ⟨outer', outer', hup', hupnext, .refl (hwhole _ hroot), rfl⟩
      refine Yields.via (fun _ x => x = { v with place := q }) rfl fun _ x hx => ?_
      subst hx
      have hback := (hu.outwards hup).trans hstep
      exact (ih (hwhole _ ((Place.root_up? hupnext).symm.trans hroot)) hupnext).mono
        (fun _ _ h => hback.trans h) fun _ _ h => hback.trans h

theorem obeys_eachPart {m : EditM κ Unit}
    (hm : ∀ s : Workplace κ, Everywhere Conforms s.whole → Obeys s m)
    (hs : Everywhere Conforms s.whole) : Obeys s (eachPart m) := by
  refine (yields_atom s).bind fun a t ht => ?_
  obtain ⟨rfl, rfl⟩ := ht
  refine (adheres_atPart hs 0 fun p hdown => ?_).mono (fun _ _ h => h.1) fun _ _ h => h
  exact outer_obeys_alongSiblings hm _ (conforms_down? hdown hs) (Place.up?_down? hdown)

theorem obeys_recalculateTo (env : Env κ) (depth : Nat) {s : Workplace κ}
    (hs : Everywhere Conforms s.whole) : Obeys s (recalculateTo env depth) := by
  induction depth generalizing s with
  | zero => exact Obeys.throw hs _
  | succ depth ih =>
    rw [recalculateTo]
    refine Obeys.bind (obeys_eachPart (fun s hs => ih hs) hs) fun _ t ht => ?_
    refine Obeys.after (yields_atom t) fun a u hu => ?_
    obtain ⟨rfl, rfl⟩ := hu
    have hrest (v : Workplace κ) (hv : Adheres u v) : Obeys v (do
        refreshWire env
        setAtom ((← atom).mapInfo fun info => { info with dirty := false })) := by
      refine Obeys.bind (obeys_refreshWire env hv.conforms) fun _ x hx => ?_
      refine Obeys.after (yields_atom x) fun a y hy => ?_
      obtain ⟨rfl, rfl⟩ := hy
      exact ⟨.refl hx.conforms, obeys_setAtom hx.conforms ((Workplace.suits hx.conforms).mapInfo rfl)⟩
    refine ⟨.refl ht.conforms, ?_⟩
    split
    · exact Obeys.bind (obeys_updateFields env _ 0 ht.conforms) fun _ => hrest
    · exact hrest u (.refl ht.conforms)

/-- Running the updates of an atom and everything below it. -/
theorem obeys_recalculate (env : Env κ) {s : Workplace κ} (hs : Everywhere Conforms s.whole) :
    Obeys s (recalculate env) := by
  refine Obeys.after (yields_atom s) fun a t ht => ?_
  obtain ⟨rfl, rfl⟩ := ht
  exact ⟨.refl hs, obeys_recalculateTo env _ hs⟩

end EditM

end BinaryLayout
