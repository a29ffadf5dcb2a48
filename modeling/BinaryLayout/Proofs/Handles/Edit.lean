import BinaryLayout.Edit.Recalculate
import BinaryLayout.Proofs.Edit.Rules
import BinaryLayout.Proofs.Handles.Surroundings
import BinaryLayout.Proofs.Tree.Outline

/-!
# Handles while atoms are edited

An edit may fail anywhere, and then what was changed so far stays changed. Wherever it ends, the
tree that it works in is well shaped, keeps its outermost site, and neither lost nor doubled a
handle; and the enclosing atoms have kept their outlines, so that an edit which goes on knows what
it is editing.

## Main definitions

* `Conserves`: what holds between the workplaces before and after an edit.
* `Keeps`: an edit that conserves, with or without an error.

## Main statements

* `keeps_setValue`, `keeps_recalculate`, `keeps_reference`: the edits of an atom.
-/

namespace BinaryLayout

variable {κ α β : Type}

open Atom

def Workplace.whole (s : Workplace κ) : Atom κ := s.place.root.atom

/-- What an edit leaves alone: handles are neither lost nor doubled, the tree is well shaped, and
what surrounds the edited atom keeps its outline. -/
structure Conserves (s t : Workplace κ) : Prop where
  accounts : Accounts s.whole s.ledger t.whole t.ledger
  frames : t.place.frames.map Frame.outline = s.place.frames.map Frame.outline
  face : t.place.atom.info.face = s.place.atom.info.face

namespace Conserves

variable {s t u : Workplace κ}

theorem refl (h : Everywhere Shaped s.whole) : Conserves s s := ⟨.refl h, rfl, rfl⟩

theorem trans (hst : Conserves s t) (htu : Conserves t u) : Conserves s u :=
  ⟨hst.accounts.trans htu.accounts, htu.frames.trans hst.frames, htu.face.trans hst.face⟩

theorem shaped (h : Conserves s t) : Everywhere Shaped t.whole := h.accounts.shaped

theorem layout (h : Conserves s t) : t.place.atom.info.layout = s.place.atom.info.layout :=
  congrArg (fun face => face.2.2) h.face

theorem isBits (h : Conserves s t) : t.place.atom.isBits = s.place.atom.isBits := by
  rw [Atom.isBits, h.layout, Atom.isBits]

/-- Another atom at the same place. -/
theorem of_atom {l : Ledger κ} {a : Atom κ} (hs : Everywhere Shaped s.whole)
    (h : Accounts s.place.atom s.ledger a l) : Conserves s ⟨l, ⟨a, s.place.frames⟩⟩ :=
  ⟨h.assemble hs, rfl, Info.face_of_site h.site⟩

/-- Other surroundings of the same atom. -/
theorem of_frames {l : Ledger κ} {frames : List (Frame κ)}
    (h : Accounts s.whole s.ledger (Place.assemble s.place.atom frames) l)
    (houtline : frames.map Frame.outline = s.place.frames.map Frame.outline) :
    Conserves s ⟨l, ⟨s.place.atom, frames⟩⟩ :=
  ⟨h, houtline, rfl⟩

end Conserves

/-- Offsets in order. -/
theorem conserves_reflow {s : Workplace κ} (hs : Everywhere Shaped s.whole) :
    Conserves s { s with place := s.place.reflow } := by
  obtain ⟨hatom, hframes⟩ := s.place.unplaced_reflow
  refine ⟨accounts_reflow hs s.ledger, Frame.map_outline_of_unplaced hframes, ?_⟩
  have hinfo := congrArg (fun a => a.info.face) hatom
  simpa only [info_unplaced, Info.face] using hinfo

/-- The enclosing atom of an edited one is conserved. -/
def ConservesOuter (s t : Workplace κ) : Prop :=
  ∃ outer outer', s.place.up? = some outer ∧ t.place.up? = some outer'
    ∧ Conserves { s with place := outer } { t with place := outer' }
    ∧ outer'.atom.outline = outer.atom.outline

theorem ConservesOuter.trans {s t u : Workplace κ} (hst : ConservesOuter s t) (htu : ConservesOuter t u) :
    ConservesOuter s u := by
  obtain ⟨p, q, hp, hq, hconserves, houtline⟩ := hst
  obtain ⟨q', r, hq', hr, hconserves', houtline'⟩ := htu
  rw [hq, Option.some.injEq] at hq'
  subst hq'
  exact ⟨p, r, hp, hr, hconserves.trans hconserves', houtline'.trans houtline⟩

theorem Conserves.outwards {s t : Workplace κ} (h : Conserves s t) {outer : Place κ}
    (hup : s.place.up? = some outer) : ConservesOuter s t := by
  obtain ⟨l, a, frames⟩ := s
  obtain ⟨m, b, frames'⟩ := t
  obtain _ | ⟨f, frames⟩ := frames
  · simp [Place.up?] at hup
  have houtline := h.frames
  obtain _ | ⟨f', frames'⟩ := frames'
  · simp at houtline
  simp only [List.map_cons, List.cons.injEq, Frame.outline, Prod.mk.injEq] at houtline
  obtain ⟨⟨hface, hkind, hleft, hright⟩, houter⟩ := houtline
  simp only [Place.up?, Option.some.injEq] at hup
  subst hup
  refine ⟨_, ⟨f'.plug b, frames'⟩, rfl, rfl, ⟨h.accounts, houter, hface⟩, ?_⟩
  simp [Atom.outline, hface, hkind, hleft, hright]

def Keeps (s : Workplace κ) (m : EditM κ α) : Prop :=
  Yields m s (fun _ t => Conserves s t) fun _ t => Conserves s t

namespace Keeps

variable {s : Workplace κ}

theorem pure (hs : Everywhere Shaped s.whole) (a : α) : Keeps s (Pure.pure a : EditM κ α) :=
  Yields.pure (.refl hs)

theorem throw (hs : Everywhere Shaped s.whole) (e : Error) :
    Keeps s (MonadExcept.throw e : EditM κ α) :=
  Yields.throw (.refl hs)

theorem after {m : EditM κ α} {f : α → EditM κ β} {mid : α → Workplace κ → Prop}
    (hm : Yields m s mid fun _ t => Conserves s t)
    (hf : ∀ a t, mid a t → Conserves s t ∧ Keeps t (f a)) : Keeps s (m >>= f) := by
  refine hm.bind fun a t hmid => ?_
  obtain ⟨hst, hkeeps⟩ := hf a t hmid
  exact hkeeps.mono (fun _ _ h => hst.trans h) fun _ _ h => hst.trans h

theorem bind {m : EditM κ α} {f : α → EditM κ β} (hm : Keeps s m)
    (hf : ∀ a t, Conserves s t → Keeps t (f a)) : Keeps s (m >>= f) := by
  refine after hm fun a t hst => ?_
  exact ⟨hst, hf a t hst⟩

theorem ofExcept (hs : Everywhere Shaped s.whole) (result : Except Error α) :
    Keeps s (EditM.ofExcept result) :=
  EditM.yields_ofExcept (fun _ _ => .refl hs) fun _ _ => .refl hs

/-- An error seen from further out is still one. -/
theorem within {m : EditM κ α} (outer : Path) (hm : Keeps s m) : Keeps s (EditM.within outer m) :=
  EditM.yields_within outer hm

end Keeps

namespace EditM

variable {env : Env κ}

theorem keeps_setAtom {s : Workplace κ} (hs : Everywhere Shaped s.whole) {a : Atom κ}
    (h : Accounts s.place.atom s.ledger a s.ledger) : Keeps s (setAtom a) :=
  yields_setAtom (.of_atom hs h)

/-- The atom at the place is made anew. -/
theorem keeps_remake {s : Workplace κ} (hs : Everywhere Shaped s.whole)
    {part : LoadPart (LedgerM κ) κ}
    (hpart : Ends (part s.place.frames s.place.atom) s.ledger fun out l =>
      Accounts s.place.atom s.ledger out.atom l ∧ out.Filled) :
    Yields (remake part) s (fun _ t => Conserves s t ∧ t.place.atom.content ≠ .empty)
      fun _ t => Conserves s t :=
  yields_remake (hpart.mono fun _ _ h =>
    ⟨fun herror => ⟨.of_atom hs h.1, h.2 herror⟩, fun _ _ => .of_atom hs h.1⟩)

/-- What surrounds the atom at the place follows. -/
theorem keeps_around {s : Workplace κ}
    {follow : Atom κ → List (Frame κ) → LedgerM κ (Surroundings κ)}
    (hfollow : Ends (follow s.place.atom s.place.frames) s.ledger fun out l =>
      Accounts s.whole s.ledger (Place.assemble s.place.atom out.frames) l
        ∧ out.frames.map Frame.outline = s.place.frames.map Frame.outline) :
    Keeps s (around follow) :=
  yields_around (hfollow.mono fun _ _ h =>
    ⟨fun _ => .of_frames h.1 h.2, fun _ _ => .of_frames h.1 h.2⟩)

theorem keeps_afterChange {s : Workplace κ} (hs : Everywhere Shaped s.whole) :
    Keeps s (afterChange env) := by
  refine Keeps.bind (keeps_around ?_) fun _ t ht => ?_
  · exact (accounts_followDependents _ _ hs _).and (outline_followDependents _ _ _)
  refine Keeps.bind (Yields.modified (conserves_reflow ht.shaped)) fun _ u hu => ?_
  refine Keeps.bind (keeps_around ?_) fun _ v hv => ?_
  · exact (accounts_syncUnions _ _ hu.shaped _).and (outline_syncUnions _ _ _)
  exact Yields.modified (.of_frames (accounts_markDirty hv.shaped _) (outline_markDirty _))

/-- The changed atom is initialized, and what surrounds it follows. -/
theorem keeps_finish {s : Workplace κ} (hs : Everywhere Shaped s.whole) : Keeps s (finish env) := by
  refine Keeps.after (yields_atom s) fun a t ht => ?_
  obtain ⟨rfl, rfl⟩ := ht
  refine ⟨.refl hs, Keeps.bind (keeps_setAtom hs (Accounts.refl ?_).ready) fun _ u hu => ?_⟩
  · exact Everywhere.of_assemble hs
  · exact keeps_afterChange hu.shaped

/-- Null referents are refused, and what is edited has content. -/
theorem yields_prepare {s : Workplace κ} (hs : Everywhere Shaped s.whole) :
    Yields (prepare env) s (fun _ t => Conserves s t ∧ t.place.atom.content ≠ .empty)
      fun _ t => Conserves s t := by
  refine (yields_atom s).bind fun a t ht => ?_
  obtain ⟨rfl, rfl⟩ := ht
  dsimp only
  split
  · exact Yields.throw_bind (.refl hs)
  · split
    · exact keeps_remake hs (accounts_allocate env _ _ (Everywhere.of_assemble hs) _)
    · rename_i hcontent
      exact Yields.pure ⟨.refl hs, hcontent⟩

/-! ## Parts -/

/-- An edit of a part. -/
theorem conserves_atPart {s : Workplace κ} (hs : Everywhere Shaped s.whole) (i : Nat)
    {m : EditM κ Unit}
    (hm : ∀ p, s.place.down? i = some p → Yields m { s with place := p }
      (fun _ t => ConservesOuter { s with place := p } t) fun _ t => ConservesOuter { s with place := p } t) :
    Yields (atPart i m) s
      (fun _ t => Conserves s t ∧ t.place.atom.outline = s.place.atom.outline)
      fun _ t => Conserves s t := by
  refine yields_atPart (fun _ => ⟨.refl hs, rfl⟩) fun p hdown => ?_
  have hend (t : Workplace κ) (h : ConservesOuter { s with place := p } t) :
      Conserves s { t with place := t.place.up?.getD t.place }
        ∧ (t.place.up?.getD t.place).atom.outline = s.place.atom.outline := by
    obtain ⟨outer, outer', hup, hup', hconserves, houtline⟩ := h
    have houter : some s.place = some outer := (Place.up?_down? hdown).symm.trans hup
    rw [Option.some.injEq] at houter
    subst houter
    rw [hup']
    exact ⟨hconserves, houtline⟩
  exact (hm p hdown).mono (fun _ t h => hend t h) fun _ t h => (hend t h).1

/-- The outermost atom is the same for a part. -/
theorem whole_down? {s : Workplace κ} {i : Nat} {p : Place κ} (h : s.place.down? i = some p) :
    Workplace.whole { s with place := p } = s.whole :=
  congrArg Place.atom (Place.root_down? h)

theorem keeps_atPart {s : Workplace κ} (hs : Everywhere Shaped s.whole) (i : Nat)
    {m : EditM κ Unit} (hm : ∀ t, Everywhere Shaped t.whole → Keeps t m) :
    Yields (atPart i m) s
      (fun _ t => Conserves s t ∧ t.place.atom.outline = s.place.atom.outline)
      fun _ t => Conserves s t := by
  refine conserves_atPart hs i fun p hdown => ?_
  have hup : (Workplace.mk s.ledger p).place.up? = some s.place := Place.up?_down? hdown
  have hkeeps := hm { s with place := p } ((whole_down? hdown).symm ▸ hs)
  exact Yields.mono hkeeps (fun _ _ h => h.outwards hup) fun _ _ h => h.outwards hup

/-- An edit of a part, whatever the part is. -/
theorem keeps_part {s : Workplace κ} (hs : Everywhere Shaped s.whole) (i : Nat)
    {m : EditM κ Unit} (hm : ∀ t, Everywhere Shaped t.whole → Keeps t m) : Keeps s (atPart i m) :=
  (keeps_atPart hs i hm).mono (fun _ _ h => h.1) fun _ _ h => h

theorem keeps_atMember {s : Workplace κ} (hs : Everywhere Shaped s.whole) (name : String)
    {m : EditM κ Unit} (hm : ∀ t, Everywhere Shaped t.whole → Keeps t m) :
    Keeps s (atMember name m) := by
  refine Keeps.after (yields_atom s) fun a t ht => ?_
  obtain ⟨rfl, rfl⟩ := ht
  refine ⟨.refl hs, ?_⟩
  split
  · exact Keeps.within _ (keeps_part hs _ hm)
  · exact Keeps.throw hs _

theorem keeps_expectParts {s : Workplace κ} (hs : Everywhere Shaped s.whole) (given : Nat) :
    Keeps s (expectParts given) := by
  refine Keeps.after (yields_atom s) fun a t ht => ?_
  obtain ⟨rfl, rfl⟩ := ht
  refine ⟨.refl hs, ?_⟩
  dsimp only
  split
  · exact Keeps.throw hs _
  · exact Keeps.pure hs _

/-! ## Members and elements -/

section Values

variable {assign : Value → EditM κ Unit}

theorem keeps_assignMembers {members : List (String × Value)}
    (hmembers : ∀ m ∈ members, ∀ s : Workplace κ, Everywhere Shaped s.whole → Keeps s (assign m.2))
    {s : Workplace κ} (hs : Everywhere Shaped s.whole) : Keeps s (assignMembers assign members) := by
  induction members generalizing s with
  | nil => exact Keeps.pure hs ()
  | cons member members ih =>
    rw [List.forall_mem_cons] at hmembers
    refine Keeps.bind (keeps_atMember hs _ hmembers.1) fun _ t ht => ?_
    exact ih hmembers.2 ht.shaped

theorem keeps_assignElements {elements : List Value}
    (helements : ∀ v ∈ elements, ∀ s : Workplace κ, Everywhere Shaped s.whole → Keeps s (assign v))
    {s : Workplace κ} (hs : Everywhere Shaped s.whole) (index : Nat) :
    Keeps s (assignElements assign index elements) := by
  induction elements generalizing s index with
  | nil => exact Keeps.pure hs ()
  | cons v elements ih =>
    rw [List.forall_mem_cons] at helements
    refine Keeps.bind (Keeps.within _ (keeps_part hs index helements.1)) fun _ t ht => ?_
    exact ih helements.2 ht.shaped _

end Values

/-- Assigning to an atom of bits. -/
theorem keeps_setBits (env : Env κ) (v : Value) {s : Workplace κ} (hs : Everywhere Shaped s.whole) :
    Keeps s (setBits env v) := by
  revert s
  refine Value.of_inductive (P := fun v => ∀ {s : Workplace κ}, Everywhere Shaped s.whole →
    Keeps s (setBits env v)) (fun v hmembers helements s hs => ?_) v
  rw [setBits]
  refine Keeps.after (yields_prepare hs) fun _ t ht => ⟨ht.1, ?_⟩
  obtain ⟨hst, hcontent⟩ := ht
  have hfinish (u : Workplace κ) (hu : Conserves t u) : Keeps u (finish env) :=
    keeps_finish hu.shaped
  refine Keeps.after (yields_atom t) fun a u hu => ?_
  obtain ⟨rfl, rfl⟩ := hu
  refine ⟨.refl hst.shaped, ?_⟩
  split
  · rename_i bits signed hlayout
    refine Keeps.bind (Keeps.ofExcept hst.shaped _) fun encoded t ht => ?_
    refine Keeps.after (yields_atom t) fun a u hu => ?_
    obtain ⟨rfl, rfl⟩ := hu
    refine ⟨.refl ht.shaped, Keeps.bind (keeps_setAtom ht.shaped ?_) fun _ u hu => ?_⟩
    · have hshaped := (Everywhere.of_assemble ht.shaped).here
      rw [← ht.layout] at hlayout
      exact Accounts.filled (hshaped.parts_of_int hlayout) rfl rfl (by rw [hlayout]; rfl) rfl
    · exact hfinish u (ht.trans hu)
  · split
    · rw [setBitFields_eq]
      exact Keeps.bind (keeps_assignMembers (hmembers _ rfl) hst.shaped) fun _ => hfinish
    · exact Yields.throw_bind (.refl hst.shaped)
  · split
    · refine Keeps.bind (keeps_expectParts hst.shaped _) fun _ t ht => ?_
      rw [setBitElements_eq]
      refine Keeps.bind (keeps_assignElements (helements _ rfl) ht.shaped _) fun _ u hu => ?_
      exact hfinish u (ht.trans hu)
    · exact Yields.throw_bind (.refl hst.shaped)
  · exact Yields.throw_bind (.refl hst.shaped)

/-! ## Bytes -/

/-- An array at the place has content, so that elements may be added. -/
def IsOpenArray (s : Workplace κ) : Prop := s.place.atom.content = .group ∧ s.place.atom.isBits = false

/-- Editing elements leaves an array open for more. -/
theorem IsOpenArray.of_outline {s t : Workplace κ} (h : IsOpenArray s)
    (houtline : t.place.atom.outline = s.place.atom.outline) : IsOpenArray t := by
  simp only [Atom.outline, Prod.mk.injEq] at houtline
  obtain ⟨hface, hkind, -⟩ := houtline
  refine ⟨?_, ?_⟩
  · rw [h.1] at hkind
    cases hcontent : t.place.atom.content <;> simp_all [Content.kind]
  · have hlayout : t.place.atom.info.layout = s.place.atom.info.layout :=
      congrArg (fun face => face.2.2) hface
    rw [isBits, hlayout]
    exact h.2

theorem keeps_dropElements {s : Workplace κ} (hs : Everywhere Shaped s.whole) {element : Layout κ}
    {shape : Shape κ} (hlayout : s.place.atom.info.layout = .bytes (.array element shape)) :
    Yields dropElements s (fun _ t => Conserves s t ∧ IsOpenArray t) fun _ t => Conserves s t := by
  refine (yields_atom s).bind fun a t ht => ?_
  obtain ⟨rfl, rfl⟩ := ht
  have hclear := Accounts.clear t.place.atom t.ledger
  have hempty : Accounts t.place.atom.cleared (t.ledger.releaseAll t.place.atom.parts)
      ((t.place.atom.fill .group []).withTail []) (t.ledger.releaseAll t.place.atom.parts) := by
    refine Accounts.filled (isBlank_cleared _).parts ?_ rfl ?_ ?_
    · rw [site_withTail, info_fill, site_cleared]
    · rw [Info.layout_of_site (site_cleared _), hlayout]
      rfl
    · exact fun _ h => absurd h List.not_mem_nil
  refine Yields.via (fun _ u => u = { t with ledger := t.ledger.releaseAll t.place.atom.parts }) rfl
    fun _ u hu => ?_
  subst hu
  refine yields_setAtom ⟨.of_atom hs (hclear.trans hempty), rfl, ?_⟩
  show (t.place.atom.info.layout).isBits = false
  rw [hlayout]
  rfl

theorem keeps_addElement {s : Workplace κ} (hs : Everywhere Shaped s.whole) (hopen : IsOpenArray s)
    (element : Layout κ) (index cursor : Nat) :
    Yields (addElement env element index cursor) s (fun _ t => Conserves s t ∧ IsOpenArray t)
      fun _ t => Conserves s t := by
  refine Yields.bind (yields_ofLedger (Ends.spawn _ _ _ _)) fun blank t ht => ?_
  obtain ⟨hplace, hblank, -, -, hcame⟩ := ht
  refine (yields_atom t).bind fun a u hu => ?_
  obtain ⟨rfl, rfl⟩ := hu
  have hframe : s.place.atom.frame.Open false :=
    ⟨.inl ⟨hopen.1, hopen.2⟩, by rw [close_frame]; exact Everywhere.of_assemble hs⟩
  have hpush := hcame.push hframe
  rw [close_frame, Frame.close_push, plug_frame] at hpush
  obtain ⟨l, q⟩ := u
  subst hplace
  have hstart : Conserves s ⟨l, ⟨s.place.atom.push blank, s.place.frames⟩⟩ := .of_atom hs hpush
  refine Yields.via (fun _ v => v = ⟨l, ⟨s.place.atom.push blank, s.place.frames⟩⟩) rfl
    fun _ v hv => ?_
  subst hv
  have hremake (t : Workplace κ) (ht : Everywhere Shaped t.whole) :
      Keeps t (remake (allocate env Layout.nestingLimit)) :=
    (keeps_remake ht (accounts_allocate env _ _ (Everywhere.of_assemble ht) _)).mono
      (fun _ _ h => h.1) fun _ _ h => h
  have hpart := keeps_atPart hstart.shaped index hremake
  refine yields_within _ (hpart.mono (fun _ v hv => ?_) fun _ v hv => hstart.trans hv)
  have hstill : IsOpenArray ⟨l, ⟨s.place.atom.push blank, s.place.frames⟩⟩ := hopen
  exact ⟨hstart.trans hv.1, hstill.of_outline hv.2⟩

theorem keeps_setNewElements {elements : List Value}
    (helements : ∀ v ∈ elements, ∀ s : Workplace κ, Everywhere Shaped s.whole →
      Keeps s (setBytes env v))
    {s : Workplace κ} (hs : Everywhere Shaped s.whole) (hopen : IsOpenArray s) (element : Layout κ)
    (index cursor : Nat) : Keeps s (setNewElements env element index cursor elements) := by
  induction elements generalizing s index cursor with
  | nil =>
    rw [setNewElements]
    exact Keeps.pure hs ()
  | cons v elements ih =>
    rw [List.forall_mem_cons] at helements
    rw [setNewElements]
    refine Keeps.after (keeps_addElement hs hopen element index cursor) fun _ t ht => ⟨ht.1, ?_⟩
    refine Keeps.after (yields_within _ (keeps_atPart ht.1.shaped index helements.1))
      fun _ u hu => ⟨hu.1, ?_⟩
    refine Keeps.after (yields_partSize index u) fun size v hv => ?_
    obtain ⟨rfl, rfl⟩ := hv
    exact ⟨.refl hu.1.shaped, ih helements.2 hu.1.shaped (ht.2.of_outline hu.2) _ _⟩

theorem keeps_setScalar {s : Workplace κ} (hs : Everywhere Shaped s.whole) {layout : Layout κ}
    (hadmits : ∀ raw, s.place.atom.info.layout.admits (layout.stored raw) = true) (v : Value) :
    Keeps s (setScalar layout v) := by
  refine Yields.via (fun _ t => t = s) ?_ fun raw t ht => ?_
  · exact yields_ofExcept (fun _ _ => rfl) fun _ _ => .refl hs
  subst ht
  refine (yields_atom t).bind fun a u hu => ?_
  obtain ⟨rfl, rfl⟩ := hu
  have hclear := Accounts.clear u.place.atom u.ledger
  have hstored : Accounts u.place.atom.cleared (u.ledger.releaseAll u.place.atom.parts)
      ((u.place.atom.mapInfo fun info => { info with undecodable := false }).withBytes layout raw)
      (u.ledger.releaseAll u.place.atom.parts) := by
    rw [withBytes_eq]
    refine Accounts.filled (isBlank_cleared _).parts ?_ rfl ?_ (layout.holds_stored raw _)
    · rw [info_fill, info_mapInfo, site_cleared]
      rfl
    · rw [Info.layout_of_site (site_cleared _)]
      exact hadmits raw
  refine Yields.via (fun _ t => t = { u with ledger := u.ledger.releaseAll u.place.atom.parts }) rfl
    fun _ t ht => ?_
  subst ht
  exact yields_setAtom (.of_atom hs (hclear.trans hstored))

/-- Assigning to an atom of bytes. -/
theorem keeps_setBytes (env : Env κ) (v : Value) {s : Workplace κ} (hs : Everywhere Shaped s.whole) :
    Keeps s (setBytes env v) := by
  revert s
  refine Value.of_inductive (P := fun v => ∀ {s : Workplace κ}, Everywhere Shaped s.whole →
    Keeps s (setBytes env v)) (fun v hmembers helements s hs => ?_) v
  rw [setBytes]
  refine Keeps.after (yields_prepare hs) fun _ t ht => ⟨ht.1, ?_⟩
  obtain ⟨hst, hcontent⟩ := ht
  have hfinish (u : Workplace κ) (hu : Conserves t u) : Keeps u (finish env) :=
    keeps_finish hu.shaped
  refine Keeps.after (yields_atom t) fun a u hu => ?_
  obtain ⟨rfl, rfl⟩ := hu
  refine ⟨.refl hst.shaped, ?_⟩
  cases hlayout : u.place.atom.info.layout with
  | bits layout => exact Yields.throw_bind (.refl hst.shaped)
  | bytes layout =>
    cases layout
    case record | union =>
      cases v
      case fields members =>
        have hloop := keeps_assignMembers (hmembers _ rfl) hst.shaped
        rw [← setFields_eq] at hloop
        exact Keeps.bind hloop fun _ => hfinish
      all_goals exact Yields.throw_bind (.refl hst.shaped)
    case array element shape =>
      cases v
      case items elements =>
        refine Keeps.after (yields_atom u) fun a t ht => ?_
        obtain ⟨rfl, rfl⟩ := ht
        refine ⟨.refl hst.shaped, ?_⟩
        split
        · have hloop := keeps_assignElements (helements _ rfl) hst.shaped 0
          rw [← setElements_eq] at hloop
          exact Keeps.bind hloop fun _ => hfinish
        · have hanew : Keeps t (do
              dropElements
              setNewElements env element 0 t.place.atom.info.offset elements
              finish env) := by
            refine Keeps.after (keeps_dropElements hst.shaped hlayout) fun _ t ht => ⟨ht.1, ?_⟩
            refine Keeps.bind (keeps_setNewElements (helements _ rfl) ht.1.shaped ht.2 _ _ _)
              fun _ v hv => ?_
            exact hfinish v (ht.1.trans hv)
          cases shape with
          | counted count => exact Yields.throw_bind (.refl hst.shaped)
          | block | terminated | unending => exact hanew
      all_goals exact Yields.throw_bind (.refl hst.shaped)
    case bits root order =>
      refine Keeps.after (yields_atom u) fun a t ht => ?_
      obtain ⟨rfl, rfl⟩ := ht
      refine ⟨.refl hst.shaped, ?_⟩
      split
      · refine Keeps.bind (keeps_part hst.shaped 0 fun t ht => keeps_setBits env v ht) fun _ => hfinish
      · exact Yields.throw_bind (.refl hst.shaped)
    all_goals
      refine Keeps.bind (keeps_setScalar hst.shaped ?_ v) fun _ => hfinish
      intro raw
      rw [hlayout]
      rfl

/-- Assigning to any atom. -/
theorem keeps_setValue (env : Env κ) (v : Value) {s : Workplace κ} (hs : Everywhere Shaped s.whole) :
    Keeps s (setValue env v) := by
  refine Keeps.after (yields_atom s) fun a t ht => ?_
  obtain ⟨rfl, rfl⟩ := ht
  refine ⟨.refl hs, ?_⟩
  split
  · exact keeps_setBits env v hs
  · exact keeps_setBytes env v hs

/-! ## Pointers -/

theorem layout_of_pointerAt {a : Atom κ} {pointer : PointerLayout κ}
    (h : pointerAt a = .ok pointer) :
    ∃ wire target policy, a.info.layout = .bytes (.pointer wire target policy) := by
  rw [pointerAt] at h
  split at h
  · exact ⟨_, _, _, ‹_›⟩
  · simp at h

/-- A pointer with another number, whose referent is given up. -/
theorem accounts_repoint {a : Atom κ} {pointer : PointerLayout κ} (h : pointerAt a = .ok pointer)
    (raw : Bytes) (l : Ledger κ) :
    Accounts a l (a.fill (.pointer raw) []) (l.releaseAll a.parts) := by
  refine (Accounts.clear a l).trans (Accounts.filled (isBlank_cleared _).parts ?_ rfl ?_ ?_)
  · rw [info_fill, site_cleared]
  · obtain ⟨wire, target, policy, hlayout⟩ := layout_of_pointerAt h
    rw [Info.layout_of_site (site_cleared _), hlayout]
    rfl
  · exact ⟨Nat.zero_le 1, fun _ h => absurd h List.not_mem_nil⟩

/-- Pointing a pointer at an address. -/
theorem keeps_reference (env : Env κ) (address : Nat) {s : Workplace κ}
    (hs : Everywhere Shaped s.whole) : Keeps s (reference env address) := by
  refine (yields_place s).bind fun p t ht => ?_
  obtain ⟨rfl, rfl⟩ := ht
  refine Yields.via (fun pointer u => u = t ∧ pointerAt t.place.atom = .ok pointer) ?_
    fun pointer u hu => ?_
  · exact yields_ofExcept (fun _ h => ⟨rfl, h⟩) fun _ _ => .refl hs
  obtain ⟨rfl, hpointer⟩ := hu
  refine Yields.via (fun _ v => v = u) ?_ fun wire v hv => ?_
  · exact yields_ofExcept (fun _ _ => rfl) fun _ _ => .refl hs
  subst hv
  refine Yields.via (fun _ w => w = v) ?_ fun raw w hw => ?_
  · exact yields_ofExcept (fun _ _ => rfl) fun _ _ => .refl hs
  subst hw
  have hstored := accounts_repoint hpointer raw w.ledger
  refine Yields.via (fun _ x => x = { w with ledger := w.ledger.releaseAll w.place.atom.parts }) rfl
    fun _ x hx => ?_
  subst hx
  refine Yields.via (fun _ x => Conserves w x) (.of_atom hs hstored) fun _ x hx => ?_
  exact (keeps_finish hx.shaped).mono (fun _ _ h => hx.trans h) fun _ _ h => hx.trans h

/-- Only pointers have referents. -/
theorem content_of_referent? {a referent : Atom κ} (h : a.referent? = some referent) :
    (∃ wire, a.content = .pointer wire) ∧ ∃ others, a.parts = referent :: others := by
  obtain ⟨info, content, parts⟩ := a
  cases content with
  | pointer wire =>
    cases parts with
    | nil => cases h
    | cons part parts =>
      cases h
      exact ⟨⟨wire, rfl⟩, parts, rfl⟩
  | empty | raw | group | overlay | host | bits => cases h

/-- Only a pointer that was followed gets another number, and this is the one that means where its
referent stands. -/
theorem of_refreshedWire {p : Place κ} {raw : Bytes} (h : refreshedWire env p = .ok (some raw)) :
    ∃ pointer referent wire, pointerAt p.atom = .ok pointer ∧ p.atom.referent? = some referent
      ∧ env.wireFor pointer.policy p referent.info.offset = .ok wire
      ∧ pointer.wire.encode (.signed wire) = .ok raw := by
  rw [refreshedWire] at h
  cases hreferent : p.atom.referent? with
  | none =>
    rw [hreferent] at h
    cases h
  | some referent =>
    rw [hreferent] at h
    cases hpointer : pointerAt p.atom with
    | error e =>
      rw [hpointer] at h
      cases h
    | ok pointer =>
      rw [hpointer] at h
      simp only [bind, Except.bind] at h
      split at h
      · cases h
      · split at h
        · cases h
        · rename_i wire hwire
          split at h
          · cases h
          · rename_i bytes hencode
            cases h
            exact ⟨pointer, referent, wire, rfl, rfl, hwire, hencode⟩

/-- A pointer with another number and the same referent. -/
theorem accounts_rewire {a : Atom κ} (ha : Everywhere Shaped a) {wire : Bytes}
    (hcontent : a.content = .pointer wire) (raw : Bytes) (l : Ledger κ) :
    Accounts a l (a.fill (.pointer raw) a.parts) l := by
  refine .of_parts rfl ha.here ?_ ?_ (.refl (everywhere_iff.1 ha).2)
  · rw [content_fill, hcontent, AtomLayout.admits_pointer]
  · rw [hcontent]
    exact id

/-- Storing a followed pointer's number again. -/
theorem keeps_refreshWire (env : Env κ) {s : Workplace κ} (hs : Everywhere Shaped s.whole) :
    Keeps s (refreshWire env) := by
  refine (yields_place s).bind fun p t ht => ?_
  obtain ⟨rfl, rfl⟩ := ht
  refine Yields.via (fun raw? u => u = t ∧ refreshedWire env t.place = .ok raw?) ?_
    fun raw? u hu => ?_
  · exact yields_ofExcept (fun _ h => ⟨rfl, h⟩) fun _ _ => .refl hs
  obtain ⟨rfl, hraw⟩ := hu
  cases raw? with
  | none => exact Keeps.pure hs ()
  | some raw =>
    obtain ⟨_, _, _, -, hreferent, -⟩ := of_refreshedWire hraw
    obtain ⟨⟨wire, hcontent⟩, -⟩ := content_of_referent? hreferent
    have hstored := accounts_rewire (Everywhere.of_assemble hs) hcontent raw u.ledger
    dsimp only
    split
    · refine Keeps.bind (keeps_setAtom hs hstored) fun _ v hv => ?_
      refine Keeps.bind (keeps_around ?_) fun _ w hw => ?_
      · exact (accounts_syncUnions _ _ hv.shaped _).and (outline_syncUnions _ _ _)
      exact Yields.modified (.of_frames (accounts_markDirty hw.shaped _) (outline_markDirty _))
    · exact Keeps.pure hs ()

/-! ## Updates -/

theorem keeps_updateFields (env : Env κ) (fields : List (Field κ (Layout κ))) (index : Nat)
    {s : Workplace κ} (hs : Everywhere Shaped s.whole) : Keeps s (updateFields env index fields) := by
  induction fields generalizing s index with
  | nil => exact Keeps.pure hs ()
  | cons field fields ih =>
    have hrest (t : Workplace κ) (ht : Conserves s t) :
        Keeps t (updateFields env (index + 1) fields) :=
      ih (index + 1) ht.shaped
    rw [updateFields]
    refine (yields_place s).bind fun p t ht => ?_
    obtain ⟨rfl, rfl⟩ := ht
    dsimp only
    split
    · exact hrest t (.refl hs)
    · split
      · refine Keeps.bind (Keeps.within _ ?_) fun _ => hrest
        refine Keeps.bind (Keeps.ofExcept hs _) fun wanted u hu => ?_
        split
        · exact keeps_part hu.shaped index fun v hv => keeps_setValue env wanted hv
        · exact Keeps.pure hu.shaped ()
      · exact hrest t (.refl hs)

/-- Editing an atom and its later siblings. -/
theorem outer_alongSiblings {m : EditM κ Unit}
    (hm : ∀ s : Workplace κ, Everywhere Shaped s.whole → Keeps s m) (count : Nat)
    {s : Workplace κ} (hs : Everywhere Shaped s.whole) {outer : Place κ}
    (hup : s.place.up? = some outer) :
    Yields (alongSiblings m count) s (fun _ t => ConservesOuter s t)
      fun _ t => ConservesOuter s t := by
  induction count generalizing s outer with
  | zero => exact Yields.pure ((Conserves.refl hs).outwards hup)
  | succ count ih =>
    rw [alongSiblings]
    refine (yields_place s).bind fun p t ht => ?_
    obtain ⟨rfl, rfl⟩ := ht
    refine Yields.via (fun _ u => Conserves t u) ?_ fun _ u hu => ?_
    · exact (Keeps.within _ (hm t hs)).mono (fun _ _ h => h) fun _ _ h => h.outwards hup
    have houter := hu.outwards hup
    refine (yields_place u).bind fun p v hv => ?_
    obtain ⟨rfl, rfl⟩ := hv
    split
    · exact Yields.pure houter
    · rename_i q hnext
      obtain ⟨-, outer', -, hup', -, -⟩ := houter
      have hupnext : q.up? = some outer' := (Place.up?_next? hnext).trans hup'
      have hwhole : Everywhere Shaped (Workplace.whole { v with place := q }) := by
        rw [Workplace.whole, ← Place.root_up? hupnext, Place.root_up? hup']
        exact hu.shaped
      have hstep : ConservesOuter v { v with place := q } := by
        have houter' : Everywhere Shaped (Workplace.whole { v with place := outer' }) := by
          rw [Workplace.whole, Place.root_up? hup']
          exact hu.shaped
        exact ⟨outer', outer', hup', hupnext, .refl houter', rfl⟩
      refine Yields.via (fun _ w => w = { v with place := q }) rfl fun _ w hw => ?_
      subst hw
      have hback := ((hu.outwards hup).trans hstep)
      exact (ih hwhole hupnext).mono (fun _ _ h => hback.trans h) fun _ _ h => hback.trans h

theorem keeps_eachPart {m : EditM κ Unit}
    (hm : ∀ s : Workplace κ, Everywhere Shaped s.whole → Keeps s m) {s : Workplace κ}
    (hs : Everywhere Shaped s.whole) : Keeps s (eachPart m) := by
  refine (yields_atom s).bind fun a t ht => ?_
  obtain ⟨rfl, rfl⟩ := ht
  refine (conserves_atPart hs 0 fun p hdown => ?_).mono (fun _ _ h => h.1) fun _ _ h => h
  have hwhole : Everywhere Shaped (Workplace.whole { t with place := p }) :=
    (whole_down? hdown).symm ▸ hs
  exact outer_alongSiblings hm _ hwhole (Place.up?_down? hdown)

theorem keeps_recalculateTo (env : Env κ) (depth : Nat) {s : Workplace κ}
    (hs : Everywhere Shaped s.whole) : Keeps s (recalculateTo env depth) := by
  induction depth generalizing s with
  | zero => exact Keeps.throw hs _
  | succ depth ih =>
    rw [recalculateTo]
    refine Keeps.bind (keeps_eachPart (fun s hs => ih hs) hs) fun _ t ht => ?_
    refine Keeps.after (yields_atom t) fun a u hu => ?_
    obtain ⟨rfl, rfl⟩ := hu
    have hrest (v : Workplace κ) (hv : Conserves u v) : Keeps v (do
        refreshWire env
        setAtom ((← atom).mapInfo fun info => { info with dirty := false })) := by
      refine Keeps.bind (keeps_refreshWire env hv.shaped) fun _ w hw => ?_
      refine Keeps.after (yields_atom w) fun a x hx => ?_
      obtain ⟨rfl, rfl⟩ := hx
      have hclean : Accounts x.place.atom x.ledger
          (x.place.atom.mapInfo fun info => { info with dirty := false }) x.ledger :=
        (Accounts.refl (Everywhere.of_assemble hw.shaped)).mapInfo rfl
      exact ⟨.refl hw.shaped, keeps_setAtom hw.shaped hclean⟩
    refine ⟨.refl ht.shaped, ?_⟩
    split
    · exact Keeps.bind (keeps_updateFields env _ 0 ht.shaped) fun _ => hrest
    · exact hrest u (.refl ht.shaped)

/-- Running the updates of an atom and everything below it. -/
theorem keeps_recalculate (env : Env κ) {s : Workplace κ} (hs : Everywhere Shaped s.whole) :
    Keeps s (recalculate env) := by
  refine Keeps.after (yields_atom s) fun a t ht => ?_
  obtain ⟨rfl, rfl⟩ := ht
  exact ⟨.refl hs, keeps_recalculateTo env _ hs⟩

end EditM

end BinaryLayout
