import BinaryLayout.Proofs.Extent.Surroundings
import BinaryLayout.Proofs.Handles.Edit

/-!
# Extents while atoms are edited

Extents are forced when an atom is laid out, not when it is edited. So an edit keeps to them where
none is declared: no extent is forced on the edited atom, and the atoms around it are loose. Of such
atoms those are considered here that hold no other atoms of bytes, because an assignment to any other
one edits the atoms in it as well, which may not be free.

## Main definitions

* `Place.Free`: no extent is forced on an atom, and none is declared for what surrounds it.
* `AtomLayout.isPlain`: layouts without atoms of bytes in them.
* `Workplace.Kept`: everything keeps to its extents, at a free place.
* `Upholds`: an edit that keeps it so, if it succeeds.

## Main statements

* `upholds_afterChange`: what follows a change.
* `upholds_setValue`, `upholds_reference`: the edits of a plain atom.
-/

namespace BinaryLayout

variable {κ α β : Type}

open Atom

/-- No extent is forced on the atom, and none is declared for the atoms around it. -/
structure Place.Free (p : Place κ) : Prop where
  atom : p.atom.info.Free
  frames : LooseIn p.frames

instance (p : Place κ) : Decidable p.Free :=
  decidable_of_iff (p.atom.info.Free ∧ LooseIn p.frames)
    ⟨fun h => ⟨h.1, h.2⟩, fun h => ⟨h.atom, h.frames⟩⟩

/-- Atoms of the layout hold no atoms of bytes, but for what a pointer refers to. -/
def AtomLayout.isPlain : AtomLayout κ → Bool
  | .bytes (.record ..) | .bytes (.array ..) | .bytes (.union ..) => false
  | _ => true

theorem AtomLayout.unblocked_of_isPlain {layout : AtomLayout κ} (h : layout.isPlain = true)
    (extent : Nat) : ¬ IsBlockArray extent layout := by
  rintro ⟨element, rfl⟩
  cases h

theorem AtomLayout.isPlain_of_isBits {layout : AtomLayout κ} (h : layout.isBits = true) :
    layout.isPlain = true := by
  cases layout with
  | bits layout => rfl
  | bytes layout => cases h

namespace Workplace

/-- Everything keeps to its extents, and the place is free. -/
structure Kept (s : Workplace κ) : Prop where
  shaped : Everywhere Shaped s.whole
  honours : Everywhere Honours s.whole
  free : s.place.Free

namespace Kept

variable {s : Workplace κ}

theorem shaped_atom (hs : s.Kept) : Everywhere Shaped s.place.atom := Everywhere.of_assemble hs.shaped

theorem honours_atom (hs : s.Kept) : Everywhere Honours s.place.atom := Everywhere.of_assemble hs.honours

/-- Another atom at the same place. -/
theorem of_atom (hs : s.Kept) {l : Ledger κ} {a : Atom κ} (hst : Conserves s ⟨l, ⟨a, s.place.frames⟩⟩)
    (ha : Everywhere Honours a) (hextent : a.isBits = false → a.info.extent? = s.place.atom.info.extent?) :
    Kept ⟨l, ⟨a, s.place.frames⟩⟩ := by
  refine ⟨hst.shaped, honours_assemble ⟨hst.isBits, hextent⟩ hs.free.frames ha hs.honours, ?_,
    hs.free.frames⟩
  rcases hs.free.atom with hbits | hnone
  · exact .inl (hst.isBits.trans hbits)
  · cases hbits : a.isBits with
    | true => exact .inl hbits
    | false => exact .inr ((hextent hbits).trans hnone)

/-- A plain atom without parts at the same place. -/
theorem of_bare (hs : s.Kept) (hplain : s.place.atom.info.layout.isPlain = true) {l : Ledger κ}
    {a : Atom κ} (hst : Conserves s ⟨l, ⟨a, s.place.frames⟩⟩) (hparts : a.parts = [])
    (hextent : a.info.extent? = s.place.atom.info.extent?) : Kept ⟨l, ⟨a, s.place.frames⟩⟩ := by
  have hloose : a.info.Loose :=
    ⟨hs.free.atom.of_eq hst.layout hextent,
      AtomLayout.unblocked_of_isPlain ((congrArg AtomLayout.isPlain hst.layout).trans hplain)⟩
  refine hs.of_atom hst (everywhere_iff.2 ⟨hloose.honours fun i part hpart => ?_, fun part hpart => ?_⟩)
    fun _ => hextent
  · rw [hparts] at hpart
    cases hpart
  · rw [hparts] at hpart
    cases hpart

/-- A part of bits. -/
theorem part (hs : s.Kept) (hplain : s.place.atom.info.layout.isPlain = true) {i : Nat} {p : Place κ}
    (h : s.place.down? i = some p) (hbits : p.atom.isBits = true) : Kept { s with place := p } := by
  have hroot : p.root = s.place.root := Place.root_down? h
  have hwhole : Workplace.whole { s with place := p } = s.whole := congrArg Place.atom hroot
  obtain ⟨f, hframes, hplug, -⟩ := Place.frames_of_down? h
  have hinfo : f.info = s.place.atom.info := by rw [← hplug, Frame.info_plug]
  refine ⟨hwhole ▸ hs.shaped, hwhole ▸ hs.honours, .inl hbits, ?_⟩
  show LooseIn p.frames
  rw [hframes]
  exact fun _ => ⟨hinfo ▸ ⟨hs.free.atom, AtomLayout.unblocked_of_isPlain hplain⟩, hs.free.frames⟩

end Kept

end Workplace

/-- If the edit succeeds, everything keeps to its extents, and the place is still free. -/
def Upholds (s : Workplace κ) (m : EditM κ α) : Prop :=
  Yields m s (fun _ t => Conserves s t ∧ t.Kept) fun _ _ => True

namespace Upholds

variable {s : Workplace κ}

theorem bind {m : EditM κ α} {f : α → EditM κ β} (hm : Upholds s m)
    (hf : ∀ a t, Conserves s t → t.Kept → Upholds t (f a)) : Upholds s (m >>= f) := by
  refine Yields.bind hm fun a t ht => ?_
  exact (hf a t ht.1 ht.2).mono (fun _ _ h => ⟨ht.1.trans h.1, h.2⟩) fun _ _ h => h

/-- One edit after another, by what holds after the first. -/
theorem after {m : EditM κ α} {f : α → EditM κ β} {post : α → Workplace κ → Prop}
    (hm : Yields m s post fun _ _ => True)
    (hf : ∀ a t, post a t → Conserves s t ∧ Upholds t (f a)) : Upholds s (m >>= f) := by
  refine hm.bind fun a t ht => ?_
  obtain ⟨hst, hupholds⟩ := hf a t ht
  exact hupholds.mono (fun _ _ h => ⟨hst.trans h.1, h.2⟩) fun _ _ h => h

theorem pure (hs : s.Kept) (a : α) : Upholds s (Pure.pure a : EditM κ α) :=
  Yields.pure ⟨.refl hs.shaped, hs⟩

theorem within {m : EditM κ α} (outer : Path) (hm : Upholds s m) : Upholds s (EditM.within outer m) :=
  EditM.yields_within outer hm

end Upholds

namespace EditM

variable {env : Env κ} {s : Workplace κ}

/-! ## What follows a change -/

/-- Offsets and unused bits. -/
theorem kept_reflow (hs : s.Kept) : Workplace.Kept { s with place := s.place.reflow } := by
  obtain ⟨hwhole, hloose⟩ := honours_reflow hs.honours hs.free.frames
  have hsame := congrArg Atom.info s.place.unplaced_reflow.1
  rw [info_unplaced, info_unplaced] at hsame
  have hlayout : s.place.reflow.atom.info.layout = s.place.atom.info.layout := congrArg (·.layout) hsame
  have hextent : s.place.reflow.atom.info.extent? = s.place.atom.info.extent? :=
    congrArg (·.extent?) hsame
  exact ⟨(conserves_reflow hs.shaped).shaped, hwhole, hs.free.atom.of_eq hlayout hextent, hloose⟩

theorem upholds_followDependents (hs : s.Kept) : Upholds s (around (followDependents env)) := by
  refine yields_around (((honours_followDependents _ _ hs.shaped hs.honours hs.free.frames _).and
    ((accounts_followDependents _ _ hs.shaped s.ledger).and (outline_followDependents _ _ _))).mono
    fun out l h => ⟨fun herror => ?_, fun _ _ => trivial⟩)
  obtain ⟨hwhole, hloose⟩ := h.1 herror
  have hst : Conserves s ⟨l, ⟨s.place.atom, out.frames⟩⟩ := .of_frames h.2.1 h.2.2
  exact ⟨hst, hst.shaped, hwhole, hs.free.atom, hloose⟩

theorem upholds_syncUnions (hs : s.Kept) : Upholds s (around (syncUnions env)) := by
  refine yields_around (((honours_syncUnions _ _ hs.shaped hs.honours _).and
    ((accounts_syncUnions _ _ hs.shaped s.ledger).and (outline_syncUnions _ _ _))).mono
    fun out l h => ⟨fun herror => ?_, fun _ _ => trivial⟩)
  obtain ⟨hwhole, hloose⟩ := h.1 herror
  have hst : Conserves s ⟨l, ⟨s.place.atom, out.frames⟩⟩ := .of_frames h.2.1 h.2.2
  exact ⟨hst, hst.shaped, hwhole, hs.free.atom, hloose hs.free.frames⟩

theorem upholds_markDirty (hs : s.Kept) :
    Upholds s (modify fun s => { s with place := ⟨s.place.atom, markDirty s.place.frames⟩ }) := by
  obtain ⟨hwhole, hloose⟩ := honours_markDirty hs.honours
  have hst : Conserves s { s with place := ⟨s.place.atom, markDirty s.place.frames⟩ } :=
    .of_frames (accounts_markDirty hs.shaped _) (outline_markDirty _)
  exact Yields.modified ⟨hst, hst.shaped, hwhole, hs.free.atom, hloose hs.free.frames⟩

/-- Dependent fields, offsets, unions and dirt, in this order. -/
theorem upholds_afterChange (hs : s.Kept) : Upholds s (afterChange env) := by
  refine (upholds_followDependents hs).bind fun _ t _ ht => ?_
  refine Upholds.bind (Yields.modified ⟨conserves_reflow ht.shaped, kept_reflow ht⟩) fun _ u _ hu => ?_
  exact (upholds_syncUnions hu).bind fun _ v _ hv => upholds_markDirty hv

/-- A changed plain atom, and then its surroundings. -/
theorem upholds_finish (hs : s.Kept) (hplain : s.place.atom.info.layout.isPlain = true) :
    Upholds s (finish env) := by
  refine Upholds.after (yields_atom s) fun a t ht => ?_
  obtain ⟨rfl, rfl⟩ := ht
  have hst := Conserves.of_atom hs.shaped (Accounts.refl hs.shaped_atom).ready
  have hextent : t.place.atom.ready.info.extent? = t.place.atom.info.extent? := by
    rw [ready, info_mapInfo]
  have hlayout : t.place.atom.ready.info.layout = t.place.atom.info.layout := by
    rw [ready, info_mapInfo]
  have hready : Everywhere Honours t.place.atom.ready := by
    refine everywhere_iff.2 ⟨Info.Loose.honours ⟨hs.free.atom.of_eq hlayout hextent, ?_⟩ ?_, ?_⟩
    · rw [hlayout]
      exact AtomLayout.unblocked_of_isPlain hplain
    · rw [parts_ready, content_ready, hlayout]
      exact hs.honours_atom.here.ruled
    · rw [parts_ready]
      exact (everywhere_iff.1 hs.honours_atom).2
  refine ⟨.refl hs.shaped, Upholds.bind (yields_setAtom ⟨hst, ?_⟩) fun _ u _ hu => ?_⟩
  · exact hs.of_atom hst hready fun _ => hextent
  · exact upholds_afterChange hu

/-- An atom that was made anew and has the same extent forced on it, if it is one of bytes. -/
theorem kept_made (hs : s.Kept) {l : Ledger κ} {a : Atom κ}
    (haccounts : Accounts s.place.atom s.ledger a l)
    (hmade : s.place.atom.isBits = false → a.Made s.place.atom.info) :
    Workplace.Kept ⟨l, ⟨a, s.place.frames⟩⟩ := by
  have hst := Conserves.of_atom hs.shaped haccounts
  cases hbits : s.place.atom.isBits with
  | true =>
    have hnew : a.isBits = true := haccounts.isBits.trans hbits
    refine hs.of_atom hst (honours_of_bits _ haccounts.shaped hnew) fun hbytes => ?_
    rw [hnew] at hbytes
    cases hbytes
  | false =>
    have hnone : s.place.atom.info.extent? = none := by
      rcases hs.free.atom with hown | hnone
      · rw [isBits, hown] at hbits
        cases hbits
      · exact hnone
    exact hs.of_atom hst ((hmade hbits).honours hnone) fun _ => (hmade hbits).extent

/-- A loaded atom. -/
theorem kept_load (env : Env κ) (hs : s.Kept) (sources : Sources) (source : Nat) :
    Ends (load env Layout.nestingLimit s.place.frames s.place.atom) ⟨s.ledger, sources, .source source⟩
      fun out t => out.error? = none → Workplace.Kept ⟨t.ledger, ⟨out.atom, s.place.frames⟩⟩ := by
  refine ((accounts_load env Layout.nestingLimit s.place.frames (.inl hs.shaped_atom) _).and
    (honours_load env _ _ _ _)).mono fun out t h herror => ?_
  exact kept_made hs h.1 fun _ => h.2.made herror

/-- An atom made anew. -/
theorem upholds_remake (hs : s.Kept) : Upholds s (remake (allocate env Layout.nestingLimit)) := by
  have haccounts := accounts_allocate env Layout.nestingLimit s.place.frames hs.shaped_atom s.ledger
  have hmade : Ends (allocate env Layout.nestingLimit s.place.frames s.place.atom) s.ledger fun out _ =>
      out.error? = none → s.place.atom.isBits = false → out.atom.Made s.place.atom.info := by
    cases hlayout : s.place.atom.info.layout with
    | bits layout =>
      refine (Ends.trivial _ _).mono fun _ _ _ _ hbits => ?_
      rw [isBits, hlayout] at hbits
      cases hbits
    | bytes layout =>
      exact (honours_allocate env _ _ hlayout _).mono fun _ _ h herror _ => (h herror).1
  refine yields_remake ((hmade.and haccounts).mono fun out l h => ⟨fun herror => ?_, fun _ _ => trivial⟩)
  exact ⟨.of_atom hs.shaped h.2.1, kept_made hs h.2.1 (h.1 herror)⟩

/-- What is edited has content. -/
theorem upholds_prepare (hs : s.Kept) : Upholds s (prepare env) := by
  refine Upholds.after (yields_atom s) fun a t ht => ?_
  obtain ⟨rfl, rfl⟩ := ht
  refine ⟨.refl hs.shaped, ?_⟩
  dsimp only
  split
  · exact Yields.throw_bind trivial
  · split
    · exact upholds_remake hs
    · exact Upholds.pure hs ()

/-! ## Bits -/

/-- An edit of a part, where all parts are bits. -/
theorem upholds_atPart (hs : s.Kept) (hplain : s.place.atom.info.layout.isPlain = true)
    (hpointer : ∀ wire, s.place.atom.content ≠ .pointer wire)
    (hbits : ∀ part ∈ s.place.atom.parts, part.isBits = true) (i : Nat) {m : EditM κ Unit}
    (hm : ∀ t : Workplace κ, t.Kept → t.place.atom.isBits = true → Upholds t m) :
    Upholds s (atPart i m) := by
  refine yields_atPart (fun _ => ⟨.refl hs.shaped, hs⟩) fun p hdown => ?_
  have hup := Place.up?_down? hdown
  obtain ⟨f, hframes, hplug, -⟩ := Place.frames_of_down? hdown
  have hpart : p.atom.isBits = true := by
    refine hbits _ ?_
    rw [← hplug, Frame.parts_plug]
    simp
  refine (hm _ (hs.part hplain hdown hpart) hpart).mono (fun _ t ht => ?_) fun _ _ h => h
  obtain ⟨hst, hkept⟩ := ht
  obtain ⟨outer, outer', houter, houter', hconserves, -⟩ := hst.outwards hup
  obtain rfl : s.place = outer := by
    rw [hup, Option.some.injEq] at houter
    exact houter
  rw [houter', Option.getD_some]
  have hroot : outer'.root = t.place.root := Place.root_up? houter'
  have hwhole : Everywhere Honours (Workplace.whole { t with place := outer' }) := by
    rw [Workplace.whole, hroot]
    exact hkept.honours
  have hsame := hst.frames
  obtain ⟨m, b, frames⟩ := t
  cases frames with
  | nil => cases houter'
  | cons f' frames =>
    simp only [Place.up?, Option.some.injEq] at houter'
    subst houter'
    simp only [hframes, List.map_cons, List.cons.injEq, Frame.outline, Prod.mk.injEq] at hsame
    have hkind : f'.content.kind = f.content.kind := hsame.1.2.1
    have hframe : f'.isPointer = false := by
      rw [← Bool.not_eq_true, Frame.isPointer_iff]
      rintro ⟨wire, hcontent⟩
      rw [hcontent] at hkind
      cases hown : f.content with
      | pointer wire' =>
        refine hpointer wire' ?_
        rw [← hplug, Frame.content_plug, hown]
      | empty | raw | group | overlay | host | bits =>
        rw [hown] at hkind
        cases hkind
    obtain ⟨hloose, hrest⟩ := hkept.free.frames hframe
    exact ⟨hconserves, hconserves.shaped, hwhole, hloose.free, hrest⟩

/-- An edit of a part of an atom of bits. -/
theorem upholds_bitPart (hs : s.Kept) (hbits : s.place.atom.isBits = true) (i : Nat) {m : EditM κ Unit}
    (hm : ∀ t : Workplace κ, t.Kept → t.place.atom.isBits = true → Upholds t m) :
    Upholds s (atPart i m) := by
  obtain ⟨hpointer, hparts⟩ := hs.shaped_atom.here.of_isBits hbits
  exact upholds_atPart hs (AtomLayout.isPlain_of_isBits hbits) hpointer hparts i hm

theorem upholds_expectParts (hs : s.Kept) (given : Nat) : Upholds s (expectParts given) := by
  refine Upholds.after (yields_atom s) fun a t ht => ?_
  obtain ⟨rfl, rfl⟩ := ht
  refine ⟨.refl hs.shaped, ?_⟩
  dsimp only
  split
  · exact Yields.throw trivial
  · exact Upholds.pure hs _

section Values

variable {assign : Value → EditM κ Unit}

theorem upholds_assignMembers {members : List (String × Value)}
    (hmembers : ∀ m ∈ members, ∀ s : Workplace κ, s.Kept → s.place.atom.isBits = true →
      Upholds s (assign m.2))
    {s : Workplace κ} (hs : s.Kept) (hbits : s.place.atom.isBits = true) :
    Upholds s (assignMembers assign members) := by
  induction members generalizing s with
  | nil => exact Upholds.pure hs ()
  | cons member members ih =>
    rw [List.forall_mem_cons] at hmembers
    have hmember : Upholds s (atMember member.1 (assign member.2)) := by
      refine Upholds.after (yields_atom s) fun a t ht => ?_
      obtain ⟨rfl, rfl⟩ := ht
      refine ⟨.refl hs.shaped, ?_⟩
      split
      · exact Upholds.within _ (upholds_bitPart hs hbits _ hmembers.1)
      · exact Yields.throw trivial
    refine hmember.bind fun _ t hst ht => ?_
    exact ih hmembers.2 ht (hst.isBits.trans hbits)

theorem upholds_assignElements {elements : List Value}
    (helements : ∀ v ∈ elements, ∀ s : Workplace κ, s.Kept → s.place.atom.isBits = true →
      Upholds s (assign v))
    {s : Workplace κ} (hs : s.Kept) (hbits : s.place.atom.isBits = true) (index : Nat) :
    Upholds s (assignElements assign index elements) := by
  induction elements generalizing s index with
  | nil => exact Upholds.pure hs ()
  | cons v elements ih =>
    rw [List.forall_mem_cons] at helements
    refine Upholds.bind (Upholds.within _ (upholds_bitPart hs hbits index helements.1))
      fun _ t hst ht => ?_
    exact ih helements.2 ht (hst.isBits.trans hbits) _

end Values

/-- Assigning to an atom of bits. -/
theorem upholds_setBits (env : Env κ) (v : Value) {s : Workplace κ} (hs : s.Kept)
    (hbits : s.place.atom.isBits = true) : Upholds s (setBits env v) := by
  revert s
  refine Value.of_inductive (P := fun v => ∀ {s : Workplace κ}, s.Kept → s.place.atom.isBits = true →
    Upholds s (setBits env v)) (fun v hmembers helements s hs hbits => ?_) v
  rw [setBits]
  refine Upholds.bind (upholds_prepare hs) fun _ t hst ht => ?_
  have hbits := hst.isBits.trans hbits
  have hfinish (u : Workplace κ) (htu : Conserves t u) (hu : u.Kept) : Upholds u (finish env) :=
    upholds_finish hu (AtomLayout.isPlain_of_isBits (htu.isBits.trans hbits))
  refine Upholds.after (yields_atom t) fun a u hu => ?_
  obtain ⟨rfl, rfl⟩ := hu
  refine ⟨.refl ht.shaped, ?_⟩
  split
  · rename_i bits signed hlayout
    refine Yields.via (fun _ v => v = u) ?_ fun encoded v hv => ?_
    · exact yields_ofExcept (fun _ _ => rfl) fun _ _ => trivial
    subst hv
    refine Upholds.after (yields_atom v) fun a w hw => ?_
    obtain ⟨rfl, rfl⟩ := hw
    have hfilled : Accounts w.place.atom w.ledger (w.place.atom.fill (.bits encoded) []) w.ledger :=
      Accounts.filled (ht.shaped_atom.here.parts_of_int hlayout) rfl rfl (by rw [hlayout]; rfl) rfl
    have hst := Conserves.of_atom ht.shaped hfilled
    refine ⟨.refl ht.shaped, Upholds.bind (yields_setAtom ⟨hst, ?_⟩) fun _ => hfinish⟩
    exact ht.of_bare (AtomLayout.isPlain_of_isBits hbits) hst rfl rfl
  · split
    · rw [setBitFields_eq]
      exact Upholds.bind (upholds_assignMembers (hmembers _ rfl) ht hbits) fun _ => hfinish
    · exact Yields.throw_bind trivial
  · split
    · refine Upholds.bind (upholds_expectParts ht _) fun _ w hst hw => ?_
      rw [setBitElements_eq]
      refine Upholds.bind (upholds_assignElements (helements _ rfl) hw (hst.isBits.trans hbits) _)
        fun _ x hwx hx => ?_
      exact hfinish x (hst.trans hwx) hx
    · exact Yields.throw_bind trivial
  · exact Yields.throw_bind trivial

/-! ## Bytes -/

/-- Storing the bytes of a value. -/
theorem upholds_setScalar (hs : s.Kept) (hplain : s.place.atom.info.layout.isPlain = true)
    {layout : Layout κ} (hadmits : ∀ raw, s.place.atom.info.layout.admits (layout.stored raw) = true)
    (v : Value) : Upholds s (setScalar layout v) := by
  have hbare : Yields (setScalar layout v) s (fun _ t => ∃ l a, t = ⟨l, ⟨a, s.place.frames⟩⟩
      ∧ a.parts = [] ∧ a.info.extent? = s.place.atom.info.extent?) fun _ _ => True := by
    refine Yields.via (fun _ t => t = s) ?_ fun raw t ht => ?_
    · exact yields_ofExcept (fun _ _ => rfl) fun _ _ => trivial
    subst ht
    refine (yields_atom t).bind fun a u hu => ?_
    obtain ⟨rfl, rfl⟩ := hu
    refine Yields.via (fun _ t => t = { u with ledger := u.ledger.releaseAll u.place.atom.parts }) rfl
      fun _ t ht => ?_
    subst ht
    refine yields_setAtom ⟨_, _, rfl, ?_, ?_⟩
    · rw [withBytes_eq, parts_fill]
    · rw [withBytes_eq, info_fill, info_mapInfo]
  refine ((keeps_setScalar hs.shaped hadmits v).and hbare).mono (fun _ t ht => ?_) fun _ _ _ => trivial
  obtain ⟨hst, l, a, rfl, hparts, hextent⟩ := ht
  exact ⟨hst, hs.of_bare hplain hst hparts hextent⟩

/-- Assigning to a plain atom of bytes. -/
theorem upholds_setBytes (env : Env κ) (v : Value) (hs : s.Kept)
    (hplain : s.place.atom.info.layout.isPlain = true) : Upholds s (setBytes env v) := by
  rw [setBytes]
  refine Upholds.bind (upholds_prepare hs) fun _ t hst ht => ?_
  have hplain : t.place.atom.info.layout.isPlain = true := by
    rw [hst.layout]
    exact hplain
  have hfinish (u : Workplace κ) (htu : Conserves t u) (hu : u.Kept) : Upholds u (finish env) := by
    refine upholds_finish hu ?_
    rw [htu.layout]
    exact hplain
  refine Upholds.after (yields_atom t) fun a u hu => ?_
  obtain ⟨rfl, rfl⟩ := hu
  refine ⟨.refl ht.shaped, ?_⟩
  cases hlayout : u.place.atom.info.layout with
  | bits layout => exact Yields.throw_bind trivial
  | bytes layout =>
    cases layout
    case record | array | union =>
      rw [hlayout] at hplain
      cases hplain
    case bits root order =>
      refine Upholds.after (yields_atom u) fun a w hw => ?_
      obtain ⟨rfl, rfl⟩ := hw
      refine ⟨.refl ht.shaped, ?_⟩
      split
      · rename_i pad hcontent
        have hholds := ht.shaped_atom.here.holds
        rw [hcontent] at hholds
        obtain ⟨own, hparts, hown⟩ := hholds
        refine Upholds.bind (upholds_atPart ht hplain (fun wire h => ?_) (fun part hpart => ?_) 0
          fun t ht hbits => upholds_setBits env v ht hbits) fun _ => hfinish
        · rw [hcontent] at h
          cases h
        · rw [hparts] at hpart
          obtain rfl := List.mem_singleton.1 hpart
          exact hown
      · exact Yields.throw_bind trivial
    all_goals
      refine Upholds.bind (upholds_setScalar ht hplain (fun raw => ?_) v) fun _ => hfinish
      rw [hlayout]
      rfl

/-- Assigning to a plain atom. -/
theorem upholds_setValue (env : Env κ) (v : Value) (hs : s.Kept)
    (hplain : s.place.atom.info.layout.isPlain = true) : Upholds s (setValue env v) := by
  refine Upholds.after (yields_atom s) fun a t ht => ?_
  obtain ⟨rfl, rfl⟩ := ht
  refine ⟨.refl hs.shaped, ?_⟩
  split
  · rename_i hbits
    exact upholds_setBits env v hs hbits
  · exact upholds_setBytes env v hs hplain

/-! ## Pointers -/

/-- Pointing a pointer at an address. -/
theorem upholds_reference (env : Env κ) (address : Nat) (hs : s.Kept) :
    Upholds s (reference env address) := by
  refine (yields_place s).bind fun p t ht => ?_
  obtain ⟨rfl, rfl⟩ := ht
  refine Yields.via (fun pointer u => u = t ∧ pointerAt t.place.atom = .ok pointer) ?_
    fun pointer u hu => ?_
  · exact yields_ofExcept (fun _ h => ⟨rfl, h⟩) fun _ _ => trivial
  obtain ⟨rfl, hpointer⟩ := hu
  refine Yields.via (fun _ v => v = u) ?_ fun wire v hv => ?_
  · exact yields_ofExcept (fun _ _ => rfl) fun _ _ => trivial
  subst hv
  refine Yields.via (fun _ w => w = v) ?_ fun raw w hw => ?_
  · exact yields_ofExcept (fun _ _ => rfl) fun _ _ => trivial
  subst hw
  have hplain : w.place.atom.info.layout.isPlain = true := by
    obtain ⟨format, target, policy, hlayout⟩ := layout_of_pointerAt hpointer
    rw [hlayout]
    rfl
  have hst := Conserves.of_atom hs.shaped (accounts_repoint hpointer raw w.ledger)
  refine Yields.via (fun _ x => x = { w with ledger := w.ledger.releaseAll w.place.atom.parts }) rfl
    fun _ x hx => ?_
  subst hx
  have hkept := hs.of_bare hplain hst rfl rfl
  refine Yields.via (fun _ x => (Conserves w x ∧ x.Kept) ∧ x.place.atom.info.layout.isPlain = true)
    (yields_setAtom ⟨⟨hst, hkept⟩, hplain⟩) fun _ x hx => ?_
  exact (upholds_finish hx.1.2 hx.2).mono (fun _ _ h => ⟨hx.1.1.trans h.1, h.2⟩) fun _ _ h => h

end EditM

end BinaryLayout
