import BinaryLayout.Proofs.Handles.Edit
import BinaryLayout.Proofs.Placement.Surroundings

/-!
# Where atoms stand after an edit

An edit begins where everything is in order, or where the surroundings of an atom still have to
follow it, and if it succeeds everything is in order again. Between the two the atom itself is always
laid out, its surroundings are poised, and neither it nor an atom around it has moved. The elements of
an array that are made anew stand one after another for this last reason: each is made at a cursor,
and the cursor still tells where it stands after a value was assigned to it.

An edit that fails may leave its atom half changed and its surroundings as they were before they
followed. So all that is left to say is that they still wait for it.

## Main definitions

* `Workplace.Tidy`, `Workplace.Ready`: everything in order, and all but the surroundings.
* `Workplace.Waiting`: surroundings that wait for the atom, whatever it is.
* `Steady`: what holds between the workplaces before and after an edit.
* `Reaches`: an edit that ends where something holds, if it succeeds, and where its surroundings
  wait, if it fails.

## Main statements

* `tidies_afterChange`: surroundings that follow.
* `tidies_setValue`, `tidies_reference`, `tidying_recalculate`: the edits of an atom.
-/

namespace BinaryLayout

variable {κ α β : Type}

open Atom

/-- A stored integer has the bytes that its format asks for. -/
theorem IntFormat.length_encode {t : IntFormat} {v : Value} {raw : Bytes} (h : t.encode v = .ok raw) :
    raw.length = t.width := by
  have hwrite {n : Int} (h : t.write n = .ok raw) : raw.length = t.width := by
    rw [write, Codec.writeInt] at h
    split at h
    · cases h
      rw [Codec.wrapInt, ByteOrder.length_writeNat]
    · cases h
  unfold encode at h
  split at h
  · exact hwrite h
  · split at h
    · cases h
    · split at h
      · cases h
      · exact hwrite h

/-- The offsets of an atom and of the atoms around it. -/
def Place.starts (p : Place κ) : List Nat := p.atom.info.offset :: Frame.starts p.frames

namespace Workplace

/-- Everything is in order. -/
structure Tidy (s : Workplace κ) : Prop where
  shaped : Everywhere Shaped s.whole
  laid : Everywhere LaidOut s.whole

/-- The atom is in order, and its surroundings will be when they follow. -/
structure Ready (s : Workplace κ) : Prop where
  shaped : Everywhere Shaped s.whole
  laid : Everywhere LaidOut s.place.atom
  poised : Poised s.place.atom.info.offset s.place.frames

theorem Tidy.ready {s : Workplace κ} (h : s.Tidy) : s.Ready :=
  ⟨h.shaped, h.laid.of_assemble, poised_of_laidOut h.laid⟩

/-- The surroundings of the atom will be in order when they follow it, whatever the atom is. -/
structure Waiting (s : Workplace κ) : Prop where
  shaped : Everywhere Shaped s.whole
  poised : Poised s.place.atom.info.offset s.place.frames

theorem Ready.waiting {s : Workplace κ} (h : s.Ready) : s.Waiting := ⟨h.shaped, h.poised⟩

/-- What waits for a part waits for the atom around the part too. -/
theorem Waiting.outwards {l : Ledger κ} {a : Atom κ} {f : Frame κ} {frames : List (Frame κ)}
    (h : Waiting ⟨l, ⟨a, f :: frames⟩⟩) (hpointer : ¬ f.isPointer = true) :
    Waiting ⟨l, ⟨f.plug a, frames⟩⟩ :=
  ⟨h.shaped, ((poised_cons hpointer).1 h.poised).2⟩

/-- An array is no pointer. -/
theorem Ready.not_pointer {s : Workplace κ} (hs : s.Ready)
    (harray : s.place.atom.info.layout.isArray = true) (wire : Bytes) :
    s.place.atom.content ≠ .pointer wire := by
  intro hcontent
  have hadmits := (Everywhere.of_assemble hs.shaped : Everywhere Shaped s.place.atom).here.admits
  rw [hcontent] at hadmits
  cases hlayout : s.place.atom.info.layout with
  | bits layout =>
    rw [hlayout] at hadmits
    cases layout <;> cases hadmits
  | bytes layout =>
    rw [hlayout] at hadmits harray
    cases layout
    case array => cases hadmits
    all_goals exact Bool.false_ne_true harray

/-- Another atom at the same place. -/
theorem Ready.of_atom {s : Workplace κ} (hs : s.Ready) {l : Ledger κ} {a : Atom κ}
    (hshaped : Everywhere Shaped (Place.assemble a s.place.frames)) (hlaid : Everywhere LaidOut a)
    (hoffset : a.info.offset = s.place.atom.info.offset) : Ready ⟨l, ⟨a, s.place.frames⟩⟩ :=
  ⟨hshaped, hlaid, by rw [hoffset]; exact hs.poised⟩

/-- The part of an atom that is in order. The surroundings of what a pointer refers to have to be in
order as well. -/
theorem Ready.part {s : Workplace κ} (hs : s.Ready) {i : Nat} {p : Place κ} (h : s.place.down? i = some p)
    (hpointer : ∀ wire, s.place.atom.content ≠ .pointer wire) : Ready { s with place := p } := by
  have hup := Place.up?_down? h
  obtain ⟨a, frames⟩ := p
  obtain ⟨l, outer⟩ := s
  cases frames with
  | nil => cases hup
  | cons f frames =>
    simp only [Place.up?, Option.some.injEq] at hup
    subst hup
    have hframe : ¬ f.isPointer = true := fun hf => by
      obtain ⟨wire, hcontent⟩ := Frame.isPointer_iff.1 hf
      exact hpointer wire hcontent
    refine ⟨hs.shaped, (everywhere_plug.1 hs.laid).2.2.1, (poised_cons hframe).2 ⟨?_, hs.poised⟩⟩
    exact Frame.awaits_of_laidOut hs.laid (by simpa using hframe)

end Workplace

/-- The edit conserves, and neither the atom nor any around it moves. -/
structure Steady (s t : Workplace κ) : Prop where
  conserves : Conserves s t
  starts : t.place.starts = s.place.starts

namespace Steady

variable {s t u : Workplace κ}

theorem refl (h : Everywhere Shaped s.whole) : Steady s s := ⟨.refl h, rfl⟩

theorem trans (hst : Steady s t) (htu : Steady t u) : Steady s u :=
  ⟨hst.conserves.trans htu.conserves, htu.starts.trans hst.starts⟩

/-- Another atom at the same place. -/
theorem of_atom {l : Ledger κ} {a : Atom κ} (h : Conserves s ⟨l, ⟨a, s.place.frames⟩⟩)
    (hoffset : a.info.offset = s.place.atom.info.offset) : Steady s ⟨l, ⟨a, s.place.frames⟩⟩ :=
  ⟨h, by rw [Place.starts, Place.starts, hoffset]⟩

/-- Other surroundings of the same atom. -/
theorem of_frames {l : Ledger κ} {frames : List (Frame κ)}
    (h : Conserves s ⟨l, ⟨s.place.atom, frames⟩⟩)
    (hstarts : Frame.starts frames = Frame.starts s.place.frames) :
    Steady s ⟨l, ⟨s.place.atom, frames⟩⟩ :=
  ⟨h, by rw [Place.starts, Place.starts, hstarts]⟩

theorem offset (h : Steady s t) : t.place.atom.info.offset = s.place.atom.info.offset :=
  (List.cons.inj h.starts).1

/-- An edit that did nothing. -/
theorem stay (h : s.Waiting) : Steady s s ∧ s.Waiting := ⟨.refl h.shaped, h⟩

end Steady

/-- If the edit succeeds, it reaches its goal. However it ends, the surroundings of the atom wait for
it, and neither the atom nor any around it moved. -/
def Reaches (goal : Workplace κ → Prop) (s : Workplace κ) (m : EditM κ α) : Prop :=
  Yields m s (fun _ t => Steady s t ∧ goal t) fun _ t => Steady s t ∧ t.Waiting

namespace Reaches

variable {s : Workplace κ} {goal mid : Workplace κ → Prop}

theorem bind {m : EditM κ α} {f : α → EditM κ β} (hm : Reaches mid s m)
    (hf : ∀ a t, Steady s t → mid t → Reaches goal t (f a)) : Reaches goal s (m >>= f) := by
  refine Yields.bind hm fun a t ht => ?_
  exact (hf a t ht.1 ht.2).mono (fun _ _ h => ⟨ht.1.trans h.1, h.2⟩)
    fun _ _ h => ⟨ht.1.trans h.1, h.2⟩

/-- One edit after another, by what is said to hold between them. -/
theorem via {m : EditM κ α} {f : α → EditM κ β} (mid : Workplace κ → Prop) (hm : Reaches mid s m)
    (hf : ∀ a t, Steady s t → mid t → Reaches goal t (f a)) : Reaches goal s (m >>= f) :=
  hm.bind hf

theorem after {m : EditM κ α} {f : α → EditM κ β} {post : α → Workplace κ → Prop}
    (hm : Yields m s post fun _ t => Steady s t ∧ t.Waiting)
    (hf : ∀ a t, post a t → Steady s t ∧ Reaches goal t (f a)) : Reaches goal s (m >>= f) := by
  refine hm.bind fun a t ht => ?_
  obtain ⟨hst, hreaches⟩ := hf a t ht
  exact hreaches.mono (fun _ _ h => ⟨hst.trans h.1, h.2⟩) fun _ _ h => ⟨hst.trans h.1, h.2⟩

theorem pure (hs : Everywhere Shaped s.whole) (hgoal : goal s) (a : α) :
    Reaches goal s (Pure.pure a : EditM κ α) :=
  Yields.pure ⟨.refl hs, hgoal⟩

theorem throw (hs : s.Waiting) (e : Error) : Reaches goal s (MonadExcept.throw e : EditM κ α) :=
  Yields.throw ⟨.refl hs.shaped, hs⟩

theorem throw_bind (hs : s.Waiting) (e : Error) (f : α → EditM κ β) :
    Reaches goal s (MonadExcept.throw e >>= f) :=
  Yields.throw_bind ⟨.refl hs.shaped, hs⟩

theorem within {m : EditM κ α} (outer : Path) (hm : Reaches goal s m) :
    Reaches goal s (EditM.within outer m) :=
  EditM.yields_within outer hm

end Reaches

namespace EditM

variable {env : Env κ} {s : Workplace κ}

open Workplace

/-! ## What follows a change -/

/-- Offsets and unused bits. -/
theorem tidy_reflow (hs : s.Ready) :
    Steady s { s with place := s.place.reflow } ∧ Tidy { s with place := s.place.reflow } := by
  obtain ⟨frames, hreflow, hwhole, hstarts⟩ := laidOut_reflow hs.laid hs.poised
  have hst := conserves_reflow hs.shaped
  have hplace : s.place.reflow = ⟨s.place.atom, frames⟩ := hreflow
  rw [hplace] at hst ⊢
  exact ⟨.of_frames hst hstarts, hst.shaped, hwhole⟩

/-- The shared bytes of unions. -/
theorem tidies_syncUnions (hs : s.Tidy) : Reaches Tidy s (around (syncUnions env)) := by
  refine yields_around (((laidOut_syncUnions _ _ hs.laid _).and
    ((accounts_syncUnions _ _ hs.shaped s.ledger).and (outline_syncUnions _ _ _))).mono
    fun out l h => ?_)
  obtain ⟨⟨hwhole, hstarts⟩, haccounts, houtline⟩ := h
  have hst : Conserves s ⟨l, ⟨s.place.atom, out.frames⟩⟩ := .of_frames haccounts houtline
  have htidy : Tidy ⟨l, ⟨s.place.atom, out.frames⟩⟩ := ⟨hst.shaped, hwhole⟩
  exact ⟨fun _ => ⟨.of_frames hst hstarts, htidy⟩,
    fun _ _ => ⟨.of_frames hst hstarts, htidy.ready.waiting⟩⟩

theorem tidies_markDirty (hs : s.Tidy) :
    Reaches Tidy s (modify fun s => { s with place := ⟨s.place.atom, markDirty s.place.frames⟩ }) := by
  obtain ⟨hwhole, hstarts⟩ := laidOut_markDirty hs.laid
  have hst : Conserves s { s with place := ⟨s.place.atom, markDirty s.place.frames⟩ } :=
    .of_frames (accounts_markDirty hs.shaped _) (outline_markDirty _)
  exact Yields.modified ⟨.of_frames hst hstarts, hst.shaped, hwhole⟩

/-- Dependent fields. -/
theorem readies_followDependents (hs : s.Ready) : Reaches Ready s (around (followDependents env)) := by
  refine yields_around (((poised_followDependents _ _ hs.shaped hs.poised _).and
    ((accounts_followDependents _ _ hs.shaped s.ledger).and (outline_followDependents _ _ _))).mono
    fun out l h => ?_)
  obtain ⟨⟨hpoised, hstarts⟩, haccounts, houtline⟩ := h
  have hst : Conserves s ⟨l, ⟨s.place.atom, out.frames⟩⟩ := .of_frames haccounts houtline
  have hready : Ready ⟨l, ⟨s.place.atom, out.frames⟩⟩ := ⟨hst.shaped, hs.laid, hpoised⟩
  exact ⟨fun _ => ⟨.of_frames hst hstarts, hready⟩, fun _ _ => ⟨.of_frames hst hstarts, hready.waiting⟩⟩

/-- Dependent fields, offsets, unions and dirt, in this order. -/
theorem tidies_afterChange (hs : s.Ready) : Reaches Tidy s (afterChange env) := by
  refine Reaches.bind (readies_followDependents hs) fun _ t _ ht => ?_
  refine Reaches.via Tidy (Yields.modified (tidy_reflow ht)) fun _ u _ hu => ?_
  exact Reaches.bind (tidies_syncUnions hu) fun _ v _ hv => tidies_markDirty hv

/-- A changed atom that is in order, and then its surroundings. -/
theorem tidies_finish (hs : s.Ready) : Reaches Tidy s (finish env) := by
  refine Reaches.after (yields_atom s) fun a t ht => ?_
  obtain ⟨rfl, rfl⟩ := ht
  have hready := Conserves.of_atom hs.shaped (Accounts.refl (Everywhere.of_assemble hs.shaped)).ready
  have hoffset : t.place.atom.ready.info.offset = t.place.atom.info.offset :=
    Info.offset_of_site (site_ready _)
  refine ⟨.refl hs.shaped, Reaches.via Ready (yields_setAtom ?_) fun _ u _ hu => ?_⟩
  · exact ⟨.of_atom hready hoffset,
      hs.of_atom hready.shaped hs.laid.laidOut_ready hoffset⟩
  · exact tidies_afterChange hu

/-- An atom made anew. -/
theorem readies_remake (hs : s.Ready) : Reaches Ready s (remake (allocate env Layout.nestingLimit)) := by
  refine yields_remake ?_
  have haccounts := accounts_allocate env Layout.nestingLimit s.place.frames
    (Everywhere.of_assemble hs.shaped) s.ledger
  refine ((inOrder_allocate env _ _ _ _).and haccounts).mono fun out l h => ?_
  have hmade := h.1 (.inr hs.laid)
  have hst := Conserves.of_atom hs.shaped h.2.1
  have hready : Ready ⟨l, ⟨out.atom, s.place.frames⟩⟩ :=
    hs.of_atom hst.shaped hmade.laid hmade.offset
  exact ⟨fun _ => ⟨.of_atom hst hmade.offset, hready⟩,
    fun _ _ => ⟨.of_atom hst hmade.offset, hready.waiting⟩⟩

/-- An atom made anew, and then what is around it. -/
theorem tidies_remake (hs : s.Ready) :
    Reaches Tidy s (do
      remake (allocate env Layout.nestingLimit)
      modify fun s => { s with place := s.place.reflow }) :=
  Reaches.bind (readies_remake hs) fun _ _ _ ht => Yields.modified (tidy_reflow ht)

/-- What is edited has content. -/
theorem readies_prepare (hs : s.Ready) : Reaches Ready s (prepare env) := by
  refine Reaches.after (yields_atom s) fun a t ht => ?_
  obtain ⟨rfl, rfl⟩ := ht
  refine ⟨.refl hs.shaped, ?_⟩
  dsimp only
  split
  · exact Reaches.throw_bind hs.waiting _ _
  · split
    · exact readies_remake hs
    · exact Reaches.pure hs.shaped hs ()

/-! ## Parts -/

/-- An edit of the part at `i`, seen from the atom around it: neither of them moved. -/
structure EditsPart (i : Nat) (s t : Workplace κ) : Prop where
  steady : Steady s t
  outline : t.place.atom.outline = s.place.atom.outline
  offset : (t.place.atom.parts[i]?.map fun a => a.info.offset)
    = s.place.atom.parts[i]?.map fun a => a.info.offset

theorem editsPart_of_steady {i : Nat} {p : Place κ} (hdown : s.place.down? i = some p)
    {t : Workplace κ} (hst : Steady { s with place := p } t) :
    ∃ f frames, t.place.frames = f :: frames
      ∧ EditsPart i s { t with place := ⟨f.plug t.place.atom, frames⟩ } := by
  have hup := Place.up?_down? hdown
  obtain ⟨outer, outer', houter, houter', hconserves, houtline⟩ := hst.conserves.outwards hup
  obtain rfl : s.place = outer := by
    rw [hup, Option.some.injEq] at houter
    exact houter
  have hstarts := hst.starts
  obtain ⟨f, hframes, hplug, hlength⟩ := Place.frames_of_down? hdown
  obtain ⟨m, b, frames⟩ := t
  have hsame := hst.conserves.frames
  cases frames with
  | nil => cases houter'
  | cons f' frames =>
    simp only [Place.up?, Option.some.injEq] at houter'
    subst houter'
    simp only [hframes, List.map_cons, List.cons.injEq, Frame.outline, Prod.mk.injEq] at hsame
    simp only [Place.starts, hframes, Frame.starts, List.map_cons, List.cons.injEq] at hstarts
    refine ⟨f', frames, rfl, ⟨hconserves, ?_⟩, houtline, ?_⟩
    · rw [Place.starts, Place.starts, ← hplug]
      exact List.cons_eq_cons.2 hstarts.2
    · have hat (g : Frame κ) (c : Atom κ) (hg : g.left.length = i) : (g.plug c).parts[i]? = some c := by
        rw [Frame.parts_plug, ← hg, ← List.length_reverse]
        simp
      rw [← hplug, hat f p.atom hlength, hat f' b (hsame.1.2.2.1.trans hlength)]
      exact congrArg some hstarts.1

theorem reaches_atPart (hs : s.Ready) (i : Nat) (hpointer : ∀ wire, s.place.atom.content ≠ .pointer wire)
    {m : EditM κ Unit} (hm : ∀ t : Workplace κ, t.Ready → Reaches Tidy t m) :
    Yields (atPart i m) s (fun _ t => EditsPart i s t ∧ t.Ready)
      fun _ t => Steady s t ∧ t.Waiting := by
  refine yields_atPart (fun _ => ⟨⟨.refl hs.shaped, rfl, rfl⟩, hs⟩) fun p hdown => ?_
  refine (hm _ (hs.part hdown hpointer)).mono (fun _ t ht => ?_) fun _ t ht => ?_
  · obtain ⟨f, frames, hframes, hpart⟩ := editsPart_of_steady hdown ht.1
    obtain ⟨m, b, frames'⟩ := t
    cases hframes
    have hwhole : Tidy ⟨m, ⟨f.plug b, frames⟩⟩ := ⟨ht.2.shaped, ht.2.laid⟩
    exact ⟨hpart, hwhole.ready⟩
  · obtain ⟨f, frames, hframes, hpart⟩ := editsPart_of_steady hdown ht.1
    obtain ⟨m, b, frames'⟩ := t
    cases hframes
    refine ⟨hpart.steady, ht.2.outwards fun hf => ?_⟩
    obtain ⟨wire, hcontent⟩ := Frame.isPointer_iff.1 hf
    obtain ⟨wire, hsame⟩ := Content.pointer_of_kind (congrArg (·.2.1) hpart.outline) hcontent
    exact hpointer wire hsame

/-- An edit of a part, whatever it may change about it. -/
theorem readies_atPart (hs : s.Ready) (i : Nat) (hpointer : ∀ wire, s.place.atom.content ≠ .pointer wire)
    {m : EditM κ Unit} (hm : ∀ t : Workplace κ, t.Ready → Reaches Tidy t m) :
    Reaches Ready s (atPart i m) :=
  (reaches_atPart hs i hpointer hm).mono (fun _ _ h => ⟨h.1.steady, h.2⟩) fun _ _ h => h

theorem readies_atMember (hs : s.Ready) (name : String) {m : EditM κ Unit}
    (hm : ∀ t : Workplace κ, t.Ready → Reaches Tidy t m) : Reaches Ready s (atMember name m) := by
  refine Reaches.after (yields_atom s) fun a t ht => ?_
  obtain ⟨rfl, rfl⟩ := ht
  refine ⟨.refl hs.shaped, ?_⟩
  split
  · rename_i i hindex
    refine Reaches.within _ (readies_atPart hs i (fun wire hcontent => ?_) hm)
    -- what a pointer refers to is no member
    revert hindex hcontent
    generalize t.place.atom = a
    obtain ⟨info, content, parts⟩ := a
    rintro hindex rfl
    cases hindex
  · exact Reaches.throw hs.waiting _

theorem readies_expectParts (hs : s.Ready) (given : Nat) : Reaches Ready s (expectParts given) := by
  refine Reaches.after (yields_atom s) fun a t ht => ?_
  obtain ⟨rfl, rfl⟩ := ht
  refine ⟨.refl hs.shaped, ?_⟩
  dsimp only
  split
  · exact Reaches.throw hs.waiting _
  · exact Reaches.pure hs.shaped hs _

/-! ## Members and elements -/

section Values

variable {assign : Value → EditM κ Unit}

theorem readies_assignMembers {members : List (String × Value)}
    (hmembers : ∀ m ∈ members, ∀ s : Workplace κ, s.Ready → Reaches Tidy s (assign m.2))
    {s : Workplace κ} (hs : s.Ready) : Reaches Ready s (assignMembers assign members) := by
  induction members generalizing s with
  | nil => exact Reaches.pure hs.shaped hs ()
  | cons member members ih =>
    rw [List.forall_mem_cons] at hmembers
    refine Reaches.bind (readies_atMember hs _ hmembers.1) fun _ t _ ht => ?_
    exact ih hmembers.2 ht

theorem readies_assignElements {elements : List Value}
    (helements : ∀ v ∈ elements, ∀ s : Workplace κ, s.Ready → Reaches Tidy s (assign v))
    {s : Workplace κ} (hs : s.Ready) (harray : s.place.atom.info.layout.isArray = true) (index : Nat) :
    Reaches Ready s (assignElements assign index elements) := by
  induction elements generalizing s index with
  | nil => exact Reaches.pure hs.shaped hs ()
  | cons v elements ih =>
    rw [List.forall_mem_cons] at helements
    have hpart := readies_atPart hs index (hs.not_pointer harray) helements.1
    refine Reaches.bind (Reaches.within _ hpart) fun _ t hst ht => ?_
    exact ih helements.2 ht (by rw [hst.conserves.layout]; exact harray) _

end Values

/-- Assigning to an atom of bits. -/
theorem tidies_setBits (env : Env κ) (v : Value) {s : Workplace κ} (hs : s.Ready) :
    Reaches Tidy s (setBits env v) := by
  revert s
  refine Value.of_inductive (P := fun v => ∀ {s : Workplace κ}, s.Ready →
    Reaches Tidy s (setBits env v)) (fun v hmembers helements s hs => ?_) v
  rw [setBits]
  refine Reaches.bind (readies_prepare hs) fun _ t _ ht => ?_
  have hfinish (u : Workplace κ) (hu : u.Ready) : Reaches Tidy u (finish env) := tidies_finish hu
  refine Reaches.after (yields_atom t) fun a u hu => ?_
  obtain ⟨rfl, rfl⟩ := hu
  refine ⟨.refl ht.shaped, ?_⟩
  split
  · rename_i bits signed hlayout
    refine Yields.via (fun _ v => v = u) ?_ fun encoded v hv => ?_
    · exact yields_ofExcept (fun _ _ => rfl) fun _ _ => Steady.stay ht.waiting
    subst hv
    refine Reaches.after (yields_atom v) fun a w hw => ?_
    obtain ⟨rfl, rfl⟩ := hw
    have hbits : w.place.atom.isBits = true := by rw [isBits, hlayout]; rfl
    have hfilled : Accounts w.place.atom w.ledger (w.place.atom.fill (.bits encoded) []) w.ledger :=
      Accounts.filled ((Everywhere.of_assemble ht.shaped).here.parts_of_int hlayout) rfl rfl
        (by rw [hlayout]; rfl) rfl
    have hst := Conserves.of_atom ht.shaped hfilled
    have hlaid : Everywhere LaidOut (w.place.atom.fill (.bits encoded) []) :=
      laidOut_fill_nil rfl ht.laid.here.tail fun _ h => by cases h
    refine ⟨.refl ht.shaped, Reaches.via Ready (yields_setAtom ?_) fun _ => fun u _ => hfinish u⟩
    exact ⟨.of_atom hst rfl, ht.of_atom hst.shaped hlaid rfl⟩
  · split
    · rw [setBitFields_eq]
      exact Reaches.bind (readies_assignMembers (hmembers _ rfl) ht) fun _ u _ => hfinish u
    · exact Reaches.throw_bind ht.waiting _ _
  · rename_i hlayout
    split
    · refine Reaches.bind (readies_expectParts ht _) fun _ v hv hready => ?_
      rw [setBitElements_eq]
      have harray : v.place.atom.info.layout.isArray = true := by
        rw [hv.conserves.layout, hlayout]
        rfl
      refine Reaches.bind (readies_assignElements (helements _ rfl) hready harray _) fun _ w _ => ?_
      exact hfinish w
    · exact Reaches.throw_bind ht.waiting _ _
  · exact Reaches.throw_bind ht.waiting _ _

/-! ## Bytes -/

/-- Assigning to an atom without parts of its own. -/
theorem readies_setScalar (hs : s.Ready) {layout : Layout κ}
    (hlayout : s.place.atom.info.layout = .bytes layout)
    (hadmits : ∀ raw, s.place.atom.info.layout.admits (layout.stored raw) = true) (v : Value) :
    Reaches Ready s (setScalar layout v) := by
  have hlaid : Yields (setScalar layout v) s
      (fun _ t => ∃ l a, t = ⟨l, ⟨a, s.place.frames⟩⟩ ∧ Everywhere LaidOut a
        ∧ a.info.offset = s.place.atom.info.offset) fun _ t => t = s := by
    refine Yields.via (fun raw t => t = s ∧ layout.encode v = .ok raw) ?_ fun raw t ht => ?_
    · exact yields_ofExcept (fun _ h => ⟨rfl, h⟩) fun _ _ => rfl
    obtain ⟨rfl, hencode⟩ := ht
    refine (yields_atom t).bind fun a u hu => ?_
    obtain ⟨rfl, rfl⟩ := hu
    refine Yields.via (fun _ v => v = { u with ledger := u.ledger.releaseAll u.place.atom.parts }) rfl
      fun _ v hv => ?_
    subst hv
    refine yields_setAtom ⟨_, _, rfl, ?_, ?_⟩
    · refine laidOut_withBytes ?_ ?_ fun format target policy heq => ?_
      · rw [isBits, info_mapInfo, hlayout]
        rfl
      · rw [info_mapInfo]
        exact hlayout
      · subst heq
        exact IntFormat.length_encode hencode
    · rw [withBytes_eq, info_fill, info_mapInfo]
  refine (hlaid.and (keeps_setScalar hs.shaped hadmits v)).mono (fun _ t ht => ?_) fun _ t ht => ?_
  · obtain ⟨⟨l, a, rfl, hlaid, hoffset⟩, hst⟩ := ht
    exact ⟨.of_atom hst hoffset, hs.of_atom hst.shaped hlaid hoffset⟩
  · obtain ⟨rfl, -⟩ := ht
    exact Steady.stay hs.waiting

/-- Elements can be added: an array at the place has `index` elements, and the next one comes at
`cursor`. -/
structure Growing (index cursor : Nat) (s : Workplace κ) : Prop where
  isOpen : IsOpenArray s
  ready : s.Ready
  length : s.place.atom.parts.length = index
  cursor : cursor = turnEnd false s.place.atom.info.offset s.place.atom.parts

theorem growing_dropElements (hs : s.Ready) {element : Layout κ} {shape : Shape κ}
    (hlayout : s.place.atom.info.layout = .bytes (.array element shape)) :
    Reaches (Growing 0 s.place.atom.info.offset) s dropElements := by
  have hlaid : Yields dropElements s
      (fun _ t => ∃ l, t = ⟨l, ⟨(s.place.atom.fill .group []).withTail [], s.place.frames⟩⟩)
      fun _ _ => False := by
    refine (yields_atom s).bind fun a t ht => ?_
    obtain ⟨rfl, rfl⟩ := ht
    refine Yields.via (fun _ u => u = { t with ledger := t.ledger.releaseAll t.place.atom.parts }) rfl
      fun _ u hu => ?_
    subst hu
    exact yields_setAtom ⟨_, rfl⟩
  refine (hlaid.and (keeps_dropElements hs.shaped hlayout)).mono (fun _ t ht => ?_)
    fun _ _ ht => ht.1.elim
  obtain ⟨⟨l, rfl⟩, hst, hopen⟩ := ht
  have hbits : s.place.atom.isBits = false := by rw [isBits, hlayout]; rfl
  have hempty : Everywhere LaidOut (s.place.atom.fill .group []) :=
    laidOut_fill_nil trivial hs.laid.here.tail fun _ h => by cases h
  refine ⟨.of_atom hst rfl, hopen, ?_, rfl, rfl⟩
  exact hs.of_atom hst.shaped (hempty.laidOut_withTail hbits []) rfl

/-- An array with one more element. -/
theorem laidOut_push {a part : Atom κ} (ha : Everywhere LaidOut a) (hcontent : a.content = .group)
    (hpart : Everywhere LaidOut part)
    (hoffset : part.info.offset = turnEnd a.isBits a.info.offset a.parts) :
    Everywhere LaidOut (a.push part) := by
  have hseats := ha.here.seats
  rw [hcontent] at hseats
  refine everywhere_iff.2 ⟨⟨?_, ha.here.tail, fun wire h => ?_⟩, ?_⟩
  · rw [content_push, hcontent, parts_push]
    exact inTurn_append.2 ⟨hseats, hoffset, trivial⟩
  · rw [content_push, hcontent] at h
    cases h
  · rw [parts_push]
    exact List.forall_mem_append.2 ⟨fun _ => ha.part, List.forall_mem_singleton.2 hpart⟩

/-- Where the next element comes, by where the last one stands. -/
theorem turnEnd_of_last {a : Atom κ} (ha : a.LaidOut) (hcontent : a.content = .group)
    (hbits : a.isBits = false) {index cursor : Nat} (hlength : a.parts.length = index + 1)
    (hlast : (a.parts[index]?.map fun part => part.info.offset) = some cursor) :
    satAdd cursor ((a.parts[index]?.map size).getD 0) = turnEnd false a.info.offset a.parts := by
  have hne : a.parts ≠ [] := fun h => by
    rw [h] at hlength
    cases hlength
  obtain ⟨before, last, hparts⟩ : ∃ before last, a.parts = before ++ [last] :=
    ⟨_, _, (List.dropLast_concat_getLast hne).symm⟩
  have hseats := ha.seats
  rw [hcontent, hbits, hparts] at hseats
  obtain ⟨-, hoffset, -⟩ := inTurn_append.1 hseats
  rw [hparts, List.length_append, List.length_singleton, Nat.add_right_cancel_iff] at hlength
  rw [hparts, ← hlength, List.getElem?_concat_length, Option.map_some] at hlast ⊢
  rw [Option.some.injEq] at hlast
  rw [Option.getD_some, turnEnd_append, ← hoffset, hlast]
  rfl

/-- A new element at the cursor. -/
def Pushes (cursor : Nat) (s t : Workplace κ) : Prop :=
  ∃ l part, t = ⟨l, ⟨s.place.atom.push part, s.place.frames⟩⟩
    ∧ Everywhere LaidOut part ∧ part.info.offset = cursor

/-- A new element stands at the cursor, also when it could not be completed. -/
theorem pushes_addElement {index cursor : Nat} (hs : Growing index cursor s) (element : Layout κ) :
    Yields (addElement env element index cursor) s (fun _ t => Pushes cursor s t)
      fun _ t => Pushes cursor s t := by
  refine Yields.bind (yields_ofLedger (Ends.spawn _ _ _ _)) fun blank t ht => ?_
  obtain ⟨hplace, hblank, -, hoffset, -⟩ := ht
  refine (yields_atom t).bind fun a u hu => ?_
  obtain ⟨rfl, rfl⟩ := hu
  obtain ⟨l, q⟩ := u
  subst hplace
  refine Yields.via (fun _ v => v = ⟨l, ⟨s.place.atom.push blank, s.place.frames⟩⟩) rfl
    fun _ v hv => ?_
  subst hv
  have hdown : Place.down? ⟨s.place.atom.push blank, s.place.frames⟩ index
      = some ⟨blank, s.place.atom.frame :: s.place.frames⟩ := by
    rw [← hs.length]
    exact Place.down?_of_parts (p := ⟨s.place.atom.push blank, s.place.frames⟩) (parts_push _ _)
  refine yields_within _ (yields_atPart (fun hnone => ?_) fun p hp => ?_)
  · rw [hdown] at hnone
    cases hnone
  · rw [hdown, Option.some.injEq] at hp
    subst hp
    refine yields_remake ((inOrder_allocate env _ _ blank l).mono fun out m hout => ?_)
    have hmade := hout (.inr hblank.laidOut)
    have hpush : Pushes cursor s ⟨m, ⟨s.place.atom.push out.atom, s.place.frames⟩⟩ :=
      ⟨m, out.atom, rfl, hmade.laid, hmade.offset.trans hoffset⟩
    rw [← plug_frame] at hpush
    exact ⟨fun _ => hpush, fun _ _ => hpush⟩

/-- What there is after an element was added. -/
theorem Pushes.ready {index cursor : Nat} (hs : Growing index cursor s) {t : Workplace κ}
    (h : Pushes cursor s t) (hst : Conserves s t) : Steady s t ∧ t.Ready := by
  obtain ⟨l, part, rfl, hpart, hoffset⟩ := h
  refine ⟨.of_atom hst rfl, hs.ready.of_atom hst.shaped ?_ rfl⟩
  refine laidOut_push hs.ready.laid hs.isOpen.1 hpart ?_
  rw [hs.isOpen.2, hoffset]
  exact hs.cursor

theorem growing_setNewElements {elements : List Value}
    (helements : ∀ v ∈ elements, ∀ s : Workplace κ, s.Ready → Reaches Tidy s (setBytes env v))
    (element : Layout κ) {s : Workplace κ} {index cursor : Nat} (hs : Growing index cursor s) :
    Reaches Ready s (setNewElements env element index cursor elements) := by
  induction elements generalizing s index cursor with
  | nil =>
    rw [setNewElements]
    exact Reaches.pure hs.ready.shaped hs.ready ()
  | cons v elements ih =>
    rw [List.forall_mem_cons] at helements
    rw [setNewElements]
    refine Reaches.after (((pushes_addElement hs element).and
      (keeps_addElement hs.ready.shaped hs.isOpen element index cursor)).mono (fun _ _ h => h)
      fun _ t ht => ?_) fun _ t ht => ?_
    · obtain ⟨hsteady, hready⟩ := ht.1.ready hs ht.2
      exact ⟨hsteady, hready.waiting⟩
    obtain ⟨hpush, hst, hopen⟩ := ht
    obtain ⟨hsteady, hready⟩ := hpush.ready hs hst
    obtain ⟨l, part, rfl, -, hoffset⟩ := hpush
    refine ⟨hsteady, ?_⟩
    have hedit := reaches_atPart hready index (fun wire h => by
      rw [content_push, hs.isOpen.1] at h
      cases h) helements.1
    refine Reaches.after (yields_within _ hedit) fun _ u hu => ?_
    obtain ⟨hpart, hu⟩ := hu
    refine ⟨hpart.steady, Reaches.after (yields_partSize index u) fun size v hv => ?_⟩
    obtain ⟨rfl, rfl⟩ := hv
    have hstill := hopen.of_outline hpart.outline
    have hlength : v.place.atom.parts.length = index + 1 := by
      have hparts := congrArg (fun outline => outline.2.2) hpart.outline
      simpa [Atom.outline, hs.length] using hparts
    refine ⟨.refl hu.shaped, ih helements.2 ⟨hstill, hu, hlength, ?_⟩⟩
    have hlast : (v.place.atom.parts[index]?.map fun a => a.info.offset) = some cursor := by
      rw [hpart.offset, parts_push, ← hs.length, List.getElem?_concat_length, Option.map_some, hoffset]
    exact turnEnd_of_last hu.laid.here hstill.1 hstill.2 hlength hlast

/-- Assigning to an atom of bytes. -/
theorem tidies_setBytes (env : Env κ) (v : Value) {s : Workplace κ} (hs : s.Ready) :
    Reaches Tidy s (setBytes env v) := by
  revert s
  refine Value.of_inductive (P := fun v => ∀ {s : Workplace κ}, s.Ready →
    Reaches Tidy s (setBytes env v)) (fun v hmembers helements s hs => ?_) v
  rw [setBytes]
  refine Reaches.bind (readies_prepare hs) fun _ t _ ht => ?_
  have hfinish (u : Workplace κ) (hu : u.Ready) : Reaches Tidy u (finish env) := tidies_finish hu
  refine Reaches.after (yields_atom t) fun a u hu => ?_
  obtain ⟨rfl, rfl⟩ := hu
  refine ⟨.refl ht.shaped, ?_⟩
  cases hlayout : u.place.atom.info.layout with
  | bits layout => exact Reaches.throw_bind ht.waiting _ _
  | bytes layout =>
    cases layout
    case record | union =>
      cases v
      case fields members =>
        have hloop := readies_assignMembers (hmembers _ rfl) ht
        rw [← setFields_eq] at hloop
        exact Reaches.bind hloop fun _ w _ => hfinish w
      all_goals exact Reaches.throw_bind ht.waiting _ _
    case array element shape =>
      cases v
      case items elements =>
        refine Reaches.after (yields_atom u) fun a t ht' => ?_
        obtain ⟨rfl, rfl⟩ := ht'
        refine ⟨.refl ht.shaped, ?_⟩
        split
        · have hloop := readies_assignElements (helements _ rfl) ht (by rw [hlayout]; rfl) 0
          rw [← setElements_eq] at hloop
          exact Reaches.bind hloop fun _ w _ => hfinish w
        · have hanew : Reaches Tidy t (do
              dropElements
              setNewElements env element 0 t.place.atom.info.offset elements
              finish env) := by
            refine Reaches.bind (growing_dropElements ht hlayout) fun _ w _ hw => ?_
            exact Reaches.bind (growing_setNewElements (helements _ rfl) element hw) fun _ x _ => hfinish x
          cases shape with
          | counted count => exact Reaches.throw_bind ht.waiting _ _
          | block | terminated | unending => exact hanew
      all_goals exact Reaches.throw_bind ht.waiting _ _
    case bits root order =>
      refine Reaches.after (yields_atom u) fun a t ht' => ?_
      obtain ⟨rfl, rfl⟩ := ht'
      refine ⟨.refl ht.shaped, ?_⟩
      split
      · rename_i pad hcontent
        have hroot := readies_atPart (m := setBits env v) ht 0 (fun wire h => by
          rw [hcontent] at h
          cases h) fun t ht => tidies_setBits env v ht
        exact Reaches.bind hroot fun _ w _ => hfinish w
      · exact Reaches.throw_bind ht.waiting _ _
    all_goals
      refine Reaches.bind (readies_setScalar ht hlayout (fun raw => ?_) v) fun _ w _ => hfinish w
      rw [hlayout]
      rfl

/-- Assigning to any atom. -/
theorem tidies_setValue (env : Env κ) (v : Value) (hs : s.Ready) : Reaches Tidy s (setValue env v) := by
  refine Reaches.after (yields_atom s) fun a t ht => ?_
  obtain ⟨rfl, rfl⟩ := ht
  refine ⟨.refl hs.shaped, ?_⟩
  split
  · exact tidies_setBits env v hs
  · exact tidies_setBytes env v hs

/-! ## Pointers -/

/-- A pointer's number replaced by another one of its format, with whatever the pointer refers to. -/
theorem laidOut_rewire {a : Atom κ} (ha : Everywhere LaidOut a) {pointer : PointerLayout κ}
    (hpointer : pointerAt a = .ok pointer) {raw : Bytes} {wire : Int}
    (hraw : pointer.wire.encode (.signed wire) = .ok raw) {parts : List (Atom κ)}
    (hparts : ∀ part ∈ parts, Everywhere LaidOut part) :
    Everywhere LaidOut (a.fill (.pointer raw) parts) := by
  rw [pointerAt] at hpointer
  split at hpointer
  · rename_i format target policy hlayout
    cases hpointer
    refine everywhere_iff.2 ⟨⟨trivial, ha.here.tail, fun w h => ?_⟩, hparts⟩
    cases h
    exact ⟨format, target, policy, hlayout, IntFormat.length_encode hraw⟩
  · cases hpointer

/-- The number of a pointer takes as many bytes as before. -/
theorem sameFooting_rewire {a : Atom κ} (ha : a.LaidOut) {old : Bytes} (hcontent : a.content = .pointer old)
    {pointer : PointerLayout κ} (hpointer : pointerAt a = .ok pointer) {raw : Bytes} {wire : Int}
    (hraw : pointer.wire.encode (.signed wire) = .ok raw) :
    SameFooting a (a.fill (.pointer raw) a.parts) := by
  obtain ⟨format, target, policy, hlayout, hlength⟩ := ha.wire old hcontent
  rw [pointerAt, hlayout] at hpointer
  cases hpointer
  have hsame : raw.length = old.length := (IntFormat.length_encode hraw).trans hlength.symm
  obtain ⟨info, content, parts⟩ := a
  cases hcontent
  refine ⟨rfl, rfl, ?_, rfl⟩
  simp only [info_node] at hlayout
  simp [size, fill, contentSize, hlayout, AtomLayout.isBits, hsame]

/-- Pointing a pointer at an address. -/
theorem tidies_reference (env : Env κ) (address : Nat) (hs : s.Ready) :
    Reaches Tidy s (reference env address) := by
  refine (yields_place s).bind fun p t ht => ?_
  obtain ⟨rfl, rfl⟩ := ht
  refine Yields.via (fun pointer u => u = t ∧ pointerAt t.place.atom = .ok pointer) ?_
    fun pointer u hu => ?_
  · exact yields_ofExcept (fun _ h => ⟨rfl, h⟩) fun _ _ => Steady.stay hs.waiting
  obtain ⟨rfl, hpointer⟩ := hu
  refine Yields.via (fun _ v => v = u) ?_ fun wire v hv => ?_
  · exact yields_ofExcept (fun _ _ => rfl) fun _ _ => Steady.stay hs.waiting
  subst hv
  refine Yields.via (fun raw w => w = v ∧ pointer.wire.encode (.signed wire) = .ok raw) ?_
    fun raw w hw => ?_
  · exact yields_ofExcept (fun _ h => ⟨rfl, h⟩) fun _ _ => Steady.stay hs.waiting
  obtain ⟨rfl, hraw⟩ := hw
  have hst := Conserves.of_atom hs.shaped (accounts_repoint hpointer raw w.ledger)
  have hlaid : Everywhere LaidOut (w.place.atom.fill (.pointer raw) []) :=
    laidOut_rewire hs.laid hpointer hraw (fun _ h => nomatch h)
  refine Yields.via (fun _ x => x = { w with ledger := w.ledger.releaseAll w.place.atom.parts }) rfl
    fun _ x hx => ?_
  subst hx
  refine Yields.via (fun _ x => Steady w x ∧ x.Ready) (yields_setAtom ?_) fun _ x hx => ?_
  · exact ⟨.of_atom hst rfl, hs.of_atom hst.shaped hlaid rfl⟩
  · exact (tidies_finish hx.2).mono (fun _ _ h => ⟨hx.1.trans h.1, h.2⟩)
      fun _ _ h => ⟨hx.1.trans h.1, h.2⟩

/-! ## Updates -/

/-- If the edit succeeds, everything is in order. -/
def Tidying (s : Workplace κ) (m : EditM κ α) : Prop :=
  Yields m s (fun _ t => t.Tidy) fun _ _ => True

theorem tidying_of_reaches {m : EditM κ α} (h : Reaches Tidy s m) : Tidying s m :=
  h.mono (fun _ _ h => h.2) fun _ _ _ => trivial

/-- Everything is in order, seen from another place of the same tree. -/
theorem tidy_move (hs : s.Tidy) {p : Place κ} (h : p.root = s.place.root) :
    Tidy { s with place := p } := by
  have hwhole : whole { s with place := p } = s.whole := congrArg Place.atom h
  exact ⟨hwhole ▸ hs.shaped, hwhole ▸ hs.laid⟩

theorem tidying_atPart (hs : s.Tidy) (i : Nat) {m : EditM κ Unit}
    (hm : ∀ t : Workplace κ, t.Tidy → Tidying t m) : Tidying s (atPart i m) := by
  refine yields_atPart (fun _ => hs) fun p hdown => ?_
  refine (hm _ (tidy_move hs (Place.root_down? hdown))).mono (fun _ t ht => tidy_move ht ?_) fun _ _ h => h
  cases hup : t.place.up? with
  | none => rfl
  | some outer => exact Place.root_up? hup

theorem tidying_setFlag (hs : s.Tidy) {change : Info κ → Info κ}
    (hsite : (change s.place.atom.info).site = s.place.atom.info.site)
    (htail : (change s.place.atom.info).tail = s.place.atom.info.tail) :
    Tidying s (setAtom (s.place.atom.mapInfo change)) := by
  have hatom : Everywhere LaidOut s.place.atom := hs.laid.of_assemble
  have hst := Conserves.of_atom hs.shaped
    ((Accounts.refl (Everywhere.of_assemble hs.shaped)).mapInfo hsite : Accounts _ s.ledger _ s.ledger)
  refine yields_setAtom ⟨hst.shaped, (sameFooting_mapInfo hsite htail).laidOut_assemble ?_ hs.laid⟩
  exact hatom.laidOut_mapInfo hsite fun hbits => htail.trans (hatom.here.tail hbits)

/-- Storing a followed pointer's number again. -/
theorem tidying_refreshWire (env : Env κ) (hs : s.Tidy) : Tidying s (refreshWire env) := by
  refine (yields_place s).bind fun p t ht => ?_
  obtain ⟨rfl, rfl⟩ := ht
  refine Yields.via (fun raw? u => u = t ∧ refreshedWire env t.place = .ok raw?) ?_
    fun raw? u hu => ?_
  · exact yields_ofExcept (fun _ h => ⟨rfl, h⟩) fun _ _ => trivial
  obtain ⟨rfl, hraw⟩ := hu
  cases raw? with
  | none => exact Yields.pure hs
  | some raw =>
    obtain ⟨pointer, _, wire, hpointer, hreferent, -, hencode⟩ := of_refreshedWire hraw
    obtain ⟨⟨old, hcontent⟩, -⟩ := content_of_referent? hreferent
    dsimp only
    split
    · have hatom : Everywhere LaidOut u.place.atom := hs.laid.of_assemble
      have hst := Conserves.of_atom hs.shaped
        (accounts_rewire (Everywhere.of_assemble hs.shaped) hcontent raw u.ledger)
      have hnew := laidOut_rewire hatom hpointer hencode (everywhere_iff.1 hatom).2
      have hfooting := sameFooting_rewire hatom.here hcontent hpointer hencode
      refine Yields.via (fun _ v => v.Tidy) (yields_setAtom ?_) fun _ v hv => ?_
      · exact ⟨hst.shaped, hfooting.laidOut_assemble hnew hs.laid⟩
      · exact tidying_of_reaches
          (Reaches.bind (tidies_syncUnions hv) fun _ w _ hw => tidies_markDirty hw)
    · exact Yields.pure hs

theorem tidying_updateFields (env : Env κ) (fields : List (Field κ (Layout κ))) (index : Nat)
    {s : Workplace κ} (hs : s.Tidy) : Tidying s (updateFields env index fields) := by
  induction fields generalizing s index with
  | nil => exact Yields.pure hs
  | cons field fields ih =>
    have hrest (t : Workplace κ) (ht : t.Tidy) : Tidying t (updateFields env (index + 1) fields) :=
      ih (index + 1) ht
    rw [updateFields]
    refine (yields_place s).bind fun p t ht => ?_
    obtain ⟨rfl, rfl⟩ := ht
    dsimp only
    split
    · exact hrest t hs
    · split
      · refine Yields.via (fun _ u => u.Tidy) (yields_within _ ?_) fun _ => hrest
        refine Yields.via (fun _ u => u.Tidy) ?_ fun wanted u hu => ?_
        · exact yields_ofExcept (fun _ _ => hs) fun _ _ => trivial
        · split
          · exact tidying_atPart hu index fun v hv =>
              tidying_of_reaches (tidies_setValue env wanted hv.ready)
          · exact Yields.pure hu
      · exact hrest t hs

theorem tidying_alongSiblings {m : EditM κ Unit} (hm : ∀ s : Workplace κ, s.Tidy → Tidying s m)
    (count : Nat) {s : Workplace κ} (hs : s.Tidy) : Tidying s (alongSiblings m count) := by
  induction count generalizing s with
  | zero => exact Yields.pure hs
  | succ count ih =>
    rw [alongSiblings]
    refine (yields_place s).bind fun p t ht => ?_
    obtain ⟨rfl, rfl⟩ := ht
    refine Yields.via (fun _ u => u.Tidy) (yields_within _ (hm t hs)) fun _ u hu => ?_
    refine (yields_place u).bind fun p v hv => ?_
    obtain ⟨rfl, rfl⟩ := hv
    split
    · exact Yields.pure hu
    · rename_i q hnext
      have hroot : q.root = v.place.root := Place.root_next? hnext
      refine Yields.via (fun _ w => w.Tidy) (Yields.modified (tidy_move hu hroot)) fun _ w hw => ?_
      exact ih hw

theorem tidying_recalculateTo (env : Env κ) (depth : Nat) {s : Workplace κ} (hs : s.Tidy) :
    Tidying s (recalculateTo env depth) := by
  induction depth generalizing s with
  | zero => exact Yields.throw trivial
  | succ depth ih =>
    rw [recalculateTo]
    have hparts : Tidying s (eachPart (recalculateTo env depth)) := by
      refine (yields_atom s).bind fun a t ht => ?_
      obtain ⟨rfl, rfl⟩ := ht
      exact tidying_atPart hs 0 fun u hu => tidying_alongSiblings (fun v hv => ih hv) _ hu
    refine hparts.bind fun _ t ht => ?_
    refine (yields_atom t).bind fun a u hu => ?_
    obtain ⟨rfl, rfl⟩ := hu
    have hrest (v : Workplace κ) (hv : v.Tidy) : Tidying v (do
        refreshWire env
        setAtom ((← atom).mapInfo fun info => { info with dirty := false })) := by
      refine (tidying_refreshWire env hv).bind fun _ w hw => ?_
      refine (yields_atom w).bind fun a x hx => ?_
      obtain ⟨rfl, rfl⟩ := hx
      exact tidying_setFlag hw rfl rfl
    split
    · exact (tidying_updateFields env _ 0 ht).bind fun _ => hrest
    · exact hrest u ht

/-- Running the updates of an atom and everything below it. -/
theorem tidying_recalculate (env : Env κ) (hs : s.Tidy) : Tidying s (recalculate env) := by
  refine (yields_atom s).bind fun a t ht => ?_
  obtain ⟨rfl, rfl⟩ := ht
  exact tidying_recalculateTo env _ hs

end EditM

end BinaryLayout
