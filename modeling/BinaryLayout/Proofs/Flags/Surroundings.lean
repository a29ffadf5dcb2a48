import BinaryLayout.Proofs.Flags.Load

/-!
# Flags while surroundings follow

What surrounds a changed atom is laid out anew, moved and loaded again as far out as what a pointer
refers to. No null pointer refers to any of the atoms that are made anew on the way, because they are
parts of records and of unions, and every enclosing atom goes on to be what a null pointer refers to, or
not.

## Main definitions

* `Frame.link`, `Frame.links`: what the atoms around a gap have to do with pointers.

## Main statements

* `flagged_assemble_of`: an atom replaced in its surroundings.
* `flagged_followDependents`, `flagged_reflow`, `flagged_syncUnions`, `flagged_markDirty`: the steps after a
  change.
-/

namespace BinaryLayout

variable {κ : Type}

open Atom

/-- Whether a null pointer refers to the atom around a gap, and whether it is a pointer itself. -/
def Frame.link (f : Frame κ) : Bool × Bool := (f.info.null, f.isPointer)

/-- What the atoms around a gap have to do with pointers, the innermost first. -/
def Frame.links (frames : List (Frame κ)) : List (Bool × Bool) := frames.map Frame.link

section Flags

variable {w : Leeway} {f : Frame κ} {a b : Atom κ}

/-! ## Atoms replaced -/

/-- A part of an atom that is no pointer. -/
theorem null_of_plug (h : (f.plug a).Flagged w) (hpointer : ∀ wire, f.content ≠ .pointer wire) :
    (∀ part ∈ f.left, part.info.null = false) ∧ a.info.null = false
      ∧ ∀ part ∈ f.right, part.info.null = false := by
  have hparts := h.parts hpointer
  rw [Frame.parts_plug] at hparts
  simp only [List.forall_mem_append, List.forall_mem_cons, List.mem_reverse] at hparts
  exact hparts

/-- A part replaced by one that a null pointer refers to exactly if it did before. -/
theorem flagged_plug_of (hnull : b.info.null = a.info.null) (h : (f.plug a).Flagged w) :
    (f.plug b).Flagged w := by
  refine ⟨h.marked, h.unmarked, h.null, fun hpointer => ?_⟩
  obtain ⟨hleft, ha, hright⟩ := null_of_plug h hpointer
  rw [Frame.parts_plug]
  simp only [List.forall_mem_append, List.forall_mem_cons, List.mem_reverse]
  exact ⟨hleft, hnull.trans ha, hright⟩

/-- An atom replaced in its surroundings. -/
theorem flagged_assemble_of {frames : List (Frame κ)} (hb : Everywhere (Flagged w) b)
    (h : Everywhere (Flagged w) (Place.assemble a frames)) (hnull : b.info.null = a.info.null) :
    Everywhere (Flagged w) (Place.assemble b frames) :=
  everywhere_assemble_of (R := fun a b => b.info.null = a.info.null)
    (fun _ _ _ hxy hx => ⟨flagged_plug_of hxy hx, rfl⟩) hnull hb h

/-! ## Offsets -/

theorem flagged_unplaced (a : Atom κ) : a.unplaced.Flagged w ↔ a.Flagged w := by
  have hparts : (∀ part ∈ a.unplaced.parts, part.info.null = false)
      ↔ ∀ part ∈ a.parts, part.info.null = false := by
    rw [parts_unplaced, List.forall_mem_map]
    simp only [info_unplaced]
  constructor
  · intro h
    refine ⟨?_, ?_, ?_, fun hpointer => hparts.1 (h.parts fun wire => ?_)⟩
    · simpa only [info_unplaced, content_unplaced] using h.marked
    · simpa only [info_unplaced, content_unplaced] using h.unmarked
    · simpa only [info_unplaced, content_unplaced] using h.null
    · rw [content_unplaced]
      exact hpointer wire
  · intro h
    refine ⟨?_, ?_, ?_, fun hpointer => hparts.2 (h.parts fun wire => ?_)⟩
    · simpa only [info_unplaced, content_unplaced] using h.marked
    · simpa only [info_unplaced, content_unplaced] using h.unmarked
    · simpa only [info_unplaced, content_unplaced] using h.null
    · rw [← content_unplaced]
      exact hpointer wire

/-- Moving atoms does not matter. -/
theorem flagged_of_unplaced (h : b.unplaced = a.unplaced) (ha : Everywhere (Flagged w) a) :
    Everywhere (Flagged w) b := by
  rw [← everywhere_unplaced flagged_unplaced, h, everywhere_unplaced flagged_unplaced]
  exact ha

theorem null_of_unplaced (h : b.unplaced = a.unplaced) : b.info.null = a.info.null := by
  have hinfo := congrArg (fun a => a.info.null) h
  simpa only [info_unplaced] using hinfo

theorem Frame.links_of_unplaced {fs gs : List (Frame κ)} (h : fs.map Frame.unplaced = gs.map Frame.unplaced) :
    Frame.links fs = Frame.links gs := by
  have hlink (f : Frame κ) : f.unplaced.link = f.link := by
    obtain ⟨info, content, left, right⟩ := f
    cases content <;> rfl
  have hlinks := congrArg (List.map Frame.link) h
  rwa [List.map_map, List.map_map, show Frame.link ∘ Frame.unplaced = Frame.link from funext hlink] at hlinks

/-- Everything around an atom in order. -/
theorem flagged_reflow {p : Place κ} (hp : Everywhere (Flagged w) p.root.atom) :
    Everywhere (Flagged w) p.reflow.root.atom ∧ p.reflow.atom.info.null = p.atom.info.null
      ∧ Frame.links p.reflow.frames = Frame.links p.frames := by
  refine ⟨?_, ?_⟩
  · obtain ⟨a, frames⟩ := p
    show Everywhere (Flagged w) (Place.reflowIn a frames).root.atom
    induction frames generalizing a with
    | nil => exact hp
    | cons f frames ih =>
      have hf : Everywhere (Flagged w) (f.plug a) := Everywhere.of_assemble_cons hp
      have houter (outer : Atom κ) (hnull : outer.info.null = f.info.null)
          (h : Everywhere (Flagged w) outer) : Everywhere (Flagged w)
            (((Place.reflowIn outer frames).down? f.left.length).getD ⟨a, f :: frames⟩).root.atom := by
        have hback := ih outer (flagged_assemble_of (a := f.plug a) h hp hnull)
        cases hdown : (Place.reflowIn outer frames).down? f.left.length with
        | none => exact hp
        | some q =>
          rw [Option.getD_some, Place.root_down? hdown]
          exact hback
      rw [Place.reflowIn]
      cases f.content with
      | group =>
        have hsame := unplaced_arranged (f.plug a)
        exact houter _ (null_of_unplaced hsame) (flagged_of_unplaced hsame hf)
      | host pad => exact houter _ (by rw [info_fixPad, Frame.info_plug]) (Flagged.fixPad hf)
      | overlay backing => exact houter _ rfl hf
      | empty | raw | pointer | bits => exact hp
  · obtain ⟨hatom, hframes⟩ := p.unplaced_reflow
    exact ⟨null_of_unplaced hatom, Frame.links_of_unplaced hframes⟩

/-! ## Dependent fields -/

section Fields

variable {env : Env κ}

theorem truthful_rebuild (frames : List (Frame κ)) (hnull : a.info.null = false) (layout : Layout κ)
    (l : Ledger κ) :
    Ends (rebuild env frames a layout) l fun out _ => out.atom.Truthful w false := by
  rw [rebuild]
  have hload (data : Bytes) (origin : Nat) : Ends (LedgerM.fromBytes data origin
      (load env Layout.nestingLimit frames (a.mapInfo fun info => { info with layout := .bytes layout }))) l
        fun out _ => out.atom.Truthful w false := by
    refine LedgerM.ends_fromBytes (truthful_load env _ frames ?_ (.inr ⟨nestingLimit_pos, ?_⟩) _)
    · rw [info_mapInfo]
      exact hnull
    · rw [isBits, info_mapInfo]
      rfl
  refine (hload _ _).bind fun out m hout => ?_
  split
  · refine (truthful_allocate env _ frames (w := w) (fun h => ?_) (.inr nestingLimit_pos) m).mono
      fun _ _ h => hout.null ▸ h
    cases hout.null.symm.trans h
  · exact Ends.pure hout

theorem truthful_followField (frames : List (Frame κ)) (f : Frame κ) (field : Field κ (Layout κ))
    (ha : a.Truthful w false) (l : Ledger κ) :
    Ends (followField env frames f field a) l fun out _ => out.atom.Truthful w false := by
  have hlayout : Ends (followLayout env frames f field a) l fun out _ => out.atom.Truthful w false := by
    rw [followLayout]
    split
    · exact Ends.pure ha
    · split
      · exact Ends.pure ha
      · exact truthful_rebuild _ ha.null _ l
  rw [followField_eq]
  refine hlayout.bind fun out m hout => Ends.pure ?_
  rw [followExtent]
  split
  · exact hout
  · exact hout
  · split
    · exact hout
    · exact hout.forceExtent (fun h => by cases h) _ _

theorem truthful_followBitField (frames : List (Frame κ)) (f : Frame κ) (field : BitField κ (BitLayout κ))
    (ha : a.Truthful w false) (l : Ledger κ) :
    Ends (followBitField env frames f field a) l fun out _ => out.atom.Truthful w false := by
  rw [followBitField]
  split
  · exact Ends.pure ha
  · split
    · exact Ends.pure ha
    · rename_i layout _
      have hnull : (a.mapInfo fun info => { info with layout := .bits layout }).info.null = false := by
        rw [info_mapInfo]
        exact ha.null
      refine (truthful_allocateBits env _ (f :: frames) (w := w) (fun h => ?_)
        (.inr ⟨nestingLimit_pos, ?_⟩) l).mono fun _ _ h => hnull ▸ h
      · cases hnull.symm.trans h
      · rw [isBits, info_mapInfo]
        rfl

/-- Fields of a record one after another. -/
theorem truthful_followFields {φ : Type} (name : φ → String)
    {follow : Frame κ → φ → Atom κ → LedgerM κ (Outcome κ)}
    (hfollow : ∀ f field (a : Atom κ) l, a.Truthful w false →
      Ends (follow f field a) l fun out _ => out.atom.Truthful w false)
    (info : Info κ) (content : Content) (left right : List (Atom κ)) (fields : List φ)
    (hright : ∀ a ∈ right, a.Truthful w false) (l : Ledger κ) :
    Ends (followFields name follow info content left right fields) l fun out _ =>
      ∀ a ∈ out.parts, a.Truthful w false := by
  induction right generalizing left fields l with
  | nil => exact Ends.pure hright
  | cons a right ih =>
    cases fields with
    | nil => exact Ends.pure hright
    | cons field fields =>
      rw [List.forall_mem_cons] at hright
      rw [followFields]
      refine (hfollow _ field a l hright.1).bind fun out m hout => ?_
      split
      · exact Ends.pure (List.forall_mem_cons.2 ⟨hout, hright.2⟩)
      · refine (ih (out.atom :: left) fields hright.2 m).bind fun later n hlater => ?_
        exact Ends.pure (List.forall_mem_cons.2 ⟨hout, hlater⟩)

/-- The fields after the one in the gap, laid out anew. -/
theorem flagged_followGap (frames : List (Frame κ)) (hf : Everywhere (Flagged w) (f.plug a))
    (l : Ledger κ) :
    Ends (followGap env frames f a) l fun out _ =>
      Everywhere (Flagged w) (Frame.plug { f with right := out.parts } a) := by
  obtain ⟨hhere, hleft, ha, hright⟩ := everywhere_plug.1 hf
  have hnulls (hgroup : f.content = .group) := null_of_plug hhere fun wire h => by cases hgroup.symm.trans h
  have hparts (hgroup : f.content = .group) : ∀ part ∈ f.right, part.Truthful w false :=
    fun part hpart => ⟨(hnulls hgroup).2.2 part hpart, hright part hpart⟩
  have hafter (hgroup : f.content = .group) {parts : List (Atom κ)}
      (h : ∀ part ∈ parts, part.Truthful w false) :
      Everywhere (Flagged w) (Frame.plug { f with right := parts } a) := by
    obtain ⟨hleftnull, hnull, -⟩ := hnulls hgroup
    refine everywhere_plug.2 ⟨hhere.refill rfl rfl (fun raw h => ?_) fun _ => ?_, hleft, ha,
      fun part hpart => (h part hpart).flags⟩
    · cases hgroup.symm.trans h
    · rw [Frame.parts_plug]
      simp only [List.forall_mem_append, List.forall_mem_cons, List.mem_reverse]
      exact ⟨hleftnull, hnull, fun part hpart => (h part hpart).null⟩
  rw [followGap]
  split
  · rename_i hgroup _
    exact (truthful_followFields Field.name (fun f field a l ha => truthful_followField frames f field ha l)
      f.info .group _ _ _ (hparts hgroup) l).mono fun _ _ h => hafter hgroup h
  · rename_i hgroup _
    exact (truthful_followFields BitField.name
      (fun f field a l ha => truthful_followBitField frames f field ha l) f.info .group _ _ _
      (hparts hgroup) l).mono fun _ _ h => hafter hgroup h
  · exact Ends.pure hf

/-- The dependent fields around an atom. -/
theorem flagged_followDependents (a : Atom κ) (frames : List (Frame κ))
    (h : Everywhere (Flagged w) (Place.assemble a frames)) (l : Ledger κ) :
    Ends (followDependents env a frames) l fun out _ =>
      Everywhere (Flagged w) (Place.assemble a out.frames) ∧ Frame.links out.frames = Frame.links frames := by
  induction frames generalizing a l with
  | nil => exact Ends.pure ⟨h, rfl⟩
  | cons f frames ih =>
    rw [followDependents]
    split
    · exact Ends.pure ⟨h, rfl⟩
    · refine (flagged_followGap frames (Everywhere.of_assemble_cons h) l).bind fun out m hout => ?_
      have hwhole : Everywhere (Flagged w)
          (Place.assemble (Frame.plug { f with right := out.parts } a) frames) :=
        flagged_assemble_of (a := f.plug a) hout h rfl
      dsimp only
      split
      · exact Ends.pure ⟨hwhole, rfl⟩
      · refine (ih _ hwhole m).bind fun outer n houter => ?_
        exact Ends.pure ⟨houter.1, congrArg (f.link :: ·) houter.2⟩

/-! ## Unions and dirt -/

/-- The members of a union, loaded anew but for one. -/
theorem truthful_reloadMembers (frames : List (Frame κ)) (info : Info κ) (backing : Bytes) (kept : Nat)
    (left as : List (Atom κ)) (has : ∀ a ∈ as, a.Truthful w false) (l : Ledger κ) :
    Ends (reloadMembers env frames info backing kept left as) l fun out _ =>
      ∀ a ∈ out.parts, a.Truthful w false := by
  induction as generalizing left l with
  | nil => exact Ends.pure has
  | cons a as ih =>
    rw [List.forall_mem_cons] at has
    have hmember : Ends (reloadMember env frames ⟨info, .overlay backing, left, as⟩ backing kept a) l
        fun out _ => out.atom.Truthful w false := by
      rw [reloadMember]
      split
      · exact Ends.pure has.1
      · exact LedgerM.ends_fromBytes (truthful_load env _ _ has.1.null (.inl has.1) _)
    rw [reloadMembers_cons]
    refine hmember.bind fun out m hout => ?_
    split
    · exact Ends.pure (List.forall_mem_cons.2 ⟨hout, has.2⟩)
    · refine (ih (out.atom :: left) has.2 m).bind fun later n hlater => ?_
      exact Ends.pure (List.forall_mem_cons.2 ⟨hout, hlater⟩)

/-- The unions around an atom. -/
theorem flagged_syncUnions (a : Atom κ) (frames : List (Frame κ))
    (h : Everywhere (Flagged w) (Place.assemble a frames)) (l : Ledger κ) :
    Ends (syncUnions env a frames) l fun out _ =>
      Everywhere (Flagged w) (Place.assemble a out.frames) ∧ Frame.links out.frames = Frame.links frames := by
  induction frames generalizing a l with
  | nil => exact Ends.pure ⟨h, rfl⟩
  | cons f frames ih =>
    have hf : Everywhere (Flagged w) (f.plug a) := Everywhere.of_assemble_cons h
    rw [syncUnions]
    split
    · exact Ends.pure ⟨h, rfl⟩
    · rename_i backing hcontent
      have hpointer (wire : Bytes) : f.content ≠ .pointer wire := by
        rw [hcontent]
        exact fun h => by cases h
      have hparts : ∀ part ∈ (f.plug a).parts, part.Truthful w false := fun part hpart =>
        ⟨hf.here.parts hpointer part hpart, hf.part hpart⟩
      dsimp only
      refine ((truthful_reloadMembers _ _ _ _ _ _ hparts l).and
        (kept_reloadMembers _ _ _ _ _ _ l)).bind fun out m hout => ?_
      have hkept : out.parts[f.left.length]? = some a := by
        rw [hout.2 f.left.length (Nat.zero_add _)]
        simp
      have hunion (bytes : Bytes) : Everywhere (Flagged w)
          (Frame.plug ⟨f.info, .overlay bytes, (out.parts.take f.left.length).reverse,
            out.parts.drop (f.left.length + 1)⟩ a) := by
        refine everywhere_iff.2 ⟨hf.here.refill rfl ?_ (fun raw hraw => ?_) fun _ => ?_, ?_⟩
        · rw [Frame.content_plug, Frame.content_plug, hcontent]
          rfl
        · rw [Frame.content_plug, hcontent] at hraw
          cases hraw
        · rw [Frame.parts_around hkept]
          exact fun part hpart => (hout.1 part hpart).null
        · rw [Frame.parts_around hkept]
          exact fun part hpart => (hout.1 part hpart).flags
      have hlink (bytes : Bytes) (left right : List (Atom κ)) :
          Frame.link ⟨f.info, .overlay bytes, left, right⟩ = f.link := by
        rw [Frame.link, Frame.link, Frame.isPointer, Frame.isPointer, hcontent]
      have hwhole := flagged_assemble_of (a := f.plug a)
        (hunion (overwrite (Place.serialize ⟨a, f :: frames⟩ env.config.bitOrder) backing)) h rfl
      split
      · exact Ends.pure ⟨hwhole, congrArg (· :: Frame.links frames) (hlink ..)⟩
      · refine (ih _ hwhole m).bind fun outer n houter => ?_
        exact Ends.pure ⟨houter.1, congrArg₂ List.cons (hlink ..) houter.2⟩
    · refine (ih _ h l).bind fun outer n houter => ?_
      exact Ends.pure ⟨houter.1, congrArg (f.link :: ·) houter.2⟩

theorem flagged_markDirty {frames : List (Frame κ)} (h : Everywhere (Flagged w) (Place.assemble a frames)) :
    Everywhere (Flagged w) (Place.assemble a (markDirty frames))
      ∧ Frame.links (markDirty frames) = Frame.links frames := by
  induction frames generalizing a with
  | nil => exact ⟨h, rfl⟩
  | cons f frames ih =>
    have hf : (f.plug a).Truthful w f.info.null := ⟨rfl, Everywhere.of_assemble_cons h⟩
    have hdirty : ((f.plug a).mapInfo fun info => { info with dirty := true }).Truthful w f.info.null :=
      hf.mapInfo rfl rfl rfl fun _ => .inr ⟨rfl, rfl⟩
    rw [markDirty]
    split
    · exact ⟨h, rfl⟩
    · obtain ⟨hwhole, hlinks⟩ := ih (flagged_assemble_of (a := f.plug a) hdirty.flags h rfl)
      exact ⟨hwhole, congrArg (f.link :: ·) hlinks⟩

end Fields

end Flags

end BinaryLayout
