import BinaryLayout.Proofs.Handles.Surroundings
import BinaryLayout.Proofs.Naming.Load

/-!
# Declared parts while surroundings follow

A field whose layout a rule decides may get another layout when something before it changes, but it keeps its
name. Everything else that follows a change keeps name and layout.

## Main definitions

* `Refits`: what may become of a field.

## Main statements

* `conforms_followDependents`, `conforms_reflow`, `conforms_syncUnions`, `conforms_markDirty`: the steps after
  a change.
-/

namespace BinaryLayout

variable {κ : Type}

open Atom

section Surroundings

variable {env : Env κ} {f : Frame κ} {a b : Atom κ}

/-! ## Offsets -/

/-- Everything around an atom in order. -/
theorem conforms_reflow {p : Place κ} (hp : Everywhere Conforms p.root.atom) :
    Everywhere Conforms p.reflow.root.atom := by
  obtain ⟨a, frames⟩ := p
  show Everywhere Conforms (Place.reflowIn a frames).root.atom
  induction frames generalizing a with
  | nil => exact hp
  | cons f frames ih =>
    have hf : Everywhere Conforms (f.plug a) := Everywhere.of_assemble_cons hp
    have houter (outer : Atom κ) (h : outer.Suits f.info.label) : Everywhere Conforms
        (((Place.reflowIn outer frames).down? f.left.length).getD ⟨a, f :: frames⟩).root.atom := by
      have hback := ih outer (conforms_assemble_of (a := f.plug a) h.conforms hp h.label)
      cases hdown : (Place.reflowIn outer frames).down? f.left.length with
      | none => exact hp
      | some q =>
        rw [Option.getD_some, Place.root_down? hdown]
        exact hback
    rw [Place.reflowIn]
    cases f.content with
    | group =>
      refine houter _ ⟨?_, conforms_of_unplaced (unplaced_arranged _) hf⟩
      rw [arranged_eq, info_node, Frame.info_plug]
    | host pad => exact houter _ hf.suits.fixPad
    | overlay backing => exact houter _ hf.suits
    | empty | raw | pointer | bits => exact hp

/-! ## Dependent fields -/

/-- What may become of a field: it keeps its name, and a layout that no rule decides. -/
structure Refits (fixed : Prop) (a b : Atom κ) : Prop where
  name : b.info.name = a.info.name
  layout : fixed → b.info.layout = a.info.layout
  conforms : Everywhere Conforms b

theorem Refits.refl {fixed : Prop} (ha : Everywhere Conforms a) : Refits fixed a a := ⟨rfl, fun _ => rfl, ha⟩

/-- A field is still one after a rule decided its layout again. -/
theorem Refits.declares {name : String} {fields : List (Field κ (Layout κ))} {field : Field κ (Layout κ)}
    {i : Nat} (h : Refits (∃ given, field.layout = .given given) a b) (hfield : fields[i]? = some field)
    (ha : (AtomLayout.bytes (.record name fields)).Declares i a.info.label) :
    (AtomLayout.bytes (.record name fields)).Declares i b.info.label := by
  obtain ⟨own, hown, hname, hlayout⟩ := ha
  obtain rfl : field = own := Option.some.inj (hfield.symm.trans hown)
  exact ⟨field, hfield, h.name.trans hname, fun given hgiven =>
    (h.layout ⟨given, hgiven⟩).trans (hlayout given hgiven)⟩

theorem Refits.declaresBits {name : String} {fields : List (BitField κ (BitLayout κ))}
    {field : BitField κ (BitLayout κ)} {i : Nat} (h : Refits (∃ given, field.layout = .given given) a b)
    (hfield : fields[i]? = some field)
    (ha : (AtomLayout.bits (.record name fields)).Declares i a.info.label) :
    (AtomLayout.bits (.record name fields)).Declares i b.info.label := by
  obtain ⟨own, hown, hname, hlayout⟩ := ha
  obtain rfl : field = own := Option.some.inj (hfield.symm.trans hown)
  exact ⟨field, hfield, h.name.trans hname, fun given hgiven =>
    (h.layout ⟨given, hgiven⟩).trans (hlayout given hgiven)⟩

theorem suits_rebuild (frames : List (Frame κ)) (a : Atom κ) (layout : Layout κ) (l : Ledger κ) :
    Ends (rebuild env frames a layout) l fun out _ => out.atom.Suits (a.info.name, .bytes layout) := by
  have hlabel : (a.mapInfo fun info => { info with layout := .bytes layout }).info.label
      = (a.info.name, .bytes layout) := by
    rw [info_mapInfo]
    rfl
  have hload (data : Bytes) (origin : Nat) : Ends (LedgerM.fromBytes data origin
      (load env Layout.nestingLimit frames (a.mapInfo fun info => { info with layout := .bytes layout }))) l
        fun out _ => out.atom.Suits (a.info.name, .bytes layout) := by
    refine LedgerM.ends_fromBytes (hlabel ▸ suits_load env _ frames (.inr ⟨nestingLimit_pos, ?_⟩) _)
    rw [isBits, info_mapInfo]
    rfl
  rw [rebuild]
  refine (hload _ _).bind fun out m hout => ?_
  split
  · exact hout.label ▸ suits_allocate env _ frames (.inr nestingLimit_pos) m
  · exact Ends.pure hout

theorem refits_followField (frames : List (Frame κ)) (f : Frame κ) (field : Field κ (Layout κ))
    (ha : Everywhere Conforms a) (l : Ledger κ) :
    Ends (followField env frames f field a) l fun out _ =>
      Refits (∃ given, field.layout = .given given) a out.atom := by
  have hlayout : Ends (followLayout env frames f field a) l fun out _ =>
      Refits (∃ given, field.layout = .given given) a out.atom := by
    rw [followLayout]
    split
    · exact Ends.pure (.refl ha)
    · rename_i rule hrule
      split
      · exact Ends.pure (.refl ha)
      · refine (suits_rebuild _ a _ l).mono fun out _ hout =>
          ⟨congrArg Prod.fst hout.label, fun hgiven => ?_, hout.conforms⟩
        obtain ⟨given, hgiven⟩ := hgiven
        cases hrule.symm.trans hgiven
  rw [followField_eq]
  refine hlayout.bind fun out m hout => Ends.pure ?_
  rw [followExtent]
  split
  · exact hout
  · exact hout
  · split
    · exact hout
    · rename_i extent _
      have hsized : (out.atom.forceExtent env.config extent).Suits out.atom.info.label :=
        hout.conforms.suits.mapInfo rfl
      exact ⟨(congrArg Prod.fst hsized.label).trans hout.name, fun hgiven =>
        (congrArg Prod.snd hsized.label).trans (hout.layout hgiven), hsized.conforms⟩

theorem refits_followBitField (frames : List (Frame κ)) (f : Frame κ) (field : BitField κ (BitLayout κ))
    (ha : Everywhere Conforms a) (l : Ledger κ) :
    Ends (followBitField env frames f field a) l fun out _ =>
      Refits (∃ given, field.layout = .given given) a out.atom := by
  rw [followBitField]
  split
  · exact Ends.pure (.refl ha)
  · rename_i rule hrule
    split
    · exact Ends.pure (.refl ha)
    · rename_i layout _
      have hlabel : (a.mapInfo fun info => { info with layout := .bits layout }).info.label
          = (a.info.name, .bits layout) := by
        rw [info_mapInfo]
        rfl
      refine (suits_allocateBits env _ (f :: frames)
        (a := a.mapInfo fun info => { info with layout := .bits layout })
        (.inr ⟨nestingLimit_pos, ?_⟩) l).mono fun out _ hout =>
          ⟨congrArg Prod.fst (hout.label.trans hlabel), fun hgiven => ?_, hout.conforms⟩
      · rw [isBits, info_mapInfo]
        rfl
      · obtain ⟨given, hgiven⟩ := hgiven
        cases hrule.symm.trans hgiven

/-- Fields of a record one after another. -/
theorem lists_followFields {φ : Type} (name : φ → String)
    {follow : Frame κ → φ → Atom κ → LedgerM κ (Outcome κ)} {fixed : φ → Prop} {layout : AtomLayout κ}
    {all : List φ}
    (hfollow : ∀ f field (a : Atom κ) l, Everywhere Conforms a →
      Ends (follow f field a) l fun out _ => Refits (fixed field) a out.atom)
    (hdeclares : ∀ i field (a b : Atom κ), all[i]? = some field → Refits (fixed field) a b →
      layout.Declares i a.info.label → layout.Declares i b.info.label)
    (info : Info κ) (content : Content) (left right : List (Atom κ)) (fields : List φ)
    (hfields : all.drop left.length = fields) (hlists : layout.Lists left.length right)
    (hright : ∀ a ∈ right, Everywhere Conforms a) (l : Ledger κ) :
    Ends (followFields name follow info content left right fields) l fun out _ =>
      layout.Lists left.length out.parts ∧ ∀ a ∈ out.parts, Everywhere Conforms a := by
  induction right generalizing left fields l with
  | nil => exact Ends.pure ⟨hlists, hright⟩
  | cons a right ih =>
    cases fields with
    | nil => exact Ends.pure ⟨hlists, hright⟩
    | cons field fields =>
      obtain ⟨hfield, hrest⟩ := next_of_drop hfields
      obtain ⟨ha, hlater⟩ := hlists
      rw [List.forall_mem_cons] at hright
      rw [followFields]
      refine (hfollow _ field a l hright.1).bind fun out m hout => ?_
      have hlabel := hdeclares _ _ _ _ hfield hout ha
      split
      · exact Ends.pure ⟨⟨hlabel, hlater⟩, List.forall_mem_cons.2 ⟨hout.conforms, hright.2⟩⟩
      · refine (ih (out.atom :: left) fields hrest hlater hright.2 m).bind fun later n hdone => ?_
        exact Ends.pure ⟨⟨hlabel, hdone.1⟩, List.forall_mem_cons.2 ⟨hout.conforms, hdone.2⟩⟩

/-- The fields after the one in the gap, laid out anew. -/
theorem conforms_followGap (frames : List (Frame κ)) (hf : Everywhere Conforms (f.plug a)) (l : Ledger κ) :
    Ends (followGap env frames f a) l fun out _ =>
      Everywhere Conforms (Frame.plug { f with right := out.parts } a) := by
  obtain ⟨hhere, hleft, ha, hright⟩ := everywhere_plug.1 hf
  rw [conforms_plug] at hhere
  have hafter {parts : List (Atom κ)} (hlists : f.info.layout.Lists (f.left.length + 1) parts
      ∧ ∀ part ∈ parts, Everywhere Conforms part) :
      Everywhere Conforms (Frame.plug { f with right := parts } a) :=
    everywhere_plug.2 ⟨conforms_plug.2 ⟨hhere.1, hhere.2.1, hlists.1⟩, hleft, ha, hlists.2⟩
  rw [followGap]
  split
  · rename_i name fields _ hlayout
    refine (lists_followFields Field.name
      (fun f field a l ha => refits_followField frames f field ha l) (fun i field a b hfield h ha => ?_)
      f.info .group (a :: f.left) f.right _ rfl hhere.2.2 hright l).mono fun _ _ h => hafter h
    rw [hlayout] at ha ⊢
    exact h.declares hfield ha
  · rename_i name fields _ hlayout
    refine (lists_followFields BitField.name
      (fun f field a l ha => refits_followBitField frames f field ha l) (fun i field a b hfield h ha => ?_)
      f.info .group (a :: f.left) f.right _ rfl hhere.2.2 hright l).mono fun _ _ h => hafter h
    rw [hlayout] at ha ⊢
    exact h.declaresBits hfield ha
  · exact Ends.pure hf

/-- The dependent fields around an atom. -/
theorem conforms_followDependents (a : Atom κ) (frames : List (Frame κ))
    (h : Everywhere Conforms (Place.assemble a frames)) (l : Ledger κ) :
    Ends (followDependents env a frames) l fun out _ =>
      Everywhere Conforms (Place.assemble a out.frames) := by
  induction frames generalizing a l with
  | nil => exact Ends.pure h
  | cons f frames ih =>
    rw [followDependents]
    split
    · exact Ends.pure h
    · refine (conforms_followGap frames (Everywhere.of_assemble_cons h) l).bind fun out m hout => ?_
      have hwhole : Everywhere Conforms
          (Place.assemble (Frame.plug { f with right := out.parts } a) frames) :=
        conforms_assemble_of (a := f.plug a) hout h rfl
      dsimp only
      split
      · exact Ends.pure hwhole
      · exact (ih _ hwhole m).bind fun outer n houter => Ends.pure houter

/-! ## Unions and dirt -/

/-- The members of a union, loaded anew but for one. -/
theorem lists_reloadMembers (frames : List (Frame κ)) (info : Info κ) (backing : Bytes) (kept : Nat)
    (left as : List (Atom κ)) (has : ∀ a ∈ as, Everywhere Conforms a) (l : Ledger κ) :
    Ends (reloadMembers env frames info backing kept left as) l fun out _ =>
      out.parts.map (fun b => b.info.label) = as.map (fun a => a.info.label)
        ∧ ∀ a ∈ out.parts, Everywhere Conforms a := by
  induction as generalizing left l with
  | nil => exact Ends.pure ⟨rfl, has⟩
  | cons a as ih =>
    rw [List.forall_mem_cons] at has
    have hmember : Ends (reloadMember env frames ⟨info, .overlay backing, left, as⟩ backing kept a) l
        fun out _ => out.atom.Suits a.info.label := by
      rw [reloadMember]
      split
      · exact Ends.pure has.1.suits
      · exact LedgerM.ends_fromBytes (suits_load env _ _ (.inl has.1) _)
    rw [reloadMembers_cons]
    refine hmember.bind fun out m hout => ?_
    split
    · exact Ends.pure ⟨by rw [List.map_cons, hout.label, List.map_cons],
        List.forall_mem_cons.2 ⟨hout.conforms, has.2⟩⟩
    · refine (ih (out.atom :: left) has.2 m).bind fun later n hlater => ?_
      exact Ends.pure ⟨by rw [List.map_cons, hout.label, hlater.1, List.map_cons],
        List.forall_mem_cons.2 ⟨hout.conforms, hlater.2⟩⟩

/-- The unions around an atom. -/
theorem conforms_syncUnions (a : Atom κ) (frames : List (Frame κ))
    (h : Everywhere Conforms (Place.assemble a frames)) (l : Ledger κ) :
    Ends (syncUnions env a frames) l fun out _ => Everywhere Conforms (Place.assemble a out.frames) := by
  induction frames generalizing a l with
  | nil => exact Ends.pure h
  | cons f frames ih =>
    have hf : Everywhere Conforms (f.plug a) := Everywhere.of_assemble_cons h
    rw [syncUnions]
    split
    · exact Ends.pure h
    · rename_i backing _
      dsimp only
      refine ((lists_reloadMembers _ _ _ _ _ _ (everywhere_iff.1 hf).2 l).and
        (kept_reloadMembers _ _ _ _ _ _ l)).bind fun out m hout => ?_
      have hkept : out.parts[f.left.length]? = some a := by
        rw [hout.2 f.left.length (Nat.zero_add _)]
        simp
      have hunion (bytes : Bytes) : Everywhere Conforms
          (Frame.plug ⟨f.info, .overlay bytes, (out.parts.take f.left.length).reverse,
            out.parts.drop (f.left.length + 1)⟩ a) := by
        refine everywhere_iff.2 ⟨hf.here.of_labels rfl ?_, ?_⟩
        · rw [Frame.parts_around hkept, hout.1.1]
        · rw [Frame.parts_around hkept]
          exact hout.1.2
      have hwhole := conforms_assemble_of (a := f.plug a)
        (hunion (overwrite (Place.serialize ⟨a, f :: frames⟩ env.config.bitOrder) backing)) h rfl
      split
      · exact Ends.pure hwhole
      · exact (ih _ hwhole m).bind fun outer n houter => Ends.pure houter
    · exact (ih _ h l).bind fun outer n houter => Ends.pure houter

/-- The enclosing atoms are dirty. -/
theorem conforms_markDirty {a : Atom κ} {frames : List (Frame κ)}
    (h : Everywhere Conforms (Place.assemble a frames)) :
    Everywhere Conforms (Place.assemble a (markDirty frames)) := by
  induction frames generalizing a with
  | nil => exact h
  | cons f frames ih =>
    rw [markDirty]
    split
    · exact h
    · have hdirty : (Frame.plug { f with info := { f.info with dirty := true } } a).Suits f.info.label :=
        show ((f.plug a).mapInfo fun info => { info with dirty := true }).Suits f.info.label from
          (Everywhere.of_assemble_cons h).suits.mapInfo rfl
      exact ih (conforms_assemble_of (a := f.plug a) hdirty.conforms h hdirty.label)

end Surroundings

end BinaryLayout
