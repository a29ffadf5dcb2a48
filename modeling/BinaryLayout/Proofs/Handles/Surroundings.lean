import BinaryLayout.Proofs.Edit.Rules
import BinaryLayout.Proofs.Handles.Load
import BinaryLayout.Proofs.Tree.Outline

/-!
# Handles while surroundings follow

What surrounds a changed atom follows it: fields are laid out anew, parts move, members of unions
are loaded again, and atoms become dirty. None of this loses or doubles a handle, and the outermost
atom keeps its site.

## Main definitions

* `Becomes`, `BecomeAll`: an atom, or a list of parts, that was replaced by what it became.

## Main statements

* `Accounts.assemble`: an atom replaced in its surroundings.
* `accounts_followDependents`, `accounts_reflow`, `accounts_syncUnions`, `accounts_markDirty`.
-/

namespace BinaryLayout

variable {κ : Type}

open Atom

/-- The atom `b` with the ledger `m` came out of the atom `a` with the ledger `l`, perhaps under
another layout or at another offset. -/
structure Becomes (a : Atom κ) (l : Ledger κ) (b : Atom κ) (m : Ledger κ) : Prop where
  isBits : b.isBits = a.isBits
  shaped : Everywhere Shaped b
  balance : ∀ h, b.tally h + m.balance h = a.tally h + l.balance h

/-- Each of the atoms `bs` came out of the one of `as` in its place. -/
structure BecomeAll (as : List (Atom κ)) (l : Ledger κ) (bs : List (Atom κ)) (m : Ledger κ) :
    Prop where
  isBits : bs.map isBits = as.map isBits
  shaped : ∀ b ∈ bs, Everywhere Shaped b
  balance : ∀ h, tallies h bs + m.balance h = tallies h as + l.balance h

theorem Accounts.becomes {a b : Atom κ} {l m : Ledger κ} (h : Accounts a l b m) : Becomes a l b m :=
  ⟨h.isBits, h.shaped, h.balance⟩

theorem Becomes.forceExtent {a b : Atom κ} {l m : Ledger κ} (h : Becomes a l b m)
    (config : Config) (extent : Nat) : Becomes a l (b.forceExtent config extent) m := by
  have hsized := (Accounts.refl (l := m) h.shaped).forceExtent config extent
  exact ⟨hsized.isBits.trans h.isBits, hsized.shaped, fun x => (hsized.balance x).trans (h.balance x)⟩

namespace BecomeAll

variable {a b : Atom κ} {as bs : List (Atom κ)} {l m n : Ledger κ}

theorem refl (h : ∀ a ∈ as, Everywhere Shaped a) : BecomeAll as l as l := ⟨rfl, h, fun _ => rfl⟩

/-- One atom and then the ones after it. -/
theorem cons (ha : Becomes a l b m) (has : BecomeAll as m bs n) :
    BecomeAll (a :: as) l (b :: bs) n := by
  refine ⟨by simp [ha.isBits, has.isBits], ?_, fun h => ?_⟩
  · rintro c (_ | ⟨_, hc⟩)
    · exact ha.shaped
    · exact has.shaped c hc
  · have hone := ha.balance h
    have hall := has.balance h
    simp only [tallies]
    omega

/-- Atoms after some that stay. -/
theorem after {left : List (Atom κ)} (hleft : ∀ a ∈ left, Everywhere Shaped a)
    (has : BecomeAll as l bs m) : BecomeAll (left ++ as) l (left ++ bs) m := by
  induction left with
  | nil => exact has
  | cons a left ih =>
    rw [List.forall_mem_cons] at hleft
    exact .cons (Accounts.refl hleft.1).becomes (ih hleft.2)

end BecomeAll

/-- An atom whose parts were replaced. -/
theorem Accounts.of_parts {a b : Atom κ} {l m : Ledger κ} (hsite : b.info.site = a.info.site)
    (ha : a.Shaped) (hadmits : a.info.layout.admits b.content = a.info.layout.admits a.content)
    (hholds : a.content.Holds a.isBits b.parts → b.content.Holds a.isBits b.parts)
    (hparts : BecomeAll a.parts l b.parts m) : Accounts a l b m := by
  refine ⟨hsite, everywhere_iff.2 ⟨⟨?_, ?_⟩, hparts.shaped⟩, fun h => ?_⟩
  · rw [Info.layout_of_site hsite, hadmits, ha.admits]
  · rw [isBits_of_site hsite]
    exact hholds (ha.holds.of_isBits hparts.isBits)
  · have hbalance := hparts.balance h
    rw [tally_eq, tally_eq, Info.id_of_site hsite]
    omega

/-- An atom replaced in its surroundings. -/
theorem Accounts.assemble {a b : Atom κ} {l m : Ledger κ} (h : Accounts a l b m)
    {frames : List (Frame κ)} (hw : Everywhere Shaped (Place.assemble a frames)) :
    Accounts (Place.assemble a frames) l (Place.assemble b frames) m := by
  refine ⟨Place.site_assemble_of h.site frames, shaped_assemble_of h.isBits.symm h.shaped hw,
    fun x => ?_⟩
  have hbalance := h.balance x
  rw [Place.tally_assemble, Place.tally_assemble]
  omega

/-! ## Offsets -/

mutual

@[simp] theorem Atom.tally_unplaced (h : Nat) : ∀ a : Atom κ, a.unplaced.tally h = a.tally h
  | .node info content parts => by
    rw [unplaced]
    simp only [tally, tallies_unplacedAll h parts]

@[simp] theorem Atom.tallies_unplacedAll (h : Nat) : ∀ as : List (Atom κ),
    tallies h (unplacedAll as) = tallies h as
  | [] => rfl
  | a :: as => by simp only [unplacedAll, tallies, tally_unplaced h a, tallies_unplacedAll h as]

end

/-- An atom with its parts in order. -/
theorem accounts_arranged {a : Atom κ} (ha : Everywhere Shaped a) (l : Ledger κ) :
    Accounts a l a.arranged l := by
  refine ⟨by rw [arranged_eq, info_node], ?_, fun h => ?_⟩
  · rwa [← everywhere_shaped_unplaced, unplaced_arranged, everywhere_shaped_unplaced]
  · rw [← tally_unplaced, unplaced_arranged, tally_unplaced]

/-- Everything around an atom in order. -/
theorem accounts_reflow {p : Place κ} (hp : Everywhere Shaped p.root.atom) (l : Ledger κ) :
    Accounts p.root.atom l p.reflow.root.atom l := by
  obtain ⟨a, frames⟩ := p
  induction frames generalizing a with
  | nil => exact .refl hp
  | cons f frames ih =>
    have hf : Everywhere Shaped (f.plug a) := Everywhere.of_assemble_cons hp
    have houter (outer : Atom κ) (h : Accounts (f.plug a) l outer l) :
        Accounts (Place.assemble (f.plug a) frames) l
          (((Place.reflowIn outer frames).down? f.left.length).getD ⟨a, f :: frames⟩).root.atom l := by
      have hwhole := h.assemble hp
      have hback := hwhole.trans (ih outer hwhole.shaped)
      cases hdown : (Place.reflowIn outer frames).down? f.left.length with
      | none => exact .refl hp
      | some q =>
        rw [Option.getD_some, Place.root_down? hdown]
        exact hback
    show Accounts (Place.assemble (f.plug a) frames) l (Place.reflowIn a (f :: frames)).root.atom l
    rw [Place.reflowIn]
    cases f.content with
    | group => exact houter _ (accounts_arranged hf l)
    | host pad => exact houter _ (Accounts.refl hf).fixPad
    | overlay backing => exact houter _ (Accounts.refl hf)
    | empty | raw | pointer | bits => exact .refl hp

/-! ## Dependent fields -/

section Fields

variable {env : Env κ}

/-- An atom under another layout of the same measure, before it is made anew. -/
theorem Accounts.becomes_of_layout {a b : Atom κ} {l m : Ledger κ} (layout : AtomLayout κ)
    (hlayout : layout.isBits = a.isBits)
    (h : Accounts (a.mapInfo fun info => { info with layout }) l b m) : Becomes a l b m := by
  have hbits : (a.mapInfo fun info => { info with layout }).isBits = a.isBits := by
    rw [Atom.isBits, info_mapInfo, hlayout]
  have htally (x : Nat) : (a.mapInfo fun info => { info with layout }).tally x = a.tally x :=
    tally_congr (by rw [info_mapInfo]) (by rw [parts_mapInfo])
  exact ⟨h.isBits.trans hbits, h.shaped, fun x => by rw [h.balance x, htally]⟩

theorem becomes_rebuild (frames : List (Frame κ)) {a : Atom κ} (ha : a.isBits = false)
    (layout : Layout κ) (l : Ledger κ) :
    Ends (rebuild env frames a layout) l fun out m => Becomes a l out.atom m := by
  rw [rebuild]
  have hload := accounts_load env Layout.nestingLimit frames
    (a := a.mapInfo fun info => { info with layout := .bytes layout })
    (.inr ⟨nestingLimit_pos, by rw [isBits, info_mapInfo, AtomLayout.isBits]⟩)
  refine Ends.bind (LedgerM.ends_fromBytes (hload _)) fun out m hout => ?_
  split
  · refine (accounts_allocate env _ frames hout.shaped m).mono fun _ _ h => ?_
    exact (hout.trans h.1).becomes_of_layout (.bytes layout) ha.symm
  · exact Ends.pure (hout.becomes_of_layout (.bytes layout) ha.symm)

theorem becomes_followField (frames : List (Frame κ)) (f : Frame κ) (field : Field κ (Layout κ))
    {a : Atom κ} (hbits : a.isBits = false) (ha : Everywhere Shaped a) (l : Ledger κ) :
    Ends (followField env frames f field a) l fun out m => Becomes a l out.atom m := by
  have hlayout : Ends (followLayout env frames f field a) l fun out m => Becomes a l out.atom m := by
    rw [followLayout]
    split
    · exact Ends.pure (Accounts.refl ha).becomes
    · split
      · exact Ends.pure (Accounts.refl ha).becomes
      · exact becomes_rebuild _ hbits _ l
  rw [followField_eq]
  refine hlayout.bind fun out m hout => Ends.pure ?_
  rw [followExtent]
  split
  · exact hout
  · exact hout
  · split
    · exact hout
    · exact hout.forceExtent env.config _

theorem becomes_followBitField (frames : List (Frame κ)) (f : Frame κ)
    (field : BitField κ (BitLayout κ)) {a : Atom κ} (hbits : a.isBits = true)
    (ha : Everywhere Shaped a) (l : Ledger κ) :
    Ends (followBitField env frames f field a) l fun out m => Becomes a l out.atom m := by
  rw [followBitField]
  split
  · exact Ends.pure (Accounts.refl ha).becomes
  · split
    · exact Ends.pure (Accounts.refl ha).becomes
    · rename_i layout _
      have hmake := accounts_allocateBits env Layout.nestingLimit (f :: frames)
        (a := a.mapInfo fun info => { info with layout := .bits layout })
        (.inr ⟨nestingLimit_pos, by rw [isBits, info_mapInfo, AtomLayout.isBits]⟩) l
      exact hmake.mono fun _ _ h => h.1.becomes_of_layout (.bits layout) hbits.symm

/-- Laying out parts one after another. -/
theorem becomeAll_followFields {φ : Type} (name : φ → String)
    {follow : Frame κ → φ → Atom κ → LedgerM κ (Outcome κ)} {inBits : Bool}
    (hfollow : ∀ f field a l, a.isBits = inBits → Everywhere Shaped a →
      Ends (follow f field a) l fun out m => Becomes a l out.atom m)
    (info : Info κ) (content : Content) (left right : List (Atom κ)) (fields : List φ)
    (hbits : ∀ a ∈ right, a.isBits = inBits) (hright : ∀ a ∈ right, Everywhere Shaped a)
    (l : Ledger κ) :
    Ends (followFields name follow info content left right fields) l fun out m =>
      BecomeAll right l out.parts m := by
  induction right generalizing left fields l with
  | nil => exact Ends.pure (.refl hright)
  | cons a right ih =>
    cases fields with
    | nil => exact Ends.pure (.refl hright)
    | cons field fields =>
      rw [List.forall_mem_cons] at hbits hright
      rw [followFields]
      refine (hfollow _ field a l hbits.1 hright.1).bind fun out m hout => ?_
      split
      · exact Ends.pure (.cons hout (.refl hright.2))
      · refine (ih _ fields hbits.2 hright.2 m).bind fun later n hlater => ?_
        exact Ends.pure (.cons hout hlater)

/-- The fields after the one in the gap, laid out anew. -/
theorem accounts_followGap (frames : List (Frame κ)) {f : Frame κ} {a : Atom κ}
    (hf : Everywhere Shaped (f.plug a)) (l : Ledger κ) :
    Ends (followGap env frames f a) l fun out m =>
      Accounts (f.plug a) l (Frame.plug { f with right := out.parts } a) m := by
  obtain ⟨hhere, hleft, ha, hright⟩ := everywhere_plug.1 hf
  have hafter {parts : List (Atom κ)} {m : Ledger κ} (h : BecomeAll f.right l parts m) :
      Accounts (f.plug a) l (Frame.plug { f with right := parts } a) m := by
    refine .of_parts rfl hhere rfl id ?_
    rw [Frame.parts_plug, Frame.parts_plug]
    exact .after (fun b hb => hleft b (List.mem_reverse.1 hb))
      (.cons (Accounts.refl ha).becomes h)
  have hmeasure (hgroup : f.content = .group) : ∀ b ∈ f.right, b.isBits = f.info.layout.isBits := by
    intro b hb
    have hholds := hhere.holds
    rw [Frame.content_plug, hgroup] at hholds
    exact hholds b (by simp [hb])
  rw [followGap]
  split
  · rename_i fields hgroup hlayout
    rw [hlayout] at hmeasure
    exact (becomeAll_followFields Field.name
      (fun f field a l hb ha => becomes_followField frames f field hb ha l) f.info .group _ _ _
      (hmeasure hgroup) hright l).mono fun _ _ h => hafter h
  · rename_i fields hgroup hlayout
    rw [hlayout] at hmeasure
    exact (becomeAll_followFields BitField.name
      (fun f field a l hb ha => becomes_followBitField frames f field hb ha l) f.info .group _ _ _
      (hmeasure hgroup) hright l).mono fun _ _ h => hafter h
  · exact Ends.pure (hafter (.refl hright))

/-- The dependent fields around an atom. -/
theorem accounts_followDependents (a : Atom κ) (frames : List (Frame κ))
    (hw : Everywhere Shaped (Place.assemble a frames)) (l : Ledger κ) :
    Ends (followDependents env a frames) l fun out m =>
      Accounts (Place.assemble a frames) l (Place.assemble a out.frames) m := by
  induction frames generalizing a l with
  | nil => exact Ends.pure (.refl hw)
  | cons f frames ih =>
    rw [followDependents]
    split
    · exact Ends.pure (.refl hw)
    · have hf : Everywhere Shaped (f.plug a) := Everywhere.of_assemble_cons hw
      refine (accounts_followGap frames hf l).bind fun out m hout => ?_
      have hwhole := hout.assemble hw
      dsimp only
      split
      · exact Ends.pure hwhole
      · refine (ih _ hwhole.shaped m).bind fun outer n houter => ?_
        exact Ends.pure (hwhole.trans houter)

/-! ## Unions and dirt -/

/-- The members of a union, loaded anew but for one. -/
theorem becomeAll_reloadMembers (frames : List (Frame κ)) (info : Info κ) (backing : Bytes)
    (kept : Nat) (left as : List (Atom κ)) (has : ∀ a ∈ as, Everywhere Shaped a) (l : Ledger κ) :
    Ends (reloadMembers env frames info backing kept left as) l fun out m =>
      BecomeAll as l out.parts m := by
  induction as generalizing left l with
  | nil => exact Ends.pure (.refl has)
  | cons a as ih =>
    rw [List.forall_mem_cons] at has
    have hmember : Ends (reloadMember env frames ⟨info, .overlay backing, left, as⟩ backing kept a) l
        fun out m => Becomes a l out.atom m := by
      rw [reloadMember]
      split
      · exact Ends.pure (Accounts.refl has.1).becomes
      · have hload := accounts_load env Layout.nestingLimit
          (⟨info, .overlay backing, left, as⟩ :: frames) (.inl has.1)
        exact LedgerM.ends_fromBytes (Ends.mono (hload _) fun _ _ h => h.becomes)
    rw [reloadMembers_cons]
    refine hmember.bind fun out m hout => ?_
    split
    · exact Ends.pure (.cons hout (.refl has.2))
    · refine (ih (out.atom :: left) has.2 m).bind fun later n hlater => Ends.pure ?_
      exact .cons hout hlater

/-- The unions around an atom. -/
theorem accounts_syncUnions (a : Atom κ) (frames : List (Frame κ))
    (hw : Everywhere Shaped (Place.assemble a frames)) (l : Ledger κ) :
    Ends (syncUnions env a frames) l fun out m =>
      Accounts (Place.assemble a frames) l (Place.assemble a out.frames) m := by
  induction frames generalizing a l with
  | nil => exact Ends.pure (.refl hw)
  | cons f frames ih =>
    have hf : Everywhere Shaped (f.plug a) := Everywhere.of_assemble_cons hw
    rw [syncUnions]
    split
    · exact Ends.pure (.refl hw)
    · rename_i backing hcontent
      dsimp only
      refine ((becomeAll_reloadMembers _ _ _ _ _ _ (everywhere_iff.1 hf).2 l).and
        (kept_reloadMembers _ _ _ _ _ _ l)).bind fun out m hout => ?_
      have hkept : out.parts[f.left.length]? = some a := by
        rw [hout.2 f.left.length (Nat.zero_add _)]
        simp
      have hunion (bytes : Bytes) : Accounts (f.plug a) l
          (Frame.plug ⟨f.info, .overlay bytes, (out.parts.take f.left.length).reverse,
            out.parts.drop (f.left.length + 1)⟩ a) m := by
        refine .of_parts rfl hf.here ?_ ?_ ?_
        · rw [Frame.info_plug, Frame.content_plug, Frame.content_plug, hcontent]
          exact f.info.layout.admits_overlay _ _
        · rw [Frame.content_plug, hcontent]
          exact id
        · rw [Frame.parts_around hkept]
          exact hout.1
      have hwhole := (hunion (overwrite (Place.serialize ⟨a, f :: frames⟩ env.config.bitOrder)
        backing)).assemble hw
      split
      · exact Ends.pure hwhole
      · refine (ih _ hwhole.shaped m).bind fun outer n houter => ?_
        exact Ends.pure (hwhole.trans houter)
    · exact (ih _ hw l).bind fun outer n houter => Ends.pure houter

theorem accounts_markDirty {a : Atom κ} {frames : List (Frame κ)}
    (hw : Everywhere Shaped (Place.assemble a frames)) (l : Ledger κ) :
    Accounts (Place.assemble a frames) l (Place.assemble a (markDirty frames)) l := by
  induction frames generalizing a with
  | nil => exact .refl hw
  | cons f frames ih =>
    have hf : Everywhere Shaped (f.plug a) := Everywhere.of_assemble_cons hw
    have hdirty : Accounts (f.plug a) l
        ((f.plug a).mapInfo fun info => { info with dirty := true }) l :=
      (Accounts.refl hf).mapInfo rfl
    have hwhole := hdirty.assemble hw
    rw [markDirty]
    split
    · exact .refl hw
    · exact hwhole.trans (ih hwhole.shaped)

end Fields

end BinaryLayout
