import BinaryLayout.Proofs.Making.Load

/-!
# Handles while atoms are made

Loading and allocating spawn parts, keep them, and give up those that could not be completed. In
every outcome, also after a failure, the atom stands where it stood, its tree is well shaped, and
each handle that the ledger gave out is in the tree.

## Main definitions

* `Stage.Begins`: a blank atom, or a frame that takes further parts.
* `Accounted`: a way of making atoms that neither loses nor doubles a handle.

## Main statements

* `Makes.accounts`: the steps in which atoms are made neither lose nor double a handle.
* `accounts_allocateBits`, `accounts_load`, `accounts_allocate`: loading and allocating.
-/

namespace BinaryLayout

variable {κ : Type}

open Atom

/-- The atom is well shaped, or it is emptied at once, because it is of the right measure and layouts
may be some levels deep. -/
def Atom.Restarts (depth : Nat) (inBits : Bool) (a : Atom κ) : Prop :=
  Everywhere Shaped a ∨ 0 < depth ∧ a.isBits = inBits

def Outcome.Filled (out : Outcome κ) : Prop := out.error? = none → out.atom.content ≠ .empty

/-- However a blank atom comes out, no handle is lost or doubled. -/
def Accounted {σ : Type} (ledger : σ → Ledger κ) (part : LoadPart (StateM σ) κ) : Prop :=
  ∀ frames a s, a.IsBlank →
    Ends (part frames a) s fun out t => Accounts a (ledger s) out.atom (ledger t)

/-! ## The steps -/

/-- An atom is blank before it is made, and the frame of one that gets its parts is open. -/
def Stage.Begins : Stage κ → Prop
  | atom a => a.IsBlank
  | parts f _ _ => f.Open f.info.layout.isBits

/-- A blank atom that becomes one with fields or elements, or with members. -/
theorem Frame.open_fill {a : Atom κ} {content : Content} (hadmits : a.info.layout.admits content = true)
    (hcontent : content = .group ∨ ∃ backing, content = .overlay backing) :
    (a.fill content []).frame.Open a.isBits := by
  constructor
  · rcases hcontent with hcontent | ⟨backing, rfl⟩
    · exact .inl ⟨hcontent, rfl⟩
    · refine .inr ⟨⟨backing, rfl⟩, ?_⟩
      rw [isBits]
      cases hlayout : a.info.layout with
      | bytes => rfl
      | bits layout =>
        rw [hlayout] at hadmits
        cases layout <;> cases hadmits
  · rw [close_frame]
    refine shaped_fill hadmits ?_
    rcases hcontent with rfl | ⟨backing, rfl⟩ <;> simp [Content.Holds]

theorem Frame.Open.content_ne_empty {f : Frame κ} {inBits : Bool} (hf : f.Open inBits) :
    f.content ≠ .empty := by
  rcases hf.takes with ⟨h, -⟩ | ⟨⟨backing, h⟩, -⟩ <;> rw [h] <;> exact Content.noConfusion

/-- An atom that another one was told to become. -/
theorem Accounts.of_site {a b c : Atom κ} {l m : Ledger κ} (hsite : b.info.site = a.info.site)
    (hparts : b.parts = a.parts) (h : Accounts b l c m) : Accounts a l c m :=
  ⟨h.site.trans hsite, h.shaped, fun x => by
    rw [h.balance x, tally_congr (Info.id_of_site hsite) (by rw [hparts])]⟩

/-- The unused bits of a host are no parts. -/
theorem Accounts.fixPad {a b : Atom κ} {l m : Ledger κ} (h : Accounts a l b m) :
    Accounts a l b.fixPad m :=
  ⟨by rw [info_fixPad, h.site], h.shaped.shaped_fixPad, fun x => by
    have hsame : b.fixPad.tally x = b.tally x :=
      tally_congr (by rw [info_fixPad]) (by rw [parts_fixPad])
    rw [hsame, h.balance x]⟩

/-- The steps in which atoms are made neither lose nor double a handle, and they leave an atom without content
only where they fail. -/
theorem Makes.accounts {frames : List (Frame κ)} {stage : Stage κ} {l m : Ledger κ} {out : Outcome κ}
    (h : Makes frames stage l out m) (hstage : stage.Begins) :
    Accounts stage.top l out.atom m ∧ out.Filled := by
  induction h with
  | refused => exact ⟨.refl (IsBlank.shaped hstage), fun h => by cases h⟩
  | @leaf _ a _ layout raw _ hlayout hstores =>
    rw [withBytes_eq]
    refine ⟨.filled (IsBlank.parts hstage) ?_ rfl ?_ (layout.holds_stored raw _), fun _ => ?_⟩
    · rw [info_fill, info_mapInfo]
      rfl
    · exact hlayout ▸ hstores.admits
    · exact layout.stored_ne_empty raw
  | bits hlayout value =>
    refine ⟨.fill hstage _ (hlayout ▸ rfl) rfl, fun _ => ?_⟩
    simp
  | @host _ a l m out _ _ position pad hlayout _ _ _ ih =>
    obtain ⟨-, -, -, hcame⟩ := Ends.spawn "" (.bits _) position l
    have hroot := hcame.onto (ih (isBlank_blank ..)).1
    refine ⟨.fillPart hstage (.host pad) (hlayout ▸ rfl) ⟨out.atom, rfl, hroot.isBits⟩ hroot, fun _ => ?_⟩
    simp [hostedBits]
  | sized extent _ ih =>
    have hsized := ih (IsBlank.sized hstage extent)
    exact ⟨hsized.1.of_site (by rw [Stage.top, info_mapInfo]; rfl) (parts_mapInfo ..), hsized.2⟩
  | @compound _ a _ _ _ content hadmits hcontent _ ih =>
    have hopen := Frame.open_fill hadmits hcontent
    have hparts := ih hopen
    rw [Stage.top, close_frame] at hparts
    have hholds : content.Holds a.isBits ([] : List (Atom κ)) := by
      rcases hcontent with rfl | ⟨backing, rfl⟩ <;> simp [Content.Holds]
    exact ⟨(Accounts.fill hstage content hadmits hholds).trans hparts.1, hparts.2⟩
  | complete => exact ⟨.refl (Frame.Open.shaped hstage), fun _ => Frame.Open.content_ne_empty hstage⟩
  | stopped => exact ⟨.refl (Frame.Open.shaped hstage), fun h => by cases h⟩
  | @next _ f _ cursor l _ _ _ _ name layout _ hbits _ _ _ ihpart ihrest =>
    obtain ⟨-, -, -, hcame⟩ := Ends.spawn name layout cursor l
    have hpart := hbits ▸ hcame.onto (ihpart (isBlank_blank ..)).1
    have hrest := ihrest (hpart.push_open hstage)
    exact ⟨(hpart.push hstage).trans hrest.1, hrest.2⟩
  | @dropped _ f _ cursor l _ _ _ _ name layout hbits _ _ ihpart ihrest =>
    obtain ⟨-, -, -, hcame⟩ := Ends.spawn name layout cursor l
    have hpart := hbits ▸ hcame.onto (ihpart (isBlank_blank ..)).1
    have hrest := ihrest hstage
    exact ⟨(hpart.skip hstage).trans hrest.1, hrest.2⟩
  | amended hamends _ ih =>
    have hmade := ih hstage
    exact ⟨hmade.1.mapInfo hamends.site, fun _ => by rw [content_mapInfo]; exact hmade.2 rfl⟩
  | failed e _ ih => exact ⟨(ih hstage).1, fun h => by cases h⟩
  | warned _ _ ih => exact ⟨(ih hstage).1.warn _, (ih hstage).2⟩

/-- An atom that is emptied first, or else is well shaped, loses no handle either. -/
theorem MakesOver.accounts {restarts : Prop} {frames : List (Frame κ)} {a : Atom κ} {l m : Ledger κ}
    {out : Outcome κ} (h : MakesOver restarts frames a l out m) (ha : Everywhere Shaped a ∨ restarts) :
    Accounts a l out.atom m ∧ out.Filled := by
  rcases h with ⟨-, h⟩ | ⟨hstays, rfl, e, rfl⟩
  · have hmade := h.accounts (isBlank_cleared a)
    exact ⟨(Accounts.clear a l).trans hmade.1, hmade.2⟩
  · exact ⟨.refl (ha.resolve_right hstays), fun h => by cases h⟩

/-! ## Loading and allocating -/

theorem Making.accounted {σ : Type} {ledger : σ → Ledger κ} {part : LoadPart (StateM σ) κ}
    (h : Making ledger part) : Accounted ledger part :=
  fun frames a s ha => (h frames a s ha).mono fun _ _ hmade => (hmade.accounts ha).1

theorem accounted_loadBits (env : Env κ) (depth : Nat) : Accounted BitLoadM.ledgerOf (loadBits env depth) :=
  (making_loadBits env depth).accounted

theorem accounted_load (env : Env κ) (depth : Nat) : Accounted LoadState.ledger (load env depth) :=
  (making_load env depth).accounted

/-- Default content for atoms of bits. -/
theorem accounts_allocateBits (env : Env κ) (depth : Nat) (frames : List (Frame κ)) {a : Atom κ}
    (ha : a.Restarts depth true) (l : Ledger κ) :
    Ends (allocateBits env depth frames a) l fun out m => Accounts a l out.atom m ∧ out.Filled :=
  (makesOver_allocateBits env depth frames a l).mono fun _ _ h => h.accounts ha

/-- Loading an atom of bytes. -/
theorem accounts_load (env : Env κ) (depth : Nat) (frames : List (Frame κ)) {a : Atom κ}
    (ha : a.Restarts depth false) (s : LoadState κ) :
    Ends (load env depth frames a) s fun out t => Accounts a s.ledger out.atom t.ledger :=
  (makesOver_load env depth frames a s).mono fun _ _ h => (h.accounts ha).1

/-- Default content for any atom. -/
theorem accounts_allocate (env : Env κ) (depth : Nat) (frames : List (Frame κ)) {a : Atom κ}
    (ha : Everywhere Shaped a) (l : Ledger κ) :
    Ends (allocate env depth frames a) l fun out m => Accounts a l out.atom m ∧ out.Filled :=
  (makesOver_allocate env depth frames a l).mono fun _ _ h => h.accounts (.inl ha)

end BinaryLayout
