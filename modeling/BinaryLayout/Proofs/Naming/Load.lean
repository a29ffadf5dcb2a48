import BinaryLayout.Proofs.Making.Load

/-!
# Parts of atoms that are loaded and allocated

Loading and allocating give every atom the parts that its layout declares, in order, however far they get. An
array that drops its last element loses none in the middle, so the elements bear their indices all the same.

## Main definitions

* `Stage.Declared`: the parts that an atom has so far are as its layout declares them.

## Main statements

* `Makes.suits`: the steps in which atoms are made give them the parts that were declared.
* `suits_load`, `suits_allocate`, `suits_allocateBits`: atoms that are made, whatever they held before.
-/

namespace BinaryLayout

variable {κ : Type}

open Atom

/-! ## The steps -/

/-- The parts that there are so far are as they were declared, and the next one is the one at the index. -/
def Stage.Declared : Stage κ → Prop
  | atom a => Everywhere Conforms a
  | parts f index _ => f.NextAt index

/-- A host with its root. -/
theorem suits_hostedBits {a root : Atom κ} {layout : BitLayout κ} {order : ByteOrder}
    (hlayout : a.info.layout = .bytes (.bits layout order)) (hroot : root.Suits ("", .bits layout))
    (pad : Bitmap) : (hostedBits a root pad).Suits a.info.label := by
  refine ⟨rfl, everywhere_iff.2 ⟨?_, List.forall_mem_singleton.2 hroot.conforms⟩⟩
  refine ⟨?_, trivial⟩
  rw [hostedBits, info_fill, hlayout, hroot.label]
  exact ⟨rfl, rfl, rfl⟩

/-- However far an atom is made, it keeps its label, and its parts are as it declares them. -/
theorem Makes.suits {frames : List (Frame κ)} {stage : Stage κ} {l m : Ledger κ} {out : Outcome κ}
    (h : Makes frames stage l out m) (hstage : stage.Declared) : out.atom.Suits stage.top.info.label := by
  induction h with
  | refused => exact Everywhere.suits hstage
  | @leaf _ a _ layout raw marked =>
    have hbytes := suits_withBytes layout raw (a.mapInfo fun info => { info with undecodable := marked })
    rwa [info_mapInfo] at hbytes
  | @bits _ a _ _ _ _ value => exact suits_fill_nil (.bits value) a
  | host hlayout _ _ _ ih => exact suits_hostedBits hlayout (ih (isBlank_blank ..).conforms) _
  | sized extent _ ih =>
    have hsized := ih (Suits.mapInfo (Everywhere.suits hstage) rfl).conforms
    rwa [Stage.top, info_mapInfo] at hsized
  | compound _ _ _ ih => exact ih (.start _ _)
  | complete | stopped => exact (Frame.NextAt.close hstage)
  | next hdeclares _ _ _ _ ihpart ihrest =>
    exact ihrest (Frame.NextAt.push hstage (ihpart (isBlank_blank ..).conforms) hdeclares)
  | dropped _ _ _ _ ihrest => exact ihrest hstage
  | amended hamends _ ih => exact (ih hstage).mapInfo (Info.label_of_site hamends.site)
  | failed _ _ ih | warned _ _ ih => exact ih hstage

/-- An atom that is emptied first, or else conforms, conforms afterwards. -/
theorem MakesOver.suits {restarts : Prop} {frames : List (Frame κ)} {a : Atom κ} {l m : Ledger κ}
    {out : Outcome κ} (h : MakesOver restarts frames a l out m) (ha : Everywhere Conforms a ∨ restarts) :
    out.atom.Suits a.info.label := by
  rcases h with ⟨-, h⟩ | ⟨hstays, rfl, e, rfl⟩
  · have hmade := h.suits (isBlank_cleared a).conforms
    rwa [Stage.top, label_cleared] at hmade
  · exact (ha.resolve_right hstays).suits

/-! ## Loading and allocating -/

/-- Default content for an atom of bits, whatever it held before. -/
theorem suits_allocateBits (env : Env κ) (depth : Nat) (frames : List (Frame κ)) {a : Atom κ}
    (ha : Everywhere Conforms a ∨ 0 < depth ∧ a.isBits = true) (l : Ledger κ) :
    Ends (allocateBits env depth frames a) l fun out _ => out.atom.Suits a.info.label :=
  (makesOver_allocateBits env depth frames a l).mono fun _ _ h => h.suits ha

/-- An atom of bytes that is loaded, whatever it held before. -/
theorem suits_load (env : Env κ) (depth : Nat) (frames : List (Frame κ)) {a : Atom κ}
    (ha : Everywhere Conforms a ∨ 0 < depth ∧ a.isBits = false) (s : LoadState κ) :
    Ends (load env depth frames a) s fun out _ => out.atom.Suits a.info.label :=
  (makesOver_load env depth frames a s).mono fun _ _ h => h.suits ha

theorem makesSuitable_load (env : Env κ) (depth : Nat) : MakesSuitable (load env depth) :=
  fun frames _ s ha => suits_load env depth frames (.inl ha) s

/-- Default content for an atom, whatever it held before. -/
theorem suits_allocate (env : Env κ) (depth : Nat) (frames : List (Frame κ)) {a : Atom κ}
    (ha : Everywhere Conforms a ∨ 0 < depth) (l : Ledger κ) :
    Ends (allocate env depth frames a) l fun out _ => out.atom.Suits a.info.label :=
  (makesOver_allocate env depth frames a l).mono fun _ _ h => h.suits ha

end BinaryLayout
