import BinaryLayout.Proofs.Making.Load
import BinaryLayout.Proofs.Tree.Walk

/-!
# Atoms that were just loaded

Nothing was changed in an atom that was just loaded, and no pointer in it was followed yet. Only the
atom that was loaded again may still be marked as changed, because its flags outlive its content.

## Main definitions

* `Atom.Fresh`: an atom that was neither changed nor followed.
* `Outcome.Anew`: an atom whose parts are fresh.

## Main statements

* `Makes.anew`: the steps in which atoms are made leave their parts fresh.
* `anew_load`: an atom of bytes that was loaded.
-/

namespace BinaryLayout

variable {κ : Type}

open Atom

/-- The atom was not changed, and it is not a pointer that was followed. -/
def Atom.Fresh (a : Atom κ) : Prop := a.info.dirty = false ∧ a.referent? = none

/-- An atom that was made has fresh parts only, and it is marked as changed or not as before. -/
def Outcome.Anew (dirty : Bool) (out : Outcome κ) : Prop :=
  out.error? = none → out.atom.info.dirty = dirty ∧ out.atom.referent? = none
    ∧ ∀ part ∈ out.atom.parts, Everywhere Fresh part

namespace Atom

variable {a : Atom κ}

theorem referent?_of_parts (h : a.parts = []) : a.referent? = none := by
  obtain ⟨info, content, parts⟩ := a
  cases h
  cases content <;> rfl

theorem referent?_mapInfo (change : Info κ → Info κ) : (a.mapInfo change).referent? = a.referent? := by
  obtain ⟨info, content, parts⟩ := a
  cases content <;> first | rfl | (cases parts <;> rfl)

/-- A new atom whose parts are fresh is fresh. -/
theorem fresh_of_anew {out : Outcome κ} (h : out.Anew false) (herror : out.error? = none) :
    Everywhere Fresh out.atom := by
  obtain ⟨hdirty, hreferent, hparts⟩ := h herror
  exact everywhere_iff.2 ⟨⟨hdirty, hreferent⟩, hparts⟩

end Atom

/-! ## The steps -/

/-- The parts that there are so far are fresh, and the atom is no pointer. -/
structure Frame.Anew (f : Frame κ) : Prop where
  content : ∀ wire, f.content ≠ .pointer wire
  parts : ∀ part ∈ f.close.parts, Everywhere Fresh part

def Stage.Anew : Stage κ → Prop
  | atom _ => True
  | parts f _ _ => f.Anew

namespace Frame.Anew

variable {f : Frame κ}

theorem push (hf : f.Anew) {a : Atom κ} (ha : Everywhere Fresh a) : (f.push a).Anew := by
  refine ⟨hf.content, fun part hpart => ?_⟩
  have hparts := hf.parts
  rw [Frame.parts_close] at hpart hparts
  rcases List.mem_append.1 hpart with hleft | hright
  · rw [List.mem_reverse] at hleft
    rcases List.mem_cons.1 hleft with rfl | hleft
    · exact ha
    · exact hparts part (List.mem_append_left _ (List.mem_reverse.2 hleft))
  · exact hparts part (List.mem_append_right _ hright)

theorem referent? (hf : f.Anew) : f.close.referent? = none := by
  obtain ⟨info, content, left, right⟩ := f
  cases content
  case pointer wire => exact absurd rfl (hf.content wire)
  all_goals rfl

end Frame.Anew

/-- Whatever is made without an error has fresh parts only, and it is marked as changed or not as before. -/
theorem Makes.anew {frames : List (Frame κ)} {stage : Stage κ} {l m : Ledger κ} {out : Outcome κ}
    (h : Makes frames stage l out m) (hstage : stage.Anew) : out.Anew stage.top.info.dirty := by
  refine fun herror => ⟨h.dirty, ?_⟩
  induction h with
  | refused | stopped | failed => cases herror
  | leaf =>
    rw [withBytes_eq]
    exact ⟨referent?_of_parts rfl, nofun⟩
  | bits => exact ⟨referent?_of_parts rfl, nofun⟩
  | host _ _ _ hroot ih =>
    obtain ⟨hreferent, hparts⟩ := ih trivial herror
    exact ⟨rfl, List.forall_mem_singleton.2 (everywhere_iff.2 ⟨⟨hroot.dirty, hreferent⟩, hparts⟩)⟩
  | sized _ _ ih => exact ih trivial herror
  | compound _ hcontent _ ih =>
    refine ih ⟨fun wire h => ?_, nofun⟩ herror
    rcases hcontent with hgroup | ⟨backing, hoverlay⟩
    · cases hgroup.symm.trans h
    · cases hoverlay.symm.trans h
  | complete => exact ⟨Frame.Anew.referent? hstage, Frame.Anew.parts hstage⟩
  | next _ _ hpart _ hdone ihpart ihrest =>
    obtain ⟨hreferent, hparts⟩ := ihpart trivial (hdone herror)
    exact ihrest (Frame.Anew.push hstage (everywhere_iff.2 ⟨⟨hpart.dirty, hreferent⟩, hparts⟩)) herror
  | dropped _ _ _ _ ihrest => exact ihrest hstage herror
  | amended _ _ ih =>
    rw [referent?_mapInfo, parts_mapInfo]
    exact ih hstage rfl
  | warned _ _ ih => exact ih hstage herror

/-- An atom of bytes that was loaded, whatever it held before. -/
theorem anew_load (env : Env κ) (depth : Nat) (frames : List (Frame κ)) (a : Atom κ) (s : LoadState κ) :
    Ends (load env depth frames a) s fun out _ => out.Anew a.info.dirty :=
  (makesOver_load env depth frames a s).mono fun out m h => by
    rcases h with ⟨-, h⟩ | ⟨-, -, e, rfl⟩
    · have hsame : a.cleared.info.dirty = a.info.dirty := by
        cases a
        rfl
      exact hsame ▸ h.anew trivial
    · exact fun h => by cases h

/-- A new atom. -/
theorem LoadM.fresh_spawn (name : String) (layout : AtomLayout κ) (offset : Nat) (s : LoadState κ) :
    Ends (LoadM.ofLedger (LedgerM.spawn name layout offset)) s fun a _ => a.info.dirty = false := rfl

end BinaryLayout
