import BinaryLayout.Proofs.Blame.Basic
import BinaryLayout.Proofs.Making.Load

/-!
# Which atom a warning is about

Making an atom adds warnings to those there are and takes none back. Each of the new ones names the atom
that is loaded or one inside it. So the warnings that an element causes are never about the array around
it, and the array's own are told apart from them by their paths.

## Main definitions

* `Ledger.WarnsAt`: warnings were added about atoms at or below a path.

## Main statements

* `Makes.warns`: the steps in which atoms are made warn about them and about atoms inside them only.
* `Place.path_part_ne`: the path of a part is not that of the atom around it.
-/

namespace BinaryLayout

variable {κ : Type}

open Atom

/-- Warnings were added, all of them about atoms at or below the path. -/
def Ledger.WarnsAt (path : Path) (l m : Ledger κ) : Prop :=
  ∃ new, m.warnings = new ++ l.warnings ∧ ∀ w ∈ new, path <+: w.path

namespace Ledger.WarnsAt

variable {path path' : Path} {l m n : Ledger κ}

theorem of_eq (h : m.warnings = l.warnings) : l.WarnsAt path m := ⟨[], h, nofun⟩

theorem refl (l : Ledger κ) : l.WarnsAt path l := .of_eq rfl

theorem trans (hlm : l.WarnsAt path m) (hmn : m.WarnsAt path n) : l.WarnsAt path n := by
  obtain ⟨early, hm, hearly⟩ := hlm
  obtain ⟨late, hn, hlate⟩ := hmn
  exact ⟨late ++ early, by rw [hn, hm, List.append_assoc], List.forall_mem_append.2 ⟨hlate, hearly⟩⟩

theorem deeper (hpath : path <+: path') (h : l.WarnsAt path' m) : l.WarnsAt path m := by
  obtain ⟨new, hm, hnew⟩ := h
  exact ⟨new, hm, fun w hw => hpath.trans (hnew w hw)⟩

theorem warn {w : Warning} (hw : path <+: w.path) (l : Ledger κ) : l.WarnsAt path (l.warn w) :=
  ⟨[w], rfl, List.forall_mem_singleton.2 hw⟩

end Ledger.WarnsAt

namespace Place

/-- The path of a part goes on from that of the atom around it. -/
theorem path_prefix (f : Frame κ) (frames : List (Frame κ)) (a : Atom κ) :
    path ⟨f.close, frames⟩ <+: path ⟨a, f :: frames⟩ := by
  rw [path, path, pathOnto, pathOnto_eq [segment f.info a.info.name]]
  exact List.prefix_append _ _

/-- It is longer. -/
theorem path_part_ne (f : Frame κ) (frames : List (Frame κ)) (a : Atom κ) {path' : Path}
    (h : path ⟨a, f :: frames⟩ <+: path') : path' ≠ path ⟨f.close, frames⟩ := by
  rintro rfl
  have hlength := h.length_le
  rw [path, path, pathOnto, pathOnto_eq [segment f.info a.info.name], List.length_append,
    List.length_singleton] at hlength
  exact Nat.not_succ_le_self _ hlength

end Place

/-! ## The steps -/

/-- A new atom is not warned about yet. -/
theorem Ledger.warnings_take (l : Ledger κ) : l.take.2.warnings = l.warnings := by
  rw [take]
  split <;> rfl

/-- Making an atom warns about atoms at or below it only. -/
theorem Makes.warns {frames : List (Frame κ)} {stage : Stage κ} {l m : Ledger κ} {out : Outcome κ}
    (h : Makes frames stage l out m) : l.WarnsAt (Place.path ⟨stage.top, frames⟩) m := by
  induction h with
  | refused | leaf | bits | complete | stopped => exact .refl _
  | @host frames a l _ _ _ _ _ _ _ _ _ _ ih =>
    have hroot := ih.deeper (Place.path_prefix (a.fill (.host .empty) []).frame frames _)
    exact (Ledger.WarnsAt.of_eq l.warnings_take).trans hroot
  | @sized frames a _ _ _ extent _ ih =>
    rwa [Stage.top, Place.path_of_site (b := a) (by rw [info_mapInfo]; rfl)] at ih
  | compound _ _ _ ih => exact ih
  | @next frames f _ _ l _ _ _ _ _ _ _ _ _ _ _ ihpart ihrest =>
    have hpart := (Ledger.WarnsAt.of_eq l.warnings_take).trans (ihpart.deeper (Place.path_prefix f frames _))
    exact hpart.trans ihrest
  | @dropped frames f _ _ l m _ part _ _ _ _ _ _ ihpart ihrest =>
    have hpart := (Ledger.WarnsAt.of_eq l.warnings_take).trans (ihpart.deeper (Place.path_prefix f frames _))
    exact (hpart.trans (.of_eq (Ledger.warnings_release m part.atom))).trans ihrest
  | amended _ _ ih | failed _ _ ih => exact ih
  | @warned frames _ _ m _ _ hpath hmade ih =>
    refine ih.trans (.warn ?_ m)
    rw [hpath, Place.path_of_site hmade.site]

end BinaryLayout
