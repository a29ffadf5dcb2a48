import BinaryLayout.Proofs.Handles.Balance
import BinaryLayout.Proofs.Load.Bits

/-!
# Handles while bytes are read

Reading does not touch the ledger at all. What does are the few computations that spawn an atom, empty it,
give it up or add a warning, whether a view of bytes or one of bits is read besides.

## Main definitions

* `BitLoadM.ledgerOf`: the ledger under a computation that loads bits.

## Main statements

* `LoadM.leaves_readLeaf`, `BitLoadM.leaves_ledger_read`: reading leaves the ledger alone.
* `LoadM.ends_spawn`: a new atom.
-/

namespace BinaryLayout

variable {κ : Type}

open Atom

/-! ## Reading -/

/-- An atom that is emptied before it is made anew. -/
theorem Ends.clear (a : Atom κ) (l : Ledger κ) :
    Ends (LedgerM.clear a) l fun b m => b.IsBlank ∧ Accounts a l b m :=
  ⟨isBlank_cleared a, Accounts.clear a l⟩

theorem LedgerM.ends_fromBytes {α : Type} {data : Bytes} {origin : Nat} {m : LoadM κ α}
    {l : Ledger κ} {post : α → Ledger κ → Prop}
    (h : Ends m ⟨l, [], .ofBytes data origin⟩ fun a t => post a t.ledger) :
    Ends (LedgerM.fromBytes data origin m) l post := h

namespace LoadM

theorem leaves_seekTo (offset amount : Nat) :
    Leaves LoadState.ledger (seekTo offset amount : LoadM κ _) := fun _ => rfl

theorem leaves_next (amount : Nat) : Leaves LoadState.ledger (next amount : LoadM κ _) := fun _ => rfl

theorem leaves_viewEnd : Leaves LoadState.ledger (viewEnd : LoadM κ _) := fun _ => rfl

theorem leaves_readAt (offset amount : Nat) :
    Leaves LoadState.ledger (readAt offset amount : LoadM κ _) := by
  rw [readAt]
  split
  · exact Leaves.pure _
  · refine (leaves_seekTo offset amount).bind fun result => ?_
    split
    · exact Leaves.pure _
    · exact (leaves_next amount).bind fun _ => Leaves.pure _

theorem leaves_readGroups (budget : Nat) (read : Bytes) :
    Leaves LoadState.ledger (readGroups budget read : LoadM κ _) := by
  induction budget generalizing read with
  | zero => exact Leaves.pure _
  | succ budget ih =>
    rw [readGroups]
    refine (leaves_next 1).bind fun result => ?_
    split
    · exact Leaves.pure _
    · split
      · exact ih _
      · exact Leaves.pure _

theorem leaves_readVarint (offset : Nat) :
    Leaves LoadState.ledger (readVarint offset : LoadM κ _) := by
  refine (leaves_seekTo offset 1).bind fun result => ?_
  split
  · exact Leaves.pure _
  · exact leaves_readGroups _ _

theorem leaves_readUnits (unit limit budget : Nat) (read : Bytes) :
    Leaves LoadState.ledger (readUnits unit limit budget read : LoadM κ _) := by
  induction budget generalizing read with
  | zero => exact Leaves.pure _
  | succ budget ih =>
    rw [readUnits]
    refine (leaves_next unit).bind fun result => ?_
    split
    · exact Leaves.pure _
    · split
      · exact Leaves.pure _
      · exact ih _

theorem leaves_readText (format : TextFormat) (limit offset : Nat) :
    Leaves LoadState.ledger (readText format limit offset : LoadM κ _) := by
  rw [readText]
  split
  · split
    · exact Leaves.pure _
    · exact leaves_readAt _ _
  · refine (leaves_seekTo offset _).bind fun result => ?_
    split
    · exact Leaves.pure _
    · exact leaves_readUnits _ _ _ _
  · refine (leaves_readAt offset _).bind fun result => ?_
    split
    · exact Leaves.pure _
    · dsimp only
      split
      · exact Leaves.pure _
      · split
        · exact Leaves.pure _
        · exact Leaves.pure _
        · exact (leaves_readAt _ _).bind fun _ => Leaves.pure _

theorem leaves_readLeaf (config : Config) (frames : List (Frame κ)) (layout : Layout κ)
    (offset : Nat) : Leaves LoadState.ledger (readLeaf config frames layout offset : LoadM κ _) := by
  cases layout <;> first
    | exact leaves_readAt _ _
    | exact leaves_readVarint _
    | exact leaves_readText _ _ _
    | exact Leaves.pure _

/-- A window changes nothing but the view. -/
theorem ends_inWindow {α : Type} (limit : Nat) {m : LoadM κ α} {s : LoadState κ}
    {post : α → Ledger κ → Prop}
    (h : Ends m { s with reader := .window s.reader limit 0 } fun a t => post a t.ledger) :
    Ends (inWindow limit m) s fun a t => post a t.ledger := h

theorem ends_fromBytes {α : Type} {data : Bytes} {origin : Nat} {m : LoadM κ α} {s : LoadState κ}
    {post : α → Ledger κ → Prop}
    (h : Ends m ⟨s.ledger, [], .ofBytes data origin⟩ fun a t => post a t.ledger) :
    Ends (fromBytes data origin m) s fun a t => post a t.ledger :=
  LedgerM.ends_fromBytes h

theorem ends_release (a : Atom κ) (s : LoadState κ) :
    Ends (ofLedger (LedgerM.release a)) s fun _ t => t.ledger = s.ledger.release a := rfl

theorem ends_warn (w : Warning) (s : LoadState κ) :
    Ends (ofLedger (LedgerM.warn w)) s fun _ t => t.ledger = s.ledger.warn w := rfl

/-- A new atom, seen from a computation that reads. -/
theorem ends_spawn (name : String) (layout : AtomLayout κ) (offset : Nat) (s : LoadState κ) :
    Ends (ofLedger (LedgerM.spawn name layout offset)) s fun a t =>
      a.IsBlank ∧ a.info.layout = layout ∧ a.info.offset = offset
        ∧ Arrives s.ledger layout.isBits a t.ledger :=
  Ends.spawn name layout offset s.ledger

end LoadM

/-! ## Atoms of bits -/

namespace BitLoadM

/-- The ledger under a computation that loads bits. -/
def ledgerOf (s : BitLoadState κ) : Ledger κ := s.base.ledger

theorem leaves_ledger_fetch : Leaves ledgerOf (fetch : BitLoadM κ _) := by
  intro s
  refine ends_fetch ?_
  rw [Ends]
  cases (LoadM.next 1 s.base).1 <;> rfl

theorem leaves_ledger_read (width : Nat) : Leaves ledgerOf (read width : BitLoadM κ _) :=
  leaves_read leaves_ledger_fetch (fun _ _ => rfl) width

theorem leaves_bounded : Leaves ledgerOf (bounded : BitLoadM κ _) := fun _ => rfl

theorem ends_release (a : Atom κ) (s : BitLoadState κ) :
    Ends (ofLedger (LedgerM.release a)) s fun _ t => ledgerOf t = (ledgerOf s).release a := rfl

theorem ends_warn (w : Warning) (s : BitLoadState κ) :
    Ends (ofLedger (LedgerM.warn w)) s fun _ t => ledgerOf t = (ledgerOf s).warn w := rfl

end BitLoadM

end BinaryLayout
