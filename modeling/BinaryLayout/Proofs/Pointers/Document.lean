import BinaryLayout.Proofs.Document.Rules
import BinaryLayout.Proofs.Handles.Forest
import BinaryLayout.Proofs.Pointers.Recalculate

/-!
# Pointers of a document after the updates

Recalculating an atom of a document leaves every pointer of it in step with what it refers to, if the
records that were touched have no update rules. A record that has some goes over its parts first, and
what its rules then move is not stored in the numbers of pointers any more.

## Main statements

* `Document.Reachable.inStep_recalculate`: pointers in step.
* `Document.not_inStep_of_update`: a pointer that an update rule moves.
-/

namespace BinaryLayout

variable {κ : Type}

open Atom

namespace Document

variable {d : Document κ}

/-- Where no update rule runs, recalculating leaves the pointers of the atom in step. -/
theorem Balanced.yields_recalculate (hd : d.Balanced) {id : Nat} (hid : d.Live id)
    (hcalm : ∀ p, d.find? id = some p → ∀ q ∈ p.walk, q.atom.Calm) :
    Yields (recalculate id) d
      (fun _ e => ∃ p, e.find? id = some p ∧ ∀ q ∈ p.walk, q.InStep e.env) fun _ _ => True := by
  refine DocumentM.yields_got (yields_edit hid fun p hp hfind hpid => ?_)
  have hkeeps : Keeps ⟨d.ledger, p⟩ (EditM.recalculate d.env) :=
    EditM.keeps_recalculate d.env (hd.shaped_place hp)
  have hrefreshes : EditM.Refreshes d.env ⟨d.ledger, p⟩ (EditM.recalculate d.env) := by
    refine EditM.refreshes_recalculate (Place.everywhere_preorder.1 fun q hq => ?_)
    exact hcalm p hfind q (p.walk_eq_preorder ▸ hq)
  refine (Yields.and hkeeps hrefreshes).mono (fun _ s hs => ?_) fun _ _ _ => trivial
  obtain ⟨hconserves, hrefreshed⟩ := hs
  refine ⟨s.place, ?_, fun q hq => ?_⟩
  · rw [← hpid, ← Info.id_of_site hrefreshed.site]
    exact hd.find?_put hp hconserves.accounts
  · rw [env_put]
    rw [Place.walk_eq_preorder] at hq
    have hsettled := hrefreshed.settled
    rw [← Frame.Follows.sites hrefreshed.frames] at hsettled
    exact hsettled.preorderIn s.place.frames s.place.atom q hq

/-- In whatever document operations made, recalculating an atom leaves the number of each followed
pointer of it meaning where what it refers to stands, unless this is nothing or a rule decides the
addresses. The records in the atom must have no update rules or hold nothing that was touched. -/
theorem Reachable.inStep_recalculate {e : Document κ} (hd : Reachable d) {id : Nat} (hid : d.Live id)
    (hcalm : ∀ p, d.find? id = some p → ∀ q ∈ p.walk, q.atom.Calm)
    (hrun : (recalculate id).run d = (.ok (), e)) :
    ∃ p, e.find? id = some p ∧ ∀ q ∈ p.walk, q.InStep e.env :=
  (hd.balanced.yields_recalculate hid hcalm).of_ok hrun

end Document

/-! ## A pointer after a block -/

namespace BlockThenPointer

open Document

/-- The length of the block is the number before it. If that has an update rule, it asks for two. -/
def rules : Rules Unit where
  layout _ scope := (scope.uint "n").map .block
  bitLayout _ _ := .ok (.int 1 false)
  extent _ _ := .ok 1
  update _ _ := .ok (.unsigned 2)
  accepts _ _ _ _ := true
  distance _ n := n
  toAddress _ _ _ := .ok 0
  ofAddress _ _ _ := .ok 0

def byte : IntFormat := ⟨1, false, .little, IntFormat.u8.width_mem⟩

/-- A block of counted length, and a pointer that counts from itself. -/
def layout (update? : Option Unit) : Layout Unit :=
  .record "R" [⟨"n", .given (.int byte), none, update?⟩, ⟨"a", .computed (), none, none⟩,
    ⟨"p", .given (.pointer byte (.int byte) .selfRelative), none, none⟩]

/-- A block of one byte, and a pointer to the last byte but one. -/
def loaded (update? : Option Unit) : Document Unit :=
  ((Operation.loadNew (layout update?) "r" 0).run.run
    { env := ⟨{}, rules⟩
      sources := [.memory #[1, 0xAA, 2, 0xBB, 0xCC, 0xDD] false 0]
      source := 0 }).2

def followed (update? : Option Unit) : Document Unit :=
  ((Operation.dereference 3).run.run (loaded update?)).2

theorem reachable_followed {update? : Option Unit} (h : (loaded update?).Live 3) :
    Reachable (followed update?) := by
  have hloaded : Reachable (loaded update?) := .step (.loadNew (layout update?) "r" 0) (.empty ..) nofun
  exact .step (.dereference 3) hloaded (List.forall_mem_singleton.2 h)

/-- Where the pointer stands, and its number. -/
def pointer (d : Document Unit) : Option (Nat × Content) :=
  (d.find? 3).map fun p => (p.atom.info.offset, p.atom.content)

/-- The block gets a byte more, and so the pointer moves away from under its number. -/
def longer : Document Unit := ((Operation.assign 1 (.unsigned 2)).run.run (followed none)).2

theorem reachable_longer : Reachable longer :=
  .step (.assign 1 (.unsigned 2)) (reachable_followed (by decide +kernel))
    (List.forall_mem_singleton.2 (by decide +kernel))

/-- Nothing in the document has an update rule. -/
theorem calm_longer (p : Place Unit) (hp : longer.find? 0 = some p) (q : Place Unit) (hq : q ∈ p.walk) :
    q.atom.Calm := by
  have hplain : ((longer.find? 0).all fun p => p.walk.all fun q => !q.atom.info.layout.hasUpdates)
      = true := by
    decide +kernel
  rw [hp, Option.all_some, List.all_eq_true] at hplain
  exact .inl (by simpa using hplain q hq)

/-- The number of the pointer is brought up to date. -/
theorem inStep_of_longer_block :
    pointer longer = some (3, .pointer [2])
      ∧ pointer ((recalculate 0).run longer).2 = some (3, .pointer [1])
      ∧ ∃ p, ((recalculate 0).run longer).2.find? 0 = some p
        ∧ ∀ q ∈ p.walk, q.InStep ((recalculate 0).run longer).2.env := by
  have hlive : longer.Live 0 := by decide +kernel
  have hok : ((recalculate 0).run longer).1.toOption = some () := by decide +kernel
  exact ⟨by decide +kernel, by decide +kernel,
    reachable_longer.inStep_recalculate hlive calm_longer (run_of_toOption hok)⟩

/-- The block changes, so that the record is updated, and its length by the rule after the number of the
pointer was stored. -/
def changed : Document Unit := ((Operation.assign 2 (.bytes [0xEE])).run.run (followed (some ()))).2

theorem reachable_changed : Reachable changed :=
  .step (.assign 2 (.bytes [0xEE])) (reachable_followed (by decide +kernel))
    (List.forall_mem_singleton.2 (by decide +kernel))

/-- With an update rule the pointer may be left behind. -/
theorem not_inStep_of_update :
    Reachable changed ∧ changed.Live 0 ∧ ((recalculate 0).run changed).1.toOption = some ()
      ∧ pointer ((recalculate 0).run changed).2 = some (3, .pointer [2])
      ∧ ¬ ∃ p, ((recalculate 0).run changed).2.find? 0 = some p
        ∧ ∀ q ∈ p.walk, q.InStep ((recalculate 0).run changed).2.env := by
  have hlive : changed.Live 0 := by decide +kernel
  have hok : ((recalculate 0).run changed).1.toOption = some () := by decide +kernel
  have hlost : ((((recalculate 0).run changed).2.find? 0).all fun p =>
      p.walk.any fun q => !decide (q.InStep ((recalculate 0).run changed).2.env)) = true := by
    decide +kernel
  refine ⟨reachable_changed, hlive, hok, by decide +kernel, ?_⟩
  rintro ⟨p, hp, hall⟩
  rw [hp, Option.all_some, List.any_eq_true] at hlost
  obtain ⟨q, hq, hout⟩ := hlost
  simp [hall q hq] at hout

end BlockThenPointer

end BinaryLayout
