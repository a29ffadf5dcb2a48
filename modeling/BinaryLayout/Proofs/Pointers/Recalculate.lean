import Mathlib.Data.List.Forall2
import BinaryLayout.Proofs.Handles.Edit
import BinaryLayout.Proofs.Placement.Load
import BinaryLayout.Proofs.Pointers.Address
import BinaryLayout.Proofs.Pointers.Fresh

/-!
# Pointers after the updates

Recalculating stores the number of each followed pointer again, after it went over what is below the
pointer. If no update rule runs, nothing moves on the way: all that changes is numbers, the shared
bytes of unions and the members that are loaded again from them, which have no followed pointers, and
marks of changes. So the numbers that were stored are still right in the end.

## Main definitions

* `AtomLayout.hasUpdates`, `Atom.Calm`: a tree in which no update rule can run.
* `Reloaded`: an atom that stayed as it is, or was loaded again.
* `Atom.Settled`: all pointers of a tree are in step, inside atoms at some sites.

## Main statements

* `EditM.refreshes_recalculate`: recalculating leaves all pointers in step.
-/

namespace BinaryLayout

variable {κ : Type}

open Atom

/-! ## Atoms that are loaded again -/

/-- A field of the record has an update rule. -/
def AtomLayout.hasUpdates : AtomLayout κ → Bool
  | .bytes (.record _ fields) => fields.any fun field => field.update?.isSome
  | _ => false

/-- The atom has no update rules, or neither it nor anything below it was touched since it was
loaded, and then its rules do not run. -/
def Atom.Calm (a : Atom κ) : Prop := a.info.layout.hasUpdates = false ∨ Everywhere Fresh a

/-- The second atom is the first, or the first loaded again. -/
def Reloaded (a b : Atom κ) : Prop :=
  b = a ∨ b.info.site = a.info.site ∧ Outcome.Anew a.info.dirty ⟨b, none⟩

namespace Atom

mutual

theorem Everywhere.nested {P : Atom κ → Prop} : ∀ a : Atom κ, Everywhere P a →
    Everywhere (Everywhere P) a
  | .node _ _ parts, h => ⟨h, EverywhereIn.nested parts h.2⟩

theorem EverywhereIn.nested {P : Atom κ → Prop} : ∀ as : List (Atom κ), EverywhereIn P as →
    EverywhereIn (Everywhere P) as
  | [], _ => trivial
  | a :: as, h => ⟨Everywhere.nested a h.1, EverywhereIn.nested as h.2⟩

end

/-- Taking the mark of a change from an atom that has none. -/
theorem unmarked_of_clean {a : Atom κ} (h : a.info.dirty = false) :
    (a.mapInfo fun info => { info with dirty := false }) = a := by
  obtain ⟨info, content, parts⟩ := a
  change info.dirty = false at h
  show Atom.node { info with dirty := false } content parts = _
  rw [← h]

theorem calm_of_fresh {a : Atom κ} (h : Everywhere Fresh a) : Everywhere Calm a :=
  Everywhere.mono (fun _ => .inr) a (Everywhere.nested a h)

end Atom

namespace Reloaded

variable {a b c : Atom κ}

theorem refl (a : Atom κ) : Reloaded a a := .inl rfl

theorem site (h : Reloaded a b) : b.info.site = a.info.site := by
  rcases h with rfl | h
  · rfl
  · exact h.1

theorem trans (hab : Reloaded a b) (hbc : Reloaded b c) : Reloaded a c := by
  rcases hbc with rfl | ⟨hsite, hanew⟩
  · exact hab
  · refine .inr ⟨hsite.trans hab.site, ?_⟩
    rcases hab with rfl | ⟨-, h⟩
    · exact hanew
    · rw [(h rfl).1] at hanew
      exact hanew

theorem calm (h : Reloaded a b) (ha : Everywhere Calm a) : Everywhere Calm b := by
  rcases h with rfl | ⟨hsite, hanew⟩
  · exact ha
  · obtain ⟨hdirty, hreferent, hparts⟩ := hanew rfl
    refine everywhere_iff.2 ⟨?_, fun part hpart => calm_of_fresh (hparts part hpart)⟩
    refine ha.here.imp (fun hnone => ?_) fun hfresh => ?_
    · rw [Info.layout_of_site hsite]
      exact hnone
    · exact everywhere_iff.2 ⟨⟨hdirty.trans hfresh.here.1, hreferent⟩, hparts⟩

/-- A list of atoms, each of which stayed as it is or was loaded again, twice. -/
theorem trans_all {as bs cs : List (Atom κ)} (hab : List.Forall₂ Reloaded as bs)
    (hbc : List.Forall₂ Reloaded bs cs) : List.Forall₂ Reloaded as cs := by
  induction hab generalizing cs with
  | nil => exact hbc
  | cons h _ ih =>
    cases hbc with
    | cons h' hrest => exact .cons (h.trans h') (ih hrest)

theorem refl_all (as : List (Atom κ)) : List.Forall₂ Reloaded as as :=
  List.forall₂_same.2 fun a _ => .refl a

/-- Each atom of the second list came from one of the first. -/
theorem forall_mem {P Q : Atom κ → Prop} {as bs : List (Atom κ)} (h : List.Forall₂ Reloaded as bs)
    (hP : ∀ a ∈ as, P a) (hPQ : ∀ a b, Reloaded a b → P a → Q b) : ∀ b ∈ bs, Q b := by
  induction h with
  | nil => exact nofun
  | cons hab _ ih =>
    rw [List.forall_mem_cons] at hP ⊢
    exact ⟨hPQ _ _ hab hP.1, ih hP.2⟩

end Reloaded

/-- Around a gap, the atom stays at its site, and other parts stay as they are or are loaded again. -/
structure Frame.Follows (f g : Frame κ) : Prop where
  site : g.info.site = f.info.site
  left : List.Forall₂ Reloaded f.left g.left
  right : List.Forall₂ Reloaded f.right g.right

namespace Frame.Follows

variable {f g h : Frame κ}

theorem refl (f : Frame κ) : f.Follows f := ⟨rfl, Reloaded.refl_all _, Reloaded.refl_all _⟩

theorem trans (hfg : f.Follows g) (hgh : g.Follows h) : f.Follows h :=
  ⟨hgh.site.trans hfg.site, Reloaded.trans_all hfg.left hgh.left, Reloaded.trans_all hfg.right hgh.right⟩

theorem refl_all (fs : List (Frame κ)) : List.Forall₂ Frame.Follows fs fs :=
  List.forall₂_same.2 fun f _ => .refl f

theorem trans_all {fs gs hs : List (Frame κ)} (hfg : List.Forall₂ Frame.Follows fs gs)
    (hgh : List.Forall₂ Frame.Follows gs hs) : List.Forall₂ Frame.Follows fs hs := by
  induction hfg generalizing hs with
  | nil => exact hgh
  | cons h _ ih =>
    cases hgh with
    | cons h' hrest => exact .cons (h.trans h') (ih hrest)

theorem sites {fs gs : List (Frame κ)} (h : List.Forall₂ Frame.Follows fs gs) :
    Frame.sites gs = Frame.sites fs := by
  induction h with
  | nil => rfl
  | cons hfg _ ih =>
    rw [Frame.sites, Frame.sites, List.map_cons, List.map_cons, hfg.site]
    exact congrArg _ ih

end Frame.Follows

section Surroundings

variable {env : Env κ}

theorem reloaded_reloadMembers (frames : List (Frame κ)) (info : Info κ) (backing : Bytes) (kept : Nat)
    (left as : List (Atom κ)) (l : Ledger κ) :
    Ends (reloadMembers env frames info backing kept left as) l fun out _ =>
      out.error? = none → List.Forall₂ Reloaded as out.parts := by
  induction as generalizing left l with
  | nil => exact Ends.pure fun _ => .nil
  | cons a as ih =>
    have hmember : Ends (reloadMember env frames ⟨info, .overlay backing, left, as⟩ backing kept a) l
        fun out _ => out.error? = none → Reloaded a out.atom := by
      rw [reloadMember]
      split
      · exact Ends.pure fun _ => .refl a
      · refine LedgerM.ends_fromBytes (((laid_load env _ _ a _).and (anew_load env _ _ a _)).mono ?_)
        exact fun out _ h herror => .inr ⟨(h.1 herror).2, fun _ => h.2 herror⟩
    rw [reloadMembers_cons]
    refine hmember.bind fun out m hout => ?_
    split
    · exact Ends.pure fun h => by cases h
    · rename_i herror
      refine (ih (out.atom :: left) m).bind fun later n hlater => Ends.pure fun hnone => ?_
      exact .cons (hout herror) (hlater hnone)

/-- Unions around an atom take on its bytes. -/
theorem follows_syncUnions (a : Atom κ) (frames : List (Frame κ)) (l : Ledger κ) :
    Ends (syncUnions env a frames) l fun out _ =>
      out.error? = none → List.Forall₂ Frame.Follows frames out.frames := by
  induction frames generalizing a l with
  | nil => exact Ends.pure fun _ => .nil
  | cons f frames ih =>
    rw [syncUnions]
    split
    · exact Ends.pure fun _ => Frame.Follows.refl_all _
    · refine (reloaded_reloadMembers _ _ _ _ _ _ l).bind fun out m hout => ?_
      dsimp only
      split
      · exact Ends.pure fun h => by cases h
      · rename_i herror
        have hparts := hout herror
        rw [Frame.parts_plug] at hparts
        have hleft := List.forall₂_take f.left.length hparts
        have hright := List.forall₂_drop (f.left.length + 1) hparts
        rw [← List.length_reverse, List.take_left, ← List.reverse_reverse (List.take _ _),
          List.forall₂_reverse_iff] at hleft
        rw [List.drop_append, List.drop_of_length_le (by simp), List.length_reverse,
          Nat.add_sub_cancel_left, List.drop_succ_cons, List.drop_zero, List.nil_append] at hright
        refine (ih _ m).bind fun outer n houter => Ends.pure fun hnone => ?_
        refine .cons ⟨rfl, ?_, hright⟩ (houter hnone)
        rw [List.length_reverse] at hleft
        exact hleft
    · refine (ih _ l).bind fun outer n houter => Ends.pure fun hnone => ?_
      exact .cons (.refl f) (houter hnone)

theorem follows_markDirty (frames : List (Frame κ)) :
    List.Forall₂ Frame.Follows frames (markDirty frames) := by
  induction frames with
  | nil => exact .nil
  | cons f frames ih =>
    rw [markDirty]
    split
    · exact Frame.Follows.refl_all _
    · exact .cons ⟨rfl, Reloaded.refl_all _, Reloaded.refl_all _⟩ ih

end Surroundings

/-! ## Trees whose pointers are in step -/

mutual

/-- The pointers of a tree are in step wherever the atoms around it stand at the sites `outer`. -/
def Atom.Settled (env : Env κ) (outer : List (Info κ)) : Atom κ → Prop
  | .node info content parts =>
    (∀ frames, Frame.sites frames = outer → Place.InStep env ⟨.node info content parts, frames⟩)
      ∧ Atom.AllSettled env (info.site :: outer) parts

def Atom.AllSettled (env : Env κ) (outer : List (Info κ)) : List (Atom κ) → Prop
  | [] => True
  | a :: as => Atom.Settled env outer a ∧ Atom.AllSettled env outer as

end

namespace Atom

variable {env : Env κ} {outer : List (Info κ)}

theorem allSettled_iff {as : List (Atom κ)} : AllSettled env outer as ↔ ∀ a ∈ as, a.Settled env outer := by
  induction as with
  | nil => simp [AllSettled]
  | cons a as ih => simp [AllSettled, ih]

theorem settled_iff {a : Atom κ} : a.Settled env outer ↔
    (∀ frames, Frame.sites frames = outer → Place.InStep env ⟨a, frames⟩)
      ∧ ∀ part ∈ a.parts, part.Settled env (a.info.site :: outer) := by
  obtain ⟨info, content, parts⟩ := a
  simp only [Settled, allSettled_iff, parts_node, info_node]

/-- A pointer in step somewhere is in step wherever the atoms around it stand alike. -/
theorem settled_of_inStep {a : Atom κ} {frames : List (Frame κ)}
    (h : Place.InStep env ⟨a, frames⟩)
    (hparts : ∀ part ∈ a.parts, part.Settled env (a.info.site :: Frame.sites frames)) :
    a.Settled env (Frame.sites frames) := by
  refine settled_iff.2 ⟨fun others hsites => h.of_sites ?_ rfl rfl, hparts⟩
  rw [Place.sites, Place.sites, hsites]

mutual

theorem settled_of_fresh : ∀ (outer : List (Info κ)) (a : Atom κ), Everywhere Fresh a →
    a.Settled env outer
  | outer, .node info _ parts, h =>
    ⟨fun _ _ => Place.inStep_of_referent? h.1.2, allSettled_of_fresh (info.site :: outer) parts h.2⟩

theorem allSettled_of_fresh : ∀ (outer : List (Info κ)) (as : List (Atom κ)), EverywhereIn Fresh as →
    AllSettled env outer as
  | _, [], _ => trivial
  | outer, a :: as, h => ⟨settled_of_fresh outer a h.1, allSettled_of_fresh outer as h.2⟩

end

/-- An atom that stayed as it is or was loaded again. -/
theorem Settled.reloaded {a b : Atom κ} (ha : a.Settled env outer) (h : Reloaded a b) :
    b.Settled env outer := by
  rcases h with rfl | ⟨-, hanew⟩
  · exact ha
  · obtain ⟨-, hreferent, hparts⟩ := hanew rfl
    exact settled_iff.2 ⟨fun _ _ => Place.inStep_of_referent? hreferent,
      fun part hpart => settled_of_fresh _ part (hparts part hpart)⟩

mutual

theorem Settled.preorderIn : ∀ (frames : List (Frame κ)) (a : Atom κ),
    a.Settled env (Frame.sites frames) → ∀ q ∈ Place.preorderIn frames a, q.InStep env
  | frames, .node info content parts, h => by
    rw [Place.preorderIn]
    refine List.forall_mem_cons.2 ⟨h.1 frames rfl, ?_⟩
    exact AllSettled.preorderParts frames info content [] parts h.2

theorem AllSettled.preorderParts (frames : List (Frame κ)) (info : Info κ) (content : Content) :
    ∀ (left as : List (Atom κ)), AllSettled env (info.site :: Frame.sites frames) as →
      ∀ q ∈ Place.preorderParts frames info content left as, q.InStep env
  | _, [], _ => nofun
  | left, a :: as, h => by
    rw [Place.preorderParts]
    refine List.forall_mem_append.2 ⟨?_, ?_⟩
    · exact Settled.preorderIn (⟨info, content, left, as⟩ :: frames) a h.1
    · exact AllSettled.preorderParts frames info content (a :: left) as h.2

end

end Atom

/-! ## Edits -/

/-- What recalculating an atom leaves: the atoms around it stayed where they are, and so did the
other parts of these unless they were loaded again; and the pointers of the atom are in step. -/
structure Refreshed (env : Env κ) (s t : Workplace κ) : Prop where
  frames : List.Forall₂ Frame.Follows s.place.frames t.place.frames
  site : t.place.atom.info.site = s.place.atom.info.site
  settled : t.place.atom.Settled env (Frame.sites s.place.frames)
  /-- Nothing happens to atoms that were not touched. -/
  rests : Everywhere Fresh s.place.atom → t = s

namespace EditM

variable {env : Env κ} {s : Workplace κ}

/-- The edit succeeds only so that the pointers of the atom are in step. -/
def Refreshes (env : Env κ) (s : Workplace κ) (m : EditM κ Unit) : Prop :=
  Yields m s (fun _ t => Refreshed env s t) fun _ _ => True

/-- A record without update rules stays as it is. -/
theorem rests_updateFields (fields : List (Field κ (Layout κ))) (index : Nat) {s : Workplace κ}
    (h : (fields.any fun field => field.update?.isSome) = false) :
    Yields (updateFields env index fields) s (fun _ t => t = s) fun _ _ => True := by
  induction fields generalizing index with
  | nil => exact Yields.pure rfl
  | cons field fields ih =>
    rw [List.any_cons, Bool.or_eq_false_iff] at h
    rw [updateFields]
    refine (yields_place s).bind fun p t ht => ?_
    obtain ⟨rfl, rfl⟩ := ht
    have hnone : field.update? = none := by simpa using h.1
    rw [hnone]
    exact ih (index + 1) h.2

/-- A followed pointer's number stored again. -/
structure Rewired (env : Env κ) (s t : Workplace κ) : Prop where
  frames : List.Forall₂ Frame.Follows s.place.frames t.place.frames
  info : t.place.atom.info = s.place.atom.info
  parts : t.place.atom.parts = s.place.atom.parts
  inStep : t.place.InStep env
  rests : s.place.atom.referent? = none → t = s

/-- The number that a pointer in step has. -/
theorem inStep_rewired {p : Place κ} {raw : Bytes} (h : refreshedWire env p = .ok (some raw))
    {frames : List (Frame κ)} (hsites : Frame.sites frames = Frame.sites p.frames) :
    Place.InStep env ⟨p.atom.fill (.pointer raw) p.atom.parts, frames⟩ := by
  obtain ⟨pointer, referent, wire, hpointer, hreferent, hwire, hraw⟩ := of_refreshedWire h
  obtain ⟨-, others, hparts⟩ := content_of_referent? hreferent
  intro pointer' number referent' hpointer' hplain hnumber hreferent' _ hword
  cases hpointer.symm.trans hpointer'
  cases hnumber
  have hsame : referent' = referent := by
    rw [hparts] at hreferent'
    exact (Option.some.inj hreferent').symm
  subst hsame
  have hplace : Place.sites ⟨p.atom.fill (.pointer raw) p.atom.parts, frames⟩ = p.sites := by
    rw [Place.sites, Place.sites, hsites, info_fill]
  rw [Env.address_of_sites hplain hplace]
  exact Env.address_of_wireFor hplain hwire hraw hword

/-- A pointer whose number is left alone is in step if its addresses are decided by offsets. -/
theorem inStep_of_unrefreshed {p : Place κ} (h : refreshedWire env p = .ok none) : p.InStep env := by
  intro pointer wire referent hpointer hplain _ hreferent hnull _
  have hinvertible : pointer.policy.isInvertible = true := by
    revert hplain
    cases pointer.policy <;> first | exact fun _ => rfl | exact nofun
  rw [refreshedWire, hreferent] at h
  simp only [hpointer, bind, Except.bind, hinvertible, hnull, Bool.not_true, Bool.or_self,
    Bool.false_eq_true, if_false] at h
  split at h
  · cases h
  · split at h <;> cases h

theorem rewires_refreshWire (s : Workplace κ) :
    Yields (refreshWire env) s (fun _ t => Rewired env s t) fun _ _ => True := by
  refine (yields_place s).bind fun p t ht => ?_
  obtain ⟨rfl, rfl⟩ := ht
  refine Yields.via (fun raw? u => u = t ∧ refreshedWire env t.place = .ok raw?) ?_
    fun raw? u hu => ?_
  · exact yields_ofExcept (fun _ h => ⟨rfl, h⟩) fun _ _ => trivial
  obtain ⟨rfl, hraw⟩ := hu
  cases raw? with
  | none => exact Yields.pure ⟨Frame.Follows.refl_all _, rfl, rfl, inStep_of_unrefreshed hraw, fun _ => rfl⟩
  | some raw =>
    obtain ⟨_, referent, _, -, hreferent, -⟩ := of_refreshedWire hraw
    have hfollowed (h : u.place.atom.referent? = none) : False := by
      rw [h] at hreferent
      cases hreferent
    dsimp only
    split
    · refine Yields.via (fun _ v => v = { u with
          place := ⟨u.place.atom.fill (.pointer raw) u.place.atom.parts, u.place.frames⟩ })
        (yields_setAtom rfl) fun _ v hv => ?_
      subst hv
      refine Yields.via (fun _ w => w.place.atom = u.place.atom.fill (.pointer raw) u.place.atom.parts
        ∧ List.Forall₂ Frame.Follows u.place.frames w.place.frames) (yields_around ?_) fun _ w hw => ?_
      · exact (follows_syncUnions _ _ _).mono fun out l h => ⟨fun herror => ⟨rfl, h herror⟩,
          fun _ _ => trivial⟩
      obtain ⟨hatom, hframes⟩ := hw
      have hall := Frame.Follows.trans_all hframes (follows_markDirty w.place.frames)
      refine Yields.modified ⟨hall, ?_, ?_, ?_, fun h => (hfollowed h).elim⟩
      · rw [hatom, info_fill]
      · rw [hatom, parts_fill]
      · rw [hatom]
        exact inStep_rewired hraw (Frame.Follows.sites hall)
    · rename_i hsame
      have hcontent : u.place.atom.content = .pointer raw := Decidable.of_not_not hsame
      have hatom : u.place.atom.fill (.pointer raw) u.place.atom.parts = u.place.atom := by
        rw [← hcontent]
        cases u.place.atom
        rfl
      have hstep := inStep_rewired hraw (rfl : Frame.sites u.place.frames = _)
      rw [hatom] at hstep
      exact Yields.pure ⟨Frame.Follows.refl_all _, rfl, rfl, hstep, fun _ => rfl⟩

/-! ## Parts in order -/

/-- An edit of siblings in order, one that keeps `before` and `after` each of them. They are told how
many siblings are still to come. -/
theorem yields_alongSiblings {m : EditM κ Unit} (before after : Nat → Workplace κ → Prop)
    (hm : ∀ n s, before n s → Yields m s (fun _ t => after n t) fun _ _ => True)
    (hnext : ∀ n s, after (n + 1) s → ∃ q, s.place.next? = some q ∧ before n { s with place := q })
    (hlast : ∀ s, after 0 s → s.place.next? = none) (n : Nat) {s : Workplace κ} (hs : before n s) :
    Yields (alongSiblings m (n + 1)) s (fun _ t => after 0 t) fun _ _ => True := by
  induction n generalizing s with
  | zero =>
    rw [alongSiblings]
    refine (yields_place s).bind fun p t ht => ?_
    obtain ⟨rfl, rfl⟩ := ht
    refine Yields.bind (yields_within _ (hm 0 t hs)) fun _ u hu => ?_
    refine (yields_place u).bind fun p v hv => ?_
    obtain ⟨rfl, rfl⟩ := hv
    rw [hlast v hu]
    exact Yields.pure hu
  | succ n ih =>
    rw [alongSiblings]
    refine (yields_place s).bind fun p t ht => ?_
    obtain ⟨rfl, rfl⟩ := ht
    refine Yields.bind (yields_within _ (hm (n + 1) t hs)) fun _ u hu => ?_
    refine (yields_place u).bind fun p v hv => ?_
    obtain ⟨rfl, rfl⟩ := hv
    obtain ⟨q, hq, hbefore⟩ := hnext n v hu
    rw [hq]
    exact Yields.via (fun _ w => w = { v with place := q }) (Yields.modified rfl) fun _ w hw =>
      ih (hw ▸ hbefore)

/-- Among the parts of an atom, with `n` still to come: those before the one at the place are in step
already. -/
structure Among (env : Env κ) (s : Workplace κ) (n : Nat) (t : Workplace κ) : Prop where
  around : ∃ f frames, t.place.frames = f :: frames ∧ f.right.length = n
    ∧ f.info.site = s.place.atom.info.site ∧ List.Forall₂ Frame.Follows s.place.frames frames
    ∧ (∀ part ∈ f.left, part.Settled env s.place.sites) ∧ ∀ part ∈ f.right, Everywhere Calm part
  rests : Everywhere Fresh s.place.atom → t.ledger = s.ledger ∧ t.place.up? = some s.place

namespace Among

variable {n : Nat} {t u : Workplace κ}

/-- The part at the place was gone over. -/
theorem refreshed (h : Among env s n t) (hu : Refreshed env t u) :
    Among env s n u ∧ u.place.atom.Settled env s.place.sites := by
  obtain ⟨⟨f, frames, hframes, hlength, hsite, hfollows, hleft, hright⟩, hrests⟩ := h
  have hnew := hu.frames
  have hsettled := hu.settled
  have hsites : Frame.sites (f :: frames) = s.place.sites := by
    rw [Place.sites, ← Frame.Follows.sites hfollows, ← hsite]
    rfl
  rw [hframes, hsites] at hsettled
  rw [hframes] at hnew
  refine ⟨⟨?_, fun hfresh => ?_⟩, hsettled⟩
  · generalize hothers : u.place.frames = others at hnew
    cases hnew with
    | cons hf hrest =>
      rename_i g frames'
      refine ⟨g, frames', rfl, hf.right.length_eq.symm.trans hlength, hf.site.trans hsite,
        Frame.Follows.trans_all hfollows hrest, ?_, ?_⟩
      · exact Reloaded.forall_mem hf.left hleft fun _ _ hab ha => ha.reloaded hab
      · exact Reloaded.forall_mem hf.right hright fun _ _ hab ha => hab.calm ha
  · obtain ⟨hledger, hup⟩ := hrests hfresh
    have hpart : Everywhere Fresh t.place.atom := by
      rw [Place.up?, hframes] at hup
      have hwhole : f.plug t.place.atom = s.place.atom := congrArg Place.atom (Option.some.inj hup)
      rw [← hwhole] at hfresh
      exact (everywhere_plug.1 hfresh).2.2.1
    rw [hu.rests hpart]
    exact ⟨hledger, hup⟩

/-- On to the next part. -/
theorem next (h : Among env s (n + 1) t) (hdone : t.place.atom.Settled env s.place.sites) :
    ∃ q, t.place.next? = some q ∧ Among env s n { t with place := q } ∧ Everywhere Calm q.atom := by
  obtain ⟨⟨⟨info, content, left, right⟩, frames, hframes, hlength, hsite, hfollows, hleft, hright⟩,
    hrests⟩ := h
  cases right with
  | nil => cases hlength
  | cons part right =>
    rw [List.forall_mem_cons] at hright
    have hnext : t.place.next? = some
        ⟨part, ⟨info, content, t.place.atom :: left, right⟩ :: frames⟩ := by
      rw [Place.next?, hframes]
    refine ⟨_, hnext, ⟨⟨_, frames, rfl, Nat.succ.inj hlength, hsite, hfollows, ?_, hright.2⟩, ?_⟩, hright.1⟩
    · exact List.forall_mem_cons.2 ⟨hdone, hleft⟩
    · intro hfresh
      obtain ⟨hledger, hup⟩ := hrests hfresh
      exact ⟨hledger, (Place.up?_next? hnext).trans hup⟩

theorem last (h : Among env s 0 t) : t.place.next? = none := by
  obtain ⟨⟨f, frames, hframes, hlength, -⟩, -⟩ := h
  rw [Place.next?, hframes]
  dsimp only
  rw [List.length_eq_zero_iff.1 hlength]

end Among

/-- What going over the parts of an atom leaves. -/
structure PartsRefreshed (env : Env κ) (s t : Workplace κ) : Prop where
  frames : List.Forall₂ Frame.Follows s.place.frames t.place.frames
  site : t.place.atom.info.site = s.place.atom.info.site
  parts : ∀ part ∈ t.place.atom.parts, part.Settled env s.place.sites
  rests : Everywhere Fresh s.place.atom → t = s

/-- Back from the last part. -/
theorem Among.outwards {t : Workplace κ} (h : Among env s 0 t)
    (hdone : t.place.atom.Settled env s.place.sites) :
    PartsRefreshed env s { t with place := t.place.up?.getD t.place } := by
  obtain ⟨⟨f, frames, hframes, hlength, hsite, hfollows, hleft, -⟩, hrests⟩ := h
  have hup : t.place.up? = some ⟨f.plug t.place.atom, frames⟩ := by rw [Place.up?, hframes]
  rw [hup, Option.getD_some]
  refine ⟨hfollows, hsite, fun part hpart => ?_, fun hfresh => ?_⟩
  · rw [Frame.parts_plug, List.length_eq_zero_iff.1 hlength, List.mem_append, List.mem_reverse,
      List.mem_singleton] at hpart
    rcases hpart with hpart | rfl
    · exact hleft part hpart
    · exact hdone
  · obtain ⟨hledger, hsame⟩ := hrests hfresh
    rw [hup, Option.some.injEq] at hsame
    rw [hledger, hsame]

theorem refreshes_eachPart {m : EditM κ Unit}
    (hm : ∀ t : Workplace κ, Everywhere Calm t.place.atom → Refreshes env t m)
    (hs : Everywhere Calm s.place.atom) :
    Yields (eachPart m) s (fun _ t => PartsRefreshed env s t) fun _ _ => True := by
  refine (yields_atom s).bind fun a t ht => ?_
  obtain ⟨rfl, rfl⟩ := ht
  refine yields_atPart (fun hnone => ?_) fun p hdown => ?_
  · refine ⟨Frame.Follows.refl_all _, rfl, fun part hpart => ?_, fun _ => rfl⟩
    rw [Place.down?, List.drop_zero] at hnone
    split at hnone
    · rename_i hnil
      rw [hnil] at hpart
      cases hpart
    · cases hnone
  · have hup := Place.up?_down? hdown
    rw [Place.down?, List.drop_zero] at hdown
    split at hdown
    · cases hdown
    · rename_i part right hparts
      cases hdown
      have hcalm := (everywhere_iff.1 hs).2
      rw [hparts, List.forall_mem_cons] at hcalm
      have hfirst : Among env t right.length { t with place :=
          ⟨part, ⟨t.place.atom.info, t.place.atom.content, (t.place.atom.parts.take 0).reverse, right⟩
            :: t.place.frames⟩ } :=
        ⟨⟨_, _, rfl, rfl, rfl, Frame.Follows.refl_all _, nofun, hcalm.2⟩, fun _ => ⟨rfl, hup⟩⟩
      rw [hparts]
      have hloop := yields_alongSiblings
        (fun n u => Among env t n u ∧ Everywhere Calm u.place.atom)
        (fun n u => Among env t n u ∧ u.place.atom.Settled env t.place.sites)
        (fun n u hu => (hm u hu.2).mono (fun _ v hv => hu.1.refreshed hv) fun _ _ h => h)
        (fun n u hu => hu.1.next hu.2) (fun u hu => hu.1.last) right.length ⟨hfirst, hcalm.1⟩
      exact hloop.mono (fun _ u hu => hu.1.outwards hu.2) fun _ _ h => h

/-! ## Recalculating -/

/-- The parts of the atom were gone over, its number was stored again, and its mark was taken. -/
theorem PartsRefreshed.rewired {t u : Workplace κ} (ht : PartsRefreshed env s t) (hu : Rewired env t u) :
    Refreshed env s { u with
      place := ⟨u.place.atom.mapInfo fun info => { info with dirty := false }, u.place.frames⟩ } := by
  have hframes := Frame.Follows.trans_all ht.frames hu.frames
  have hsite : (u.place.atom.mapInfo fun info => { info with dirty := false }).info.site
      = s.place.atom.info.site := by
    rw [info_mapInfo, hu.info]
    exact ht.site
  have hsites := Frame.Follows.sites hframes
  refine ⟨hframes, hsite, ?_, fun hfresh => ?_⟩
  · rw [← hsites]
    refine settled_of_inStep (hu.inStep.of_sites ?_ (content_mapInfo ..) (parts_mapInfo ..))
      fun part hpart => ?_
    · rw [Place.sites, Place.sites, info_mapInfo]
      rfl
    · rw [parts_mapInfo, hu.parts] at hpart
      rw [hsite, hsites]
      exact ht.parts part hpart
  · obtain rfl := ht.rests hfresh
    obtain ⟨hdirty, hreferent⟩ := hfresh.here
    obtain rfl := hu.rests hreferent
    rw [unmarked_of_clean hdirty]

theorem refreshes_recalculateTo (depth : Nat) {s : Workplace κ} (hs : Everywhere Calm s.place.atom) :
    Refreshes env s (recalculateTo env depth) := by
  induction depth generalizing s with
  | zero => exact Yields.throw trivial
  | succ depth ih =>
    rw [recalculateTo]
    refine Yields.bind (refreshes_eachPart (fun t ht => ih ht) hs) fun _ t ht => ?_
    refine (yields_atom t).bind fun a u hu => ?_
    obtain ⟨rfl, rfl⟩ := hu
    have hrest : Yields (do
        refreshWire env
        setAtom ((← atom).mapInfo fun info => { info with dirty := false })) u
        (fun _ w => Refreshed env s w) fun _ _ => True := by
      refine Yields.bind (rewires_refreshWire u) fun _ v hv => ?_
      refine (yields_atom v).bind fun a w hw => ?_
      obtain ⟨rfl, rfl⟩ := hw
      exact yields_setAtom (ht.rewired hv)
    split
    · rename_i name fields hdirty hlayout
      -- A record that was changed has no rules: nothing of one that is fresh was changed.
      have hnone : (fields.any fun field => field.update?.isSome) = false := by
        rcases hs.here with hnone | hfresh
        · rw [← Info.layout_of_site ht.site, hlayout] at hnone
          exact hnone
        · obtain rfl := ht.rests hfresh
          rw [hfresh.here.1] at hdirty
          cases hdirty
      exact Yields.via (fun _ v => v = u) (rests_updateFields fields 0 hnone) fun _ v hv => hv ▸ hrest
    · exact hrest

/-- Where no update rule runs, recalculating leaves every pointer of the atom in step. -/
theorem refreshes_recalculate {s : Workplace κ} (hs : Everywhere Calm s.place.atom) :
    Refreshes env s (recalculate env) := by
  refine (yields_atom s).bind fun a t ht => ?_
  obtain ⟨rfl, rfl⟩ := ht
  exact refreshes_recalculateTo _ hs

end EditM

end BinaryLayout
