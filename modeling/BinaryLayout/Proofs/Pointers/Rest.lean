import BinaryLayout.Proofs.Placement.Document
import BinaryLayout.Proofs.Pointers.Inverse
import BinaryLayout.Proofs.Pointers.Recalculate

/-!
# Trees that stay as they were read

In a tree that was read, and whose pointers were followed since at most, nothing is marked as changed and
every followed pointer is in step. So recalculating it runs no update rule, and it finds for every pointer
the number that the pointer has, if numbers are found again at all: a policy may count addresses by a rule
that is not inverted, and a number may be one that 128 bits with a sign do not hold. Then nothing happens.

## Main definitions

* `Atom.AsRead`: a tree that was read.
* `Place.Regains`: what it takes for the number of a pointer to be found again.
* `EditM.Rests`: an edit that succeeds and does nothing.

## Main statements

* `followPointer_asRead`: following a pointer leaves the tree as it was read.
* `EditM.rests_recalculate`: recalculating such a tree does nothing.
-/

namespace BinaryLayout

variable {κ : Type}

open Atom

/-! ## Parts of pointers -/

namespace Atom

/-- What fills the gap matters to the atom around it only as far as it is a referent. -/
theorem referent?_plug {x y : Atom κ} (hinfo : y.info = x.info) (f : Frame κ) :
    (f.plug y).referent?.map Atom.info = (f.plug x).referent?.map Atom.info := by
  obtain ⟨info, content, left, right⟩ := f
  cases content
  case pointer wire =>
    simp only [Frame.plug, List.reverseAux_eq]
    cases left.reverse with
    | nil => exact congrArg some hinfo
    | cons first rest => rfl
  all_goals rfl

end Atom

namespace Place

variable {p q : Place κ}

/-- The place of what a pointer refers to. -/
theorem exists_referent {referent : Atom κ} (h : p.atom.referent? = some referent) :
    ∃ q ∈ p.parts, q.atom = referent := by
  obtain ⟨-, others, hparts⟩ := EditM.content_of_referent? h
  obtain ⟨⟨info, content, parts⟩, frames⟩ := p
  replace hparts : parts = referent :: others := hparts
  subst hparts
  exact ⟨_, List.mem_cons_self, rfl⟩

end Place

/-! ## Trees that are in step as wholes -/

namespace Atom.Settled

variable {env : Env κ} {frames : List (Frame κ)} {x y : Atom κ}

/-- What is in step in a whole is in step in its innermost atom. -/
theorem of_assemble (h : (Place.assemble x frames).Settled env []) : x.Settled env (Frame.sites frames) := by
  induction frames generalizing x with
  | nil => exact h
  | cons f frames ih =>
    have hplug := (settled_iff.1 (ih h)).2 x (by rw [Frame.parts_plug]; simp)
    rwa [Frame.info_plug] at hplug

theorem inStep_place {p : Place κ} (h : p.root.atom.Settled env []) : p.InStep env :=
  (settled_iff.1 h.of_assemble).1 p.frames rfl

/-- An atom in step takes the place of another one that stands where it does. -/
theorem assemble_of (hinfo : y.info = x.info) (hy : y.Settled env (Frame.sites frames))
    (h : (Place.assemble x frames).Settled env []) : (Place.assemble y frames).Settled env [] := by
  induction frames generalizing x y with
  | nil => exact hy
  | cons f frames ih =>
    have hplug : (f.plug x).Settled env (Frame.sites frames) := of_assemble h
    obtain ⟨hstep, hparts⟩ := settled_iff.1 hplug
    rw [Frame.info_plug, Frame.parts_plug] at hparts
    refine ih (x := f.plug x) (by rw [Frame.info_plug, Frame.info_plug])
      (settled_iff.2 ⟨fun others hothers => ?_, fun part hpart => ?_⟩) h
    · refine (hstep others hothers).of_referent ?_ ?_ (referent?_plug hinfo f)
      · rw [Place.sites, Place.sites, Frame.info_plug, Frame.info_plug]
      · rw [Frame.content_plug, Frame.content_plug]
    · rw [Frame.info_plug]
      rw [Frame.parts_plug, List.mem_append, List.mem_cons] at hpart
      rcases hpart with hpart | rfl | hpart
      · exact hparts part (List.mem_append_left _ hpart)
      · exact hy
      · exact hparts part (List.mem_append_right _ (List.mem_cons_of_mem _ hpart))

end Atom.Settled

/-! ## Trees that were read -/

/-- Nothing in the tree was changed since it was read, and its pointers refer to where their numbers say. -/
structure Atom.AsRead (a : Atom κ) : Prop where
  clean : Everywhere (fun b => b.info.dirty = false) a
  laid : Everywhere LaidOut a
  settled : ∀ env, a.Settled env []

theorem Atom.asRead_of_fresh {a : Atom κ} (hfresh : Everywhere Fresh a) (hlaid : Everywhere LaidOut a) :
    a.AsRead :=
  ⟨hfresh.mono fun _ h => h.1, hlaid, fun _ => settled_of_fresh _ a hfresh⟩

/-- What was loaded into an atom that was not marked. -/
theorem Atom.asRead_of_load {env : Env κ} {depth : Nat} {a : Atom κ} {s t : LoadState κ} {out : Outcome κ}
    (hclean : a.info.dirty = false) (hload : load env depth [] a s = (out, t)) (herror : out.error? = none) :
    out.atom.AsRead := by
  have hanew := anew_load env depth [] a s
  have hlaid := laid_load env depth [] a s
  rw [Ends, hload] at hanew hlaid
  rw [hclean] at hanew
  exact asRead_of_fresh (fresh_of_anew hanew herror) (hlaid herror).1

/-- Without rules, the rules do not matter. -/
theorem Env.address_of_plain {policy : AddressPolicy κ} (hplain : policy.isPlain = true) (env env' : Env κ)
    (p : Place κ) (wire : Int) : env.address policy p wire = env'.address policy p wire := by
  cases policy with
  | absolute | relative | selfRelative => rfl
  | mapped => cases hplain
  | computed => cases hplain

/-- What a pointer refers to was just loaded, and from where its number says. -/
theorem fresh_loadReferent (env : Env κ) (p : Place κ) (s : LoadState κ) :
    Ends (loadReferent env p) s fun result _ => ∀ a, result = .ok a → Everywhere Fresh a
      ∧ ∀ pointer wire, pointerAt p.atom = .ok pointer → wireOf pointer p.atom = .ok wire →
        a.info.null = false → env.address pointer.policy p wire = .ok a.info.offset := by
  rw [loadReferent]
  split
  · exact Ends.pure fun _ h => by cases h
  · refine ((LoadM.ends_spawn _ _ _ s).and (LoadM.fresh_spawn _ _ _ s)).bind fun a t ha => ?_
    obtain ⟨⟨hblank, -⟩, hclean⟩ := ha
    refine Ends.pure fun b hb => ?_
    cases hb
    have hparts := hblank.parts
    obtain ⟨info, content, parts⟩ := a
    cases hparts
    exact ⟨everywhere_iff.2 ⟨⟨hclean, referent?_of_parts rfl⟩, fun _ h => by cases h⟩,
      fun _ _ _ _ h => by cases h⟩
  · rename_i pointer address hfound
    refine ((LoadM.ends_spawn _ _ _ s).and (LoadM.fresh_spawn _ _ _ s)).bind fun blank t hblank => ?_
    obtain ⟨⟨hempty, -, hoffset, -⟩, hclean⟩ := hblank
    refine ((accounted_load env Layout.nestingLimit _ _ t hempty).and (anew_load env _ _ blank t)).bind
      fun out u hout => ?_
    obtain ⟨haccounts, hanew⟩ := hout
    split
    · rename_i herror
      refine Ends.pure fun a ha => ?_
      cases ha
      rw [hclean] at hanew
      refine ⟨fresh_of_anew hanew herror, fun pointer' wire hpointer hwire _ => ?_⟩
      rw [Info.offset_of_site haccounts.site, hoffset]
      simp only [hpointer, hwire, bind, Except.bind] at hfound
      split at hfound
      · cases hfound
      · cases haddress : env.address pointer'.policy p wire with
        | error e =>
          rw [haddress] at hfound
          cases hfound
        | ok n =>
          rw [haddress] at hfound
          cases hfound
          rfl
    · exact (Ends.trivial _ u).bind fun _ _ _ => Ends.pure fun _ h => by cases h

/-- A pointer in a tree that was read, with what it refers to. -/
theorem Atom.AsRead.push {p : Place κ} (hp : p.root.atom.AsRead) {wire : Bytes}
    (hcontent : p.atom.content = .pointer wire) (hparts : p.atom.parts = []) {r : Atom κ}
    (hfresh : Everywhere Fresh r)
    (hstep : ∀ (env : Env κ) pointer number, pointerAt p.atom = .ok pointer → pointer.policy.isPlain = true →
      wireOf pointer p.atom = .ok number → r.info.null = false →
        env.address pointer.policy p number = .ok r.info.offset)
    (hlaid : Everywhere LaidOut (Place.root ⟨p.atom.push r, p.frames⟩).atom) :
    (Place.root ⟨p.atom.push r, p.frames⟩).atom.AsRead := by
  have hnew : (p.atom.push r).parts = [r] := by rw [parts_push, hparts, List.nil_append]
  have hreferent : (p.atom.push r).referent? = some r := by
    obtain ⟨⟨info, content, parts⟩, frames⟩ := p
    cases hcontent
    cases hparts
    rfl
  refine ⟨?_, hlaid, fun env => Settled.assemble_of (info_push _ _) ?_ (hp.settled env)⟩
  · have hatom : Everywhere (fun b => b.info.dirty = false) p.atom := hp.clean.of_assemble
    refine everywhere_assemble_of (R := fun _ _ => True) (fun f x y _ h => ⟨?_, trivial⟩) trivial
      (everywhere_iff.2 ⟨?_, ?_⟩) hp.clean
    · rwa [Frame.info_plug] at h ⊢
    · rw [info_push]
      exact hatom.here
    · rw [hnew]
      exact List.forall_mem_singleton.2 (hfresh.mono fun _ h => h.1)
  · refine settled_of_inStep ?_ ?_
    · intro pointer number referent hpointer hplain hwire hfound hnull _
      rw [hreferent] at hfound
      cases hfound
      rw [pointerAt, info_push] at hpointer
      rw [wireOf, content_push] at hwire
      rw [Env.address_of_sites (q := p) hplain (by rw [Place.sites, Place.sites, info_push])]
      exact hstep env pointer number hpointer hplain hwire hnull
    · rw [hnew]
      exact List.forall_mem_singleton.2 (settled_of_fresh _ r hfresh)

/-- Following a pointer leaves the tree as it was read. -/
theorem followPointer_asRead (env : Env κ) {p : Place κ} (hp : p.root.atom.AsRead) (s : LoadState κ) :
    Ends (followPointer env p) s fun result _ => ∀ q, result = .ok q → q.root.atom.AsRead := by
  have hlaid := Document.laid_followPointer env hp.laid s
  have hfollow : Ends (followPointer env p) s fun result _ => ∀ q, result = .ok q →
      Everywhere LaidOut q.root.atom → q.root.atom.AsRead := by
    rw [followPointer]
    split
    · exact Ends.pure fun _ h => by cases h
    · exact Ends.pure fun q hq _ => by cases hq; exact hp
    · refine ((fresh_loadReferent env p s).and (Document.arrives_loadReferent env p s)).bind
        fun result t hresult => ?_
      obtain ⟨hfresh, hpointer⟩ := hresult
      split
      · exact Ends.pure fun _ h => by cases h
      · rename_i hnone referent
        obtain ⟨⟨wire, hcontent⟩, -⟩ := hpointer
        obtain ⟨hnew, hstep⟩ := hfresh _ rfl
        have hparts : p.atom.parts = [] := parts_of_unfollowed hcontent ‹_›
        refine Ends.pure fun q hq hlaid => ?_
        cases hq
        refine hp.push hcontent hparts hnew (fun env' pointer number hpointer hplain hwire hnull => ?_) hlaid
        rw [Env.address_of_plain hplain env' env]
        exact hstep pointer number hpointer hwire hnull
  exact (hlaid.and hfollow).mono fun _ _ h q hq => h.2 q hq (h.1 q hq)

/-! ## Numbers that are found again -/

/-- The number of a pointer as it is stored. -/
def Atom.stored? (a : Atom κ) : Option Bytes :=
  match a.content with
  | .pointer raw => some raw
  | _ => none

/-- If this is a pointer, then its number can be found again from the address that it means: the policy has
no rule that stands in for the number, the number is one of 128 bits with a sign, and the pointer and the
atoms around it stand at offsets of 64 bits. -/
structure Place.Regains (p : Place κ) : Prop where
  plain : ∀ pointer, pointerAt p.atom = .ok pointer → pointer.policy.isInvertible = true →
    pointer.policy.isPlain = true
  fits : ∀ pointer raw, pointerAt p.atom = .ok pointer → p.atom.content = .pointer raw →
    pointer.wire.Fits raw
  words : ∀ info ∈ p.sites, info.offset < pow2 64

instance (p : Place κ) : Decidable p.Regains :=
  decidable_of_iff ((∀ pointer ∈ (pointerAt p.atom).toOption,
      (pointer.policy.isInvertible = true → pointer.policy.isPlain = true)
        ∧ ∀ raw ∈ p.atom.stored?, pointer.wire.Fits raw) ∧ ∀ info ∈ p.sites, info.offset < pow2 64) <| by
    constructor
    · rintro ⟨hpointer, hwords⟩
      refine ⟨fun pointer h => (hpointer pointer ?_).1,
        fun pointer raw h hcontent => (hpointer pointer ?_).2 raw ?_, hwords⟩
      · rw [h]
        rfl
      · rw [h]
        rfl
      · rw [Atom.stored?, hcontent]
        rfl
    · rintro ⟨hplain, hfits, hwords⟩
      refine ⟨fun pointer h => ?_, hwords⟩
      have hpointer := ok_of_toOption h
      refine ⟨hplain pointer hpointer, fun raw hraw => hfits pointer raw hpointer ?_⟩
      rw [Atom.stored?] at hraw
      split at hraw
      · cases hraw
        assumption
      · cases hraw

/-- Recalculating the atom at the place alone does nothing. -/
structure Place.AtRest (env : Env κ) (p : Place κ) : Prop where
  clean : p.atom.info.dirty = false
  wire : EditM.refreshedWire env p = .ok none
    ∨ ∃ raw, EditM.refreshedWire env p = .ok (some raw) ∧ p.atom.content = .pointer raw

namespace Place

variable {env : Env κ} {p : Place κ}

/-- The number of a pointer in step is found again. -/
theorem refreshedWire_of_inStep (hstep : p.InStep env) (hlaid : p.atom.LaidOut) (hregains : p.Regains)
    (hword : ∀ referent, p.atom.referent? = some referent → referent.info.offset < pow2 64) :
    EditM.refreshedWire env p = .ok none
      ∨ ∃ raw, EditM.refreshedWire env p = .ok (some raw) ∧ p.atom.content = .pointer raw := by
  rw [EditM.refreshedWire]
  cases hreferent : p.atom.referent? with
  | none => exact .inl rfl
  | some referent =>
    obtain ⟨⟨raw, hcontent⟩, -⟩ := EditM.content_of_referent? hreferent
    obtain ⟨format, target, policy, hlayout, hlength⟩ := hlaid.wire raw hcontent
    have hpointer : pointerAt p.atom = .ok ⟨format, target, policy⟩ := by rw [pointerAt, hlayout]
    simp only [hpointer, bind, Except.bind]
    split
    · exact .inl rfl
    · rename_i hinvertible
      rw [Bool.or_eq_true, not_or, Bool.not_eq_true', Bool.not_eq_false, Bool.not_eq_true] at hinvertible
      obtain ⟨hinvertible, hnull⟩ := hinvertible
      have hplain : policy.isPlain = true := hregains.plain _ hpointer hinvertible
      have hfits : format.Fits raw := hregains.fits _ raw hpointer hcontent
      have hwire : wireOf ⟨format, target, policy⟩ p.atom = .ok (format.read raw) := by rw [wireOf, hcontent]
      have haddress := hstep _ _ referent hpointer hplain hwire hreferent hnull (hword _ hreferent)
      obtain ⟨start, hstart⟩ := Env.countsFrom_of_address hplain haddress
      obtain ⟨hlow, hhigh⟩ := IntFormat.read_range hlength
      rw [Env.wireFor_of_address hstart (hstart.lt_of_words hregains.words) hlow hhigh haddress]
      dsimp only
      rw [IntFormat.encode_read hlength hfits]
      exact .inr ⟨raw, rfl, hcontent⟩

/-- A tree that was read is at rest, if the numbers of its pointers can be found again. -/
theorem atRest_of_asRead (hread : p.root.atom.AsRead) (hregains : ∀ q ∈ p.preorder, q.Regains) :
    ∀ q ∈ p.preorder, q.AtRest env := by
  intro q hq
  have hroot : q.root = p.root := root_of_mem_preorderIn p.frames p.atom hq
  rw [← hroot] at hread
  refine ⟨hread.clean.of_assemble.here, ?_⟩
  refine refreshedWire_of_inStep (hread.settled env).inStep_place hread.laid.of_assemble.here (hregains q hq)
    fun referent hreferent => ?_
  obtain ⟨part, hpart, rfl⟩ := exists_referent hreferent
  have hmem : part ∈ p.preorder := subset_preorderIn p.frames p.atom hq part hpart
  exact (hregains part hmem).words part.atom.info.site List.mem_cons_self

end Place

/-! ## Recalculating -/

namespace EditM

variable {env : Env κ} {s : Workplace κ}

def Rests (s : Workplace κ) (m : EditM κ Unit) : Prop := Yields m s (fun _ t => t = s) fun _ _ => False

theorem rests_refreshWire (h : s.place.AtRest env) : Rests s (refreshWire env) := by
  refine (yields_place s).bind fun p t ht => ?_
  obtain ⟨rfl, rfl⟩ := ht
  rcases h.wire with hnone | ⟨raw, hsome, hcontent⟩
  · rw [hnone]
    exact Yields.pure rfl
  · rw [hsome]
    refine Yields.via (fun raw? u => raw? = some raw ∧ u = t) ⟨rfl, rfl⟩ fun raw? u hu => ?_
    obtain ⟨rfl, rfl⟩ := hu
    dsimp only
    rw [if_neg (not_not_intro hcontent)]
    exact Yields.pure rfl

/-- Edits of siblings that do nothing lead from one sibling to another. -/
theorem rests_alongSiblings {m : EditM κ Unit} {outer : Place κ} (l : Ledger κ)
    (hm : ∀ p ∈ outer.parts, Rests ⟨l, p⟩ m) (count : Nat) {p : Place κ} (hp : p ∈ outer.parts) :
    Yields (alongSiblings m count) ⟨l, p⟩ (fun _ t => t.ledger = l ∧ t.place ∈ outer.parts)
      fun _ _ => False := by
  induction count generalizing p with
  | zero => exact Yields.pure ⟨rfl, hp⟩
  | succ count ih =>
    rw [alongSiblings]
    refine (yields_place _).bind fun q t ht => ?_
    obtain ⟨-, rfl⟩ := ht
    refine Yields.bind (yields_within _ (hm p hp)) fun _ u hu => ?_
    subst hu
    refine (yields_place _).bind fun q v hv => ?_
    obtain ⟨hq, rfl⟩ := hv
    rw [show q = p from hq]
    cases hnext : p.next? with
    | none => exact Yields.pure ⟨rfl, hp⟩
    | some r =>
      have hr : r ∈ outer.parts := Place.mem_parts.2 ((Place.up?_next? hnext).trans (Place.mem_parts.1 hp))
      exact Yields.via (fun _ w => w = ⟨l, r⟩) (Yields.modified rfl) fun _ w hw => hw ▸ ih hr

theorem rests_eachPart {m : EditM κ Unit} (hm : ∀ p ∈ s.place.parts, Rests ⟨s.ledger, p⟩ m) :
    Rests s (eachPart m) := by
  refine (yields_atom s).bind fun a t ht => ?_
  obtain ⟨rfl, rfl⟩ := ht
  refine yields_atPart (fun _ => rfl) fun p hdown => ?_
  have hp : p ∈ t.place.parts := Place.mem_parts.2 (Place.up?_down? hdown)
  refine (rests_alongSiblings t.ledger hm _ hp).mono (fun _ u hu => ?_) fun _ _ h => h
  obtain ⟨hledger, hplace⟩ := hu
  rw [Place.mem_parts.1 hplace, hledger, Option.getD_some]

theorem rests_recalculateTo (depth : Nat) {s : Workplace κ} (hdepth : s.place.atom.height ≤ depth)
    (h : ∀ q ∈ s.place.preorder, q.AtRest env) : Rests s (recalculateTo env depth) := by
  induction depth generalizing s with
  | zero =>
    exfalso
    obtain ⟨l, ⟨⟨info, content, parts⟩, frames⟩⟩ := s
    exact Nat.not_succ_le_zero _ hdepth
  | succ depth ih =>
    have hself := h s.place s.place.self_mem_preorder
    have hparts : Rests s (eachPart (recalculateTo env depth)) := by
      refine rests_eachPart fun p hp => ih ?_ fun q hq => h q (Place.mem_preorder_of_part hp hq)
      exact Nat.le_of_lt_succ ((height_part (Place.mem_parts_atom hp)).trans_le hdepth)
    rw [recalculateTo]
    refine Yields.bind hparts fun _ t ht => ?_
    subst ht
    refine (yields_atom t).bind fun a u hu => ?_
    obtain ⟨rfl, rfl⟩ := hu
    split
    · rename_i hdirty _
      cases hself.clean.symm.trans hdirty
    · refine Yields.bind (rests_refreshWire hself) fun _ v hv => ?_
      subst hv
      refine (yields_atom v).bind fun a w hw => ?_
      obtain ⟨rfl, rfl⟩ := hw
      refine yields_setAtom ?_
      rw [unmarked_of_clean hself.clean]

/-- Recalculating what is at rest does nothing. -/
theorem rests_recalculate (h : ∀ q ∈ s.place.preorder, q.AtRest env) : Rests s (recalculate env) := by
  refine (yields_atom s).bind fun a t ht => ?_
  obtain ⟨rfl, rfl⟩ := ht
  exact rests_recalculateTo _ (Nat.le_add_right _ _) h

end EditM

end BinaryLayout
