import BinaryLayout.Proofs.Ending.Load
import Mathlib.Logic.Relation

/-!
# Open arrays end where their view does

An array without a given number of elements takes elements until its rule accepts one, or until it
finds no more. It takes it for the end of its view when an element could not be loaded for want of
bytes; and if no field inside the element has its size forced, then that element did want bytes past
the end. Any other failure of an element is one of the array.

Without that condition this is not so: a field that is forced to be smaller than what it holds runs out
of bytes wherever it stands, and then the array ends there, without an error.

## Main definitions

* `OpenTurn`: where the loading of an open array stands.
* `OpenTurn.Goes`: one more element, which is not the last.
* `OpenTurn.Stops`: why there is no further element.

## Main statements

* `load_open`: how the loading of an open array ends.
-/

namespace BinaryLayout

variable {κ : Type}

open Atom

/-- The source ran out of bytes, and some past `stop` were wanted. -/
def Error.RunsPast (stop : Nat) (e : Error) : Prop :=
  ∃ path offset desired got, e = .located path (.consume offset desired got) ∧ stop < offset + desired

/-- A want of bytes goes past the end when any does. -/
theorem Error.Overruns.runsPast {stop : Nat} {e : Error} (h : e.Overruns stop)
    (hconsume : e.isConsume = true) : e.RunsPast stop := by
  cases e with
  | located path problem =>
    cases problem with
    | consume offset desired got => exact ⟨path, offset, desired, got, rfl, h⟩
    | source | initialization | decode | nullDereference | unterminatedArray | notFound | value =>
      cases hconsume
  | schema fault => cases hconsume

/-- An array without a given number of elements: a rule ends it, or it goes on to the end. -/
def Shape.openEnded : Option κ → Shape κ
  | some rule => .terminated rule
  | none => .unending

/-- Where the loading of an open array stands: the elements so far, their number, and the place of the
next one. -/
structure OpenTurn (κ : Type) where
  frame : Frame κ
  index : Nat
  cursor : Nat
  state : LoadState κ

section Turns

variable (env : Env κ) (depth : Nat) (element : Layout κ) (rule? : Option κ) (frames : List (Frame κ))

namespace OpenTurn

/-- Before the first element. -/
def first (a : Atom κ) (s : LoadState κ) : OpenTurn κ :=
  ⟨(a.cleared.fill .group []).frame, 0, a.info.offset,
    { s with ledger := s.ledger.releaseAll a.parts }⟩

/-- The next element, as far as it can be loaded. -/
def loadNext (q : OpenTurn κ) : Outcome κ × LoadState κ :=
  (do
    let blank ← LoadM.ofLedger (LedgerM.spawn (toString q.index) (.bytes element) q.cursor)
    load env depth (q.frame :: frames) blank : LoadM κ (Outcome κ)) q.state

/-- One more element was loaded, and it is not the last. -/
structure Goes (q r : OpenTurn κ) : Prop where
  attempted : endsAt rule? q.state.view.size? q.cursor = false
  loaded : ∃ a, q.loadNext env depth element frames = (⟨a, none⟩, r.state)
    ∧ spanEnd q.cursor a.size = .ok r.cursor
    ∧ isLast env rule? (q.index + 1) ⟨a, q.frame :: frames⟩ = false
    ∧ r.frame = q.frame.push a ∧ r.index = q.index + 1

/-- Why no further element is added, and what the array and the state are then. -/
inductive Stops (stop : Nat) (q : OpenTurn κ) : Outcome κ → LoadState κ → Prop
  /-- An unending array is at the end of its view. -/
  | atEnd (hrule : rule? = none) (hstop : stop ≤ q.cursor) : Stops stop q ⟨q.frame.close.ready, none⟩ q.state
  /-- The rule accepts the element, or it is one without bytes in an unending array. -/
  | last {a : Atom κ} {t : LoadState κ} (hloaded : q.loadNext env depth element frames = (⟨a, none⟩, t))
    (hlast : isLast env rule? (q.index + 1) ⟨a, q.frame :: frames⟩ = true) :
    Stops stop q ⟨(q.frame.plug a).ready, none⟩ t
  /-- Bytes past the end were wanted for an element of an unending array. -/
  | short {a : Atom κ} {e : Error} {t : LoadState κ} (hrule : rule? = none)
    (hloaded : q.loadNext env depth element frames = (⟨a, some e⟩, t)) (hpast : e.RunsPast stop) :
    Stops stop q ⟨q.frame.close.ready, none⟩ { t with ledger := Ledger.release a t.ledger }
  /-- Bytes past the end were wanted for an element of a terminated array. -/
  | unterminated {rule : κ} {a : Atom κ} {e : Error} {t : LoadState κ} (hrule : rule? = some rule)
    (hloaded : q.loadNext env depth element frames = (⟨a, some e⟩, t)) (hpast : e.RunsPast stop) :
    Stops stop q ⟨q.frame.close.ready, none⟩
      { t with ledger := Ledger.warn (Ledger.release a t.ledger)
                (.unterminatedArray (Place.path ⟨q.frame.close, frames⟩) q.index) }

/-- The view ends at the border, and the next element is inside it. -/
structure Inside (B : Border) (q : OpenTurn κ) : Prop where
  has : B.Has q.state.view
  covers : B.Covers q.cursor q.cursor

variable {env depth element rule? frames} {B : Border} {q r : OpenTurn κ}

/-- What is known of the next element. -/
theorem Inside.heeds (h : q.Inside B) (helement : element.Unforced env.rules) {out : Outcome κ}
    {t : LoadState κ} (hloaded : q.loadNext env depth element frames = (out, t)) :
    B.Has t.view ∧ out.Heeds B q.cursor element.staticSize := by
  have hnext : Ends (do
      let blank ← LoadM.ofLedger (LedgerM.spawn (toString q.index) (.bytes element) q.cursor)
      load env depth (q.frame :: frames) blank : LoadM κ (Outcome κ)) q.state fun out t =>
        B.Has t.view ∧ out.Heeds B q.cursor element.staticSize := by
    refine (LoadM.bordered_spawn (toString q.index) (.bytes element) q.cursor h.has).bind fun blank t ht => ?_
    obtain ⟨-, hlayout, hoffset, ht⟩ := ht
    rw [← hoffset]
    exact heeds_load env depth element helement (q.frame :: frames) hlayout
      (hoffset ▸ h.covers.start) (hoffset ▸ h.covers.word) ht
  rw [loadNext] at hloaded
  rw [Ends, hloaded] at hnext
  exact hnext

theorem Goes.inside (h : Goes env depth element rule? frames q r) (helement : element.Unforced env.rules)
    (hq : q.Inside B) : r.Inside B := by
  obtain ⟨a, hloaded, hspan, -⟩ := h.loaded
  obtain ⟨hhas, hheeds⟩ := hq.heeds helement hloaded
  obtain ⟨hsame, hcovers⟩ := hq.covers.next (hheeds.within rfl)
  rw [hsame] at hspan
  have hcursor : q.cursor + a.size = r.cursor := Except.ok.inj hspan
  have hplace := hcursor ▸ hcovers
  exact ⟨hhas, hplace.start, hplace.word, Nat.le_max_left _ _⟩

end OpenTurn

variable {env depth element rule? frames} {B : Border}

open OpenTurn

/-- Loading the rest of an open array loads the next element first. -/
theorem ends_loadOpen_succ {q : OpenTurn κ} {post : Outcome κ → LoadState κ → Prop} (budget : Nat)
    (hend : endsAt rule? q.state.view.size? q.cursor = true → post ⟨q.frame.close.ready, none⟩ q.state)
    (hfailed : ∀ a e t, endsAt rule? q.state.view.size? q.cursor = false →
      q.loadNext env depth element frames = (⟨a, some e⟩, t) → Ends (do
      if !e.isConsume then return ⟨q.frame.plug a, some (e.within [Path.index q.index])⟩
      LoadM.ofLedger (LedgerM.release a)
      if rule?.isNone then return ⟨q.frame.close.ready, none⟩
      if (← LoadM.viewEnd).isSome then
        LoadM.ofLedger (LedgerM.warn (.unterminatedArray (Place.path ⟨q.frame.close, frames⟩) q.index))
        return ⟨q.frame.close.ready, none⟩
      return ⟨q.frame.close, some (e.within [Path.index q.index])⟩ : LoadM κ (Outcome κ)) t post)
    (hdone : ∀ a t, endsAt rule? q.state.view.size? q.cursor = false →
      q.loadNext env depth element frames = (⟨a, none⟩, t) → Ends (match spanEnd q.cursor a.size with
        | .error e => return ⟨q.frame.plug a, some (e.within [Path.index q.index])⟩
        | .ok cursor => do
          if isLast env rule? (q.index + 1) ⟨a, q.frame :: frames⟩ then
            return ⟨(q.frame.plug a).ready, none⟩
          loadOpen env (load env depth) element rule? frames budget (q.frame.push a) (q.index + 1)
            cursor : LoadM κ (Outcome κ)) t post) :
    Ends (loadOpen env (load env depth) element rule? frames (budget + 1) q.frame q.index q.cursor)
      q.state post := by
  rw [loadOpen]
  refine Ends.via (fun viewEnd? t => viewEnd? = q.state.view.size? ∧ t = q.state) ⟨rfl, rfl⟩
    fun viewEnd? t ht => ?_
  obtain ⟨rfl, rfl⟩ := ht
  split
  · exact Ends.pure (hend ‹_›)
  · rename_i hopen
    refine (Ends.trivial _ q.state).bind fun blank t ht => (Ends.trivial _ t).bind fun out u hu => ?_
    have hloaded : q.loadNext env depth element frames = (out, u) := by
      rw [hu]
      exact (congrArg (fun r : Atom κ × LoadState κ => load env depth (q.frame :: frames) r.1 r.2) ht).symm
    obtain ⟨a, error?⟩ := out
    have hattempted := Bool.eq_false_iff.2 hopen
    cases error? with
    | some e => exact hfailed a e u hattempted hloaded
    | none => exact hdone a u hattempted hloaded

/-- Loading the rest of an open array succeeds only at the end of the view, or with a last element. -/
theorem stops_loadOpen (helement : element.Unforced env.rules) (budget : Nat) {q : OpenTurn κ}
    (hq : q.Inside B) :
    Ends (loadOpen env (load env depth) element rule? frames budget q.frame q.index q.cursor) q.state
      fun out t => out.error? = none → ∃ r, Relation.ReflTransGen (Goes env depth element rule? frames) q r
        ∧ r.Stops env depth element rule? frames B.stop out t := by
  induction budget generalizing q with
  | zero => exact Ends.pure nofun
  | succ budget ih =>
    refine ends_loadOpen_succ budget (fun hend _ => ?_) (fun a e t _ hloaded => ?_)
      fun a t hopen hloaded => ?_
    · refine ⟨q, .refl, ?_⟩
      rw [endsAt, B.size hq.has, Bool.and_eq_true, Option.isNone_iff_eq_none] at hend
      exact .atEnd hend.1 (by simpa using hend.2)
    · obtain ⟨hhas, hheeds⟩ := hq.heeds helement hloaded
      split
      · exact Ends.pure nofun
      · rename_i hconsume
        have hpast := (hheeds.overruns e rfl).runsPast (by simpa using hconsume)
        refine Ends.via (fun _ u => u = { t with ledger := Ledger.release a t.ledger }) rfl
          fun _ u hu => ?_
        subst hu
        cases rule? with
        | none => exact Ends.pure fun _ => ⟨q, .refl, .short rfl hloaded hpast⟩
        | some rule =>
          refine Ends.via (fun viewEnd? u => viewEnd? = some B.stop
            ∧ u = { t with ledger := Ledger.release a t.ledger }) ⟨B.size hhas, rfl⟩ fun _ u hu => ?_
          obtain ⟨rfl, rfl⟩ := hu
          exact fun _ => ⟨q, .refl, .unterminated rfl hloaded hpast⟩
    · obtain ⟨hhas, hheeds⟩ := hq.heeds helement hloaded
      obtain ⟨hspan, hcovers⟩ := hq.covers.next (hheeds.within rfl)
      rw [hspan]
      dsimp only
      split
      · exact Ends.pure fun _ => ⟨q, .refl, .last hloaded ‹_›⟩
      · rename_i hmore
        have hgoes : Goes env depth element rule? frames q
            ⟨q.frame.push a, q.index + 1, q.cursor + a.size, t⟩ :=
          ⟨hopen, a, hloaded, hspan, by simpa using hmore, rfl, rfl⟩
        refine (ih (hgoes.inside helement hq)).mono fun out u hu herror => ?_
        obtain ⟨r, hreaches, hstops⟩ := hu herror
        exact ⟨r, .head hgoes hreaches, hstops⟩

/-- An element that fails inside the view fails the array, unless this has too many elements. -/
theorem fails_loadOpen (helement : element.Unforced env.rules) {q r : OpenTurn κ} (hq : q.Inside B)
    (hreaches : Relation.ReflTransGen (Goes env depth element rule? frames) q r) {a : Atom κ} {e : Error}
    {u : LoadState κ} (hloaded : r.loadNext env depth element frames = (⟨a, some e⟩, u))
    (hopen : endsAt rule? r.state.view.size? r.cursor = false) (hinside : ¬ e.RunsPast B.stop) (budget : Nat) :
    Ends (loadOpen env (load env depth) element rule? frames budget q.frame q.index q.cursor) q.state
      fun out _ => out.error? = some (e.within [Path.index r.index])
        ∨ out.error? = some (.initialization (.elementLimit env.config.maxElements)) := by
  induction hreaches using Relation.ReflTransGen.head_induction_on generalizing budget with
  | refl =>
    cases budget with
    | zero => exact Ends.pure (.inr rfl)
    | succ budget =>
      refine ends_loadOpen_succ budget (fun hend => absurd hend (by rw [hopen]; exact Bool.false_ne_true))
        (fun b e' t _ h => ?_) fun b t _ h => nomatch hloaded.symm.trans h
      cases hloaded.symm.trans h
      have hother : e.isConsume = false := by
        refine Bool.eq_false_iff.2 fun hconsume => hinside ?_
        exact ((hq.heeds helement hloaded).2.overruns e rfl).runsPast hconsume
      rw [hother]
      exact Ends.pure (.inl rfl)
  | head hgoes hrest ih =>
    rename_i q p
    cases budget with
    | zero => exact Ends.pure (.inr rfl)
    | succ budget =>
      obtain ⟨b, hnext, hspan, hmore, hframe, hindex⟩ := hgoes.loaded
      refine ends_loadOpen_succ budget (fun hend => absurd hend (by rw [hgoes.attempted]; exact Bool.false_ne_true))
        (fun c e' t _ h => nomatch hnext.symm.trans h) fun c t _ h => ?_
      cases hnext.symm.trans h
      rw [hspan]
      dsimp only
      rw [hmore, if_neg Bool.false_ne_true, ← hframe, ← hindex]
      exact ih (hgoes.inside helement hq) budget

end Turns

/-- Loading an open array starts before its first element. -/
theorem load_openEnded (env : Env κ) (depth : Nat) {element : Layout κ} {rule? : Option κ}
    (frames : List (Frame κ)) {a : Atom κ} (ha : a.info.layout = .bytes (.array element (.openEnded rule?)))
    (s : LoadState κ) :
    load env (depth + 1) frames a s = loadOpen env (load env depth) element rule? frames
      env.config.maxElements (OpenTurn.first a s).frame (OpenTurn.first a s).index
      (OpenTurn.first a s).cursor (OpenTurn.first a s).state := by
  rw [load, ha]
  have hoffset : a.cleared.info.offset = a.info.offset := Info.offset_of_site (site_cleared a)
  cases rule? with
  | none =>
    show loadOpen env (load env depth) element none frames _ _ _ a.cleared.info.offset _ = _
    rw [hoffset]
    rfl
  | some rule =>
    show loadOpen env (load env depth) element (some rule) frames _ _ _ a.cleared.info.offset _ = _
    rw [hoffset]
    rfl

/-- How the loading of an open array ends in a view that is short of bytes at its end only, when no field
inside its elements has its size forced. It succeeds at the end of the view, with a last element, or when
bytes past the end were wanted for another one; and it fails with an element that fails otherwise. -/
theorem load_open {B : Border} (env : Env κ) (depth : Nat) {element : Layout κ}
    (helement : element.Unforced env.rules) {rule? : Option κ} (frames : List (Frame κ)) {a : Atom κ}
    (ha : a.info.layout = .bytes (.array element (.openEnded rule?))) (hstart : B.start ≤ a.info.offset)
    (hword : a.info.offset < pow2 64) {s : LoadState κ} (hs : B.Has s.view) :
    Ends (load env (depth + 1) frames a) s fun out t =>
      (out.error? = none → ∃ q,
        Relation.ReflTransGen (OpenTurn.Goes env depth element rule? frames) (.first a s) q
          ∧ q.Stops env depth element rule? frames B.stop out t)
      ∧ ∀ q, Relation.ReflTransGen (OpenTurn.Goes env depth element rule? frames) (.first a s) q →
        endsAt rule? q.state.view.size? q.cursor = false →
        ∀ b e u, q.loadNext env depth element frames = (⟨b, some e⟩, u) → ¬ e.RunsPast B.stop →
          out.error? = some (e.within [Path.index q.index])
            ∨ out.error? = some (.initialization (.elementLimit env.config.maxElements)) := by
  have hfirst : (OpenTurn.first a s).Inside B := ⟨hs, hstart, hword, Nat.le_max_left _ _⟩
  rw [Ends, load_openEnded env depth frames ha]
  refine ⟨stops_loadOpen helement _ hfirst, fun q hreaches hopen b e u hloaded hinside => ?_⟩
  exact fails_loadOpen helement hfirst hreaches hloaded hopen hinside _

/-- An element that fails inside the view is no reason to stop. -/
theorem OpenTurn.not_stops {env : Env κ} {depth : Nat} {element : Layout κ} {rule? : Option κ}
    {frames : List (Frame κ)} {q : OpenTurn κ} {e : Error} {stop : Nat}
    (hfailed : (q.loadNext env depth element frames).1.error? = some e) (hcursor : q.cursor < stop)
    (hinside : ¬ e.RunsPast stop) (out : Outcome κ) (t : LoadState κ) :
    ¬ ∃ r, Relation.ReflTransGen (Goes env depth element rule? frames) q r
      ∧ r.Stops env depth element rule? frames stop out t := by
  rintro ⟨r, hreaches, hstops⟩
  have hsame : q = r := by
    cases hreaches using Relation.ReflTransGen.head_induction_on with
    | refl => rfl
    | head hgoes =>
      obtain ⟨b, hdone, -⟩ := hgoes.loaded
      rw [hdone] at hfailed
      cases hfailed
  subst hsame
  cases hstops with
  | atEnd _ hstop => exact absurd hstop (Nat.not_le.2 hcursor)
  | last hdone =>
    rw [hdone] at hfailed
    cases hfailed
  | short _ hlost hpast | unterminated _ hlost hpast =>
    rw [hlost] at hfailed
    cases hfailed
    exact hinside hpast

/-- Two words of two bytes each, from a source of five: for the third one a sixth byte was wanted. -/
theorem load_open_of_words :
    let rules : Rules Unit := ⟨fun _ _ => .ok (.block 1), fun _ _ => .ok (.int 1 false),
      fun _ _ => .ok 1, fun _ _ => .ok (.bool true), fun _ _ _ _ => false, fun _ n => n,
      fun _ _ _ => .ok 0, fun _ _ _ => .ok 0⟩
    let env : Env Unit := ⟨{}, rules⟩
    let element : Layout Unit := .int ⟨2, false, .little, by decide⟩
    let a : Atom Unit := .blank 0 "words" (.bytes (.array element .unending)) 0
    let s : LoadState Unit := ⟨{}, [.memory #[1, 2, 3, 4, 5] false 0], .source 0⟩
    let run := load env (1 + 1) [] a s
    element.Unforced rules ∧ Sources.EndsAt s.sources 0 5
      ∧ run.1.error? = none ∧ run.1.atom.parts.length = 2
      ∧ ∃ q, Relation.ReflTransGen (OpenTurn.Goes env 1 element none []) (.first a s) q
        ∧ q.Stops env 1 element none [] 5 run.1 run.2 := by
  intro rules env element a s
  have helement : element.Unforced rules := by
    refine ⟨fun _ _ h => ?_, fun _ _ _ h => ?_⟩ <;> dsimp only [element] at h <;> cases h
  have hends : Sources.EndsAt s.sources 0 5 := Sources.endsAt_newest.2 rfl
  have hok : (load env (1 + 1) [] a s).1.error? = none := by decide +kernel
  have hs : (Border.source 0 5 (by decide)).Has s.view := ⟨rfl, hends⟩
  have ha : a.info.layout = .bytes (.array element (.openEnded none)) := rfl
  have hload := load_open env 1 helement [] ha (Nat.zero_le _) (by decide) hs
  dsimp only
  exact ⟨helement, hends, hok, by decide +kernel, hload.1 hok⟩

/-- A field of two bytes that is forced to one runs out of bytes at the start of a source of five, and
the array ends there as if this were the end. -/
theorem load_open_of_forced_field :
    let rules : Rules Unit := ⟨fun _ _ => .ok (.block 1), fun _ _ => .ok (.int 1 false),
      fun _ _ => .ok 1, fun _ _ => .ok (.bool true), fun _ _ _ _ => false, fun _ n => n,
      fun _ _ _ => .ok 0, fun _ _ _ => .ok 0⟩
    let env : Env Unit := ⟨{}, rules⟩
    let element : Layout Unit := .record "E" [⟨"x", .given (.int ⟨2, false, .little, by decide⟩), some (), none⟩]
    let a : Atom Unit := .blank 0 "r" (.bytes (.array element .unending)) 0
    let s : LoadState Unit := ⟨{}, [.memory #[1, 2, 3, 4, 5] false 0], .source 0⟩
    let run := load env (2 + 1) [] a s
    Sources.EndsAt s.sources 0 5 ∧ run.1.error? = none ∧ run.1.atom.parts.length = 0
      ∧ ((OpenTurn.first a s).loadNext env 2 element []).1.error?
        = some (.located ["x"] (.consume 0 2 1))
      ∧ ¬ ∃ q, Relation.ReflTransGen (OpenTurn.Goes env 2 element none []) (.first a s) q
        ∧ q.Stops env 2 element none [] 5 run.1 run.2 := by
  intro rules env element a s run
  have hfailed : ((OpenTurn.first a s).loadNext env 2 element []).1.error?
      = some (.located ["x"] (.consume 0 2 1)) := by decide +kernel
  refine ⟨Sources.endsAt_newest.2 rfl, by decide +kernel, by decide +kernel, hfailed, ?_⟩
  refine OpenTurn.not_stops hfailed (by decide) ?_ _ _
  rintro ⟨_, _, _, _, heq, hover⟩
  cases heq
  exact absurd hover (by decide)

end BinaryLayout
