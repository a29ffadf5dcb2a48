import BinaryLayout.Proofs.Ending.Array

/-!
# Limits of open arrays

An array without a given number of elements is refused when it has too many. It is told to be one of too
many as soon as it has as many elements as are allowed and none of them was the last, and under no other
circumstance: so an element that the rule of a terminated array accepts may be the last one allowed, and
no array that was loaded has more elements than are allowed.

The number of elements is looked at before the end of the view is. So an unending array whose view ends
with the last element allowed is refused too, although it has no element too many.

## Main definitions

* `Env.tooMany`: the error of an array with too many elements.
* `OpenTurn.Closes`: why an array is complete.

## Main statements

* `load_open_limited`: when an open array is refused, and what it is otherwise.
* `load_unending_refused`: an array that is refused with as many elements as are allowed.
-/

namespace BinaryLayout

variable {κ : Type}

open Atom

/-- The error of an array with more elements than are allowed. -/
def Env.tooMany (env : Env κ) : Error := .initialization (.elementLimit env.config.maxElements)

/-- An error of an element is not the array's own. -/
theorem Env.within_ne_tooMany (env : Env κ) (i : Nat) (e : Error) :
    e.within [Path.index i] ≠ env.tooMany := by
  intro h
  cases e with
  | located path problem => exact List.cons_ne_nil _ _ (Error.located.inj h).1
  | schema fault => cases h

section Turns

variable (env : Env κ) (depth : Nat) (element : Layout κ) (rule? : Option κ) (frames : List (Frame κ))

namespace OpenTurn

/-- Why there is no further element, and what the array and the state are then. -/
inductive Closes (q : OpenTurn κ) : Outcome κ → LoadState κ → Prop
  /-- An unending array is at the end of its view. -/
  | atEnd (hend : endsAt rule? q.state.view.size? q.cursor = true) :
    Closes q ⟨q.frame.close.ready, none⟩ q.state
  /-- The rule accepts the next element, or it is one without bytes in an unending array. -/
  | last {a : Atom κ} {t : LoadState κ} {cursor : Nat}
    (hopen : endsAt rule? q.state.view.size? q.cursor = false)
    (hloaded : q.loadNext env depth element frames = (⟨a, none⟩, t))
    (hspan : spanEnd q.cursor a.size = .ok cursor)
    (hlast : isLast env rule? (q.index + 1) ⟨a, q.frame :: frames⟩ = true) :
    Closes q ⟨(q.frame.plug a).ready, none⟩ t
  /-- The bytes left do not suffice for another element of an unending array. -/
  | short {a : Atom κ} {e : Error} {t : LoadState κ} (hrule : rule? = none)
    (hopen : endsAt rule? q.state.view.size? q.cursor = false)
    (hloaded : q.loadNext env depth element frames = (⟨a, some e⟩, t)) (hconsume : e.isConsume = true) :
    Closes q ⟨q.frame.close.ready, none⟩ { t with ledger := Ledger.release a t.ledger }
  /-- The bytes left do not suffice for another element of a terminated array. -/
  | unterminated {rule : κ} {a : Atom κ} {e : Error} {t : LoadState κ} (hrule : rule? = some rule)
    (hloaded : q.loadNext env depth element frames = (⟨a, some e⟩, t)) (hconsume : e.isConsume = true)
    (hknown : t.view.size?.isSome = true) :
    Closes q ⟨q.frame.close.ready, none⟩
      { t with ledger := Ledger.warn (Ledger.release a t.ledger)
                (.unterminatedArray (Place.path ⟨q.frame.close, frames⟩) q.index) }

/-- The index of the next element is the number of those before it. -/
structure Counted (q : OpenTurn κ) : Prop where
  left : q.frame.left.length = q.index
  right : q.frame.right = []

theorem counted_first (a : Atom κ) (s : LoadState κ) : (first a s).Counted := ⟨rfl, rfl⟩

variable {env depth element rule? frames} {q r : OpenTurn κ}

theorem Goes.counted (h : Goes env depth element rule? frames q r) (hq : q.Counted) : r.Counted := by
  obtain ⟨a, -, -, -, hframe, hindex⟩ := h.loaded
  refine ⟨?_, ?_⟩
  · rw [hframe, hindex, ← hq.left]
    rfl
  · rw [hframe]
    exact hq.right

theorem counted_of_reaches (h : Relation.ReflTransGen (Goes env depth element rule? frames) q r)
    (hq : q.Counted) : r.Counted := by
  induction h with
  | refl => exact hq
  | tail _ hgoes ih => exact hgoes.counted ih

theorem index_le_of_reaches (h : Relation.ReflTransGen (Goes env depth element rule? frames) q r) :
    q.index ≤ r.index := by
  induction h with
  | refl => exact Nat.le_refl _
  | tail _ hgoes ih =>
    obtain ⟨a, -, -, -, -, hindex⟩ := hgoes.loaded
    omega

/-- A complete array has the elements before the last turn, and at most one more. -/
theorem Closes.length_le {out : Outcome κ} {t : LoadState κ} (h : q.Closes env depth element rule? frames out t)
    (hq : q.Counted) : out.atom.parts.length ≤ q.index + 1 := by
  cases h <;>
    simp only [parts_ready, Frame.parts_close, Frame.parts_plug, List.length_append, List.length_reverse,
      List.length_cons, hq.left, hq.right, List.length_nil] <;>
    omega

/-- A complete array was loaded. -/
theorem Closes.error?_eq {out : Outcome κ} {t : LoadState κ}
    (h : q.Closes env depth element rule? frames out t) : out.error? = none := by
  cases h <;> rfl

end OpenTurn

variable {env depth element rule? frames} {q r : OpenTurn κ}

open OpenTurn

/-! ## One turn -/

/-- After an element that is not the last, the others are loaded with one less to go. -/
theorem loadOpen_of_goes (h : Goes env depth element rule? frames q r) (budget : Nat) :
    loadOpen env (load env depth) element rule? frames (budget + 1) q.frame q.index q.cursor q.state =
      loadOpen env (load env depth) element rule? frames budget r.frame r.index r.cursor r.state := by
  obtain ⟨a, hloaded, hspan, hmore, hframe, hindex⟩ := h.loaded
  show Ends (loadOpen env (load env depth) element rule? frames (budget + 1) q.frame q.index q.cursor) q.state
    fun out t => (out, t) = loadOpen env (load env depth) element rule? frames budget r.frame r.index r.cursor
      r.state
  refine ends_loadOpen_succ budget (fun hend => ?_) (fun b e t _ hb => ?_) fun b t _ hb => ?_
  · rw [h.attempted] at hend
    cases hend
  · cases hloaded.symm.trans hb
  · cases hloaded.symm.trans hb
    rw [hspan]
    dsimp only
    rw [hmore, if_neg Bool.false_ne_true, ← hframe, ← hindex]
    rfl

/-- A complete array is loaded, provided that one more element is allowed. -/
theorem loadOpen_of_closes {out : Outcome κ} {t : LoadState κ}
    (h : q.Closes env depth element rule? frames out t) (budget : Nat) :
    loadOpen env (load env depth) element rule? frames (budget + 1) q.frame q.index q.cursor q.state =
      (out, t) := by
  show Ends (loadOpen env (load env depth) element rule? frames (budget + 1) q.frame q.index q.cursor) q.state
    fun out' t' => (out', t') = (out, t)
  refine ends_loadOpen_succ budget (fun hend => ?_) (fun b e u hopen hb => ?_) fun b u hopen hb => ?_
  · cases h with
    | atEnd => rfl
    | last hopen | short _ hopen =>
      rw [hopen] at hend
      cases hend
    | unterminated hrule =>
      rw [hrule] at hend
      cases hend
  · cases h with
    | atEnd hend =>
      rw [hopen] at hend
      cases hend
    | last _ hloaded => cases hloaded.symm.trans hb
    | short hrule _ hloaded hconsume =>
      cases hloaded.symm.trans hb
      rw [hconsume, hrule]
      rfl
    | unterminated hrule hloaded hconsume hknown =>
      cases hloaded.symm.trans hb
      rw [hconsume, hrule]
      refine Ends.via (fun _ v => v = { u with ledger := Ledger.release b u.ledger }) rfl fun _ v hv => ?_
      subst hv
      refine Ends.via (fun viewEnd? v => viewEnd? = u.view.size? ∧ v = _) ⟨rfl, rfl⟩ fun _ v hv => ?_
      obtain ⟨rfl, rfl⟩ := hv
      rw [hknown]
      rfl
  · cases h with
    | atEnd hend =>
      rw [hopen] at hend
      cases hend
    | last _ hloaded hspan hlast =>
      cases hloaded.symm.trans hb
      rw [hspan]
      dsimp only
      rw [if_pos hlast]
      rfl
    | short _ _ hloaded | unterminated _ hloaded => cases hloaded.symm.trans hb

/-! ## All turns -/

/-- Elements that are not the last are loaded one after another, as many as are allowed. -/
theorem loadOpen_of_reaches (h : Relation.ReflTransGen (Goes env depth element rule? frames) q r)
    (budget : Nat) :
    loadOpen env (load env depth) element rule? frames (r.index - q.index + budget) q.frame q.index q.cursor
        q.state =
      loadOpen env (load env depth) element rule? frames budget r.frame r.index r.cursor r.state := by
  induction h using Relation.ReflTransGen.head_induction_on with
  | refl => rw [Nat.sub_self, Nat.zero_add]
  | @head q p hgoes hreaches ih =>
    obtain ⟨a, -, -, -, -, hindex⟩ := hgoes.loaded
    have hle := index_le_of_reaches hreaches
    have hturns : r.index - q.index + budget = r.index - p.index + budget + 1 := by omega
    rw [hturns, loadOpen_of_goes hgoes, ih]

/-- Loading the rest of an open array ends with as many elements as are allowed, or where the array is
complete, or with an error of an element. -/
theorem ends_loadOpen (budget : Nat) (q : OpenTurn κ) :
    Ends (loadOpen env (load env depth) element rule? frames budget q.frame q.index q.cursor) q.state
      fun out t => (out.error? = some env.tooMany
          ∧ ∃ r, Relation.ReflTransGen (Goes env depth element rule? frames) q r ∧ r.index = q.index + budget)
        ∨ (∃ r, Relation.ReflTransGen (Goes env depth element rule? frames) q r
          ∧ r.index < q.index + budget ∧ r.Closes env depth element rule? frames out t)
        ∨ ∃ (i : Nat) (e : Error), out.error? = some (e.within [Path.index i]) := by
  induction budget generalizing q with
  | zero => exact Ends.pure (.inl ⟨rfl, q, .refl, rfl⟩)
  | succ budget ih =>
    have hlt : q.index < q.index + (budget + 1) := Nat.lt_add_of_pos_right (Nat.succ_pos _)
    refine ends_loadOpen_succ budget (fun hend => .inr (.inl ⟨q, .refl, hlt, .atEnd hend⟩))
      (fun a e t hopen hloaded => ?_) fun a t hopen hloaded => ?_
    · split
      · exact Ends.pure (.inr (.inr ⟨_, _, rfl⟩))
      · rename_i hconsume
        have hconsume : e.isConsume = true := by simpa using hconsume
        refine Ends.via (fun _ u => u = { t with ledger := Ledger.release a t.ledger }) rfl
          fun _ u hu => ?_
        subst hu
        cases rule? with
        | none => exact Ends.pure (.inr (.inl ⟨q, .refl, hlt, .short rfl hopen hloaded hconsume⟩))
        | some rule =>
          refine Ends.via (fun viewEnd? u => viewEnd? = t.view.size? ∧ u = _) ⟨rfl, rfl⟩
            fun viewEnd? u hu => ?_
          obtain ⟨rfl, rfl⟩ := hu
          split
          · exact .inr (.inl ⟨q, .refl, hlt, .unterminated rfl hloaded hconsume ‹_›⟩)
          · exact Ends.pure (.inr (.inr ⟨_, _, rfl⟩))
    · split
      · exact Ends.pure (.inr (.inr ⟨_, _, rfl⟩))
      · rename_i cursor hspan
        split
        · exact Ends.pure (.inr (.inl ⟨q, .refl, hlt, .last hopen hloaded hspan ‹_›⟩))
        · rename_i hmore
          have hgoes : Goes env depth element rule? frames q ⟨q.frame.push a, q.index + 1, cursor, t⟩ :=
            ⟨hopen, a, hloaded, hspan, by simpa using hmore, rfl, rfl⟩
          have hsum : q.index + 1 + budget = q.index + (budget + 1) := by omega
          refine (ih ⟨q.frame.push a, q.index + 1, cursor, t⟩).mono fun out u hu => ?_
          rcases hu with ⟨herror, r, hreaches, hindex⟩ | ⟨r, hreaches, hless, hcloses⟩ | herror
          · exact .inl ⟨herror, r, .head hgoes hreaches, hindex.trans hsum⟩
          · exact .inr (.inl ⟨r, .head hgoes hreaches, hsum ▸ hless, hcloses⟩)
          · exact .inr (.inr herror)

end Turns

open OpenTurn in
/-- When an open array is refused, and what it is otherwise. It is told to have too many elements exactly
when as many as are allowed were loaded and none of them was the last. Where it is complete before that,
it is loaded; it is loaded nowhere else; and then it has no more elements than are allowed. -/
theorem load_open_limited (env : Env κ) (depth : Nat) {element : Layout κ} {rule? : Option κ}
    (frames : List (Frame κ)) {a : Atom κ} (ha : a.info.layout = .bytes (.array element (.openEnded rule?)))
    (s : LoadState κ) :
    Ends (load env (depth + 1) frames a) s fun out t =>
      (out.error? = some env.tooMany ↔ ∃ q,
        Relation.ReflTransGen (Goes env depth element rule? frames) (first a s) q
          ∧ q.index = env.config.maxElements)
      ∧ (∀ q closed u, Relation.ReflTransGen (Goes env depth element rule? frames) (first a s) q →
        q.index < env.config.maxElements → q.Closes env depth element rule? frames closed u →
          closed.error? = none ∧ out = closed ∧ t = u)
      ∧ (out.error? = none → out.atom.parts.length ≤ env.config.maxElements
        ∧ ∃ q, Relation.ReflTransGen (Goes env depth element rule? frames) (first a s) q
          ∧ q.index < env.config.maxElements ∧ q.Closes env depth element rule? frames out t) := by
  have hends : Ends (loadOpen env (load env depth) element rule? frames env.config.maxElements
      (first a s).frame (first a s).index (first a s).cursor) (first a s).state _ :=
    ends_loadOpen env.config.maxElements (first a s)
  rw [Ends, load_openEnded env depth frames ha]
  generalize hrun : loadOpen env (load env depth) element rule? frames env.config.maxElements
    (first a s).frame (first a s).index (first a s).cursor (first a s).state = run
  have hzero : (first a s).index = 0 := rfl
  rw [Ends, hrun, hzero, Nat.zero_add] at hends
  rw [hzero] at hrun
  obtain ⟨out, t⟩ := run
  dsimp only at hends ⊢
  refine ⟨⟨fun herror => ?_, ?_⟩, fun q closed u hreaches hless hcloses => ?_, fun hok => ?_⟩
  · rcases hends with ⟨-, h⟩ | ⟨r, -, -, hcloses⟩ | ⟨i, e, hother⟩
    · exact h
    · cases hcloses.error?_eq.symm.trans herror
    · exact absurd (Option.some.inj (hother.symm.trans herror)) (env.within_ne_tooMany i e)
  · rintro ⟨q, hreaches, hindex⟩
    have hloop := loadOpen_of_reaches hreaches 0
    rw [hindex, hzero, Nat.sub_zero, Nat.add_zero, hrun] at hloop
    exact congrArg (fun r => r.1.error?) hloop
  · obtain ⟨more, hmore⟩ : ∃ more, env.config.maxElements = q.index + (more + 1) :=
      ⟨env.config.maxElements - q.index - 1, by omega⟩
    have hloop := loadOpen_of_reaches hreaches (more + 1)
    rw [hzero, Nat.sub_zero, ← hmore, hrun, loadOpen_of_closes hcloses] at hloop
    exact ⟨hcloses.error?_eq, congrArg Prod.fst hloop, congrArg Prod.snd hloop⟩
  · rcases hends with ⟨herror, -⟩ | ⟨q, hreaches, hless, hcloses⟩ | ⟨i, e, hother⟩
    · cases hok.symm.trans herror
    · have hlength := hcloses.length_le (counted_of_reaches hreaches (counted_first a s))
      exact ⟨by omega, q, hreaches, hless, hcloses⟩
    · cases hok.symm.trans hother

/-- The rules of documents in which a terminated array has so many elements. -/
def Rules.endingWith (count : Nat) : Rules Unit :=
  ⟨fun _ _ => .ok (.block 1), fun _ _ => .ok (.int 1 false), fun _ _ => .ok 1, fun _ _ => .ok (.bool true),
    fun _ _ given _ => given == count, fun _ n => n, fun _ _ _ => .ok 0, fun _ _ _ => .ok 0⟩

def threeBytes : LoadState Unit := ⟨{}, [.memory #[1, 2, 3] false 0], .source 0⟩

/-- The third element is the last one allowed, and the rule accepts it. -/
theorem load_open_limited_of_three :
    let env : Env Unit := ⟨{ maxElements := 3 }, .endingWith 3⟩
    let a : Atom Unit := .blank 0 "bytes" (.bytes (.array (.int .u8) (.terminated ()))) 0
    let run := load env (1 + 1) [] a threeBytes
    run.1.error? = none ∧ run.1.atom.parts.length = 3 ∧ run.1.error? ≠ some env.tooMany
      ∧ ∃ q, Relation.ReflTransGen (OpenTurn.Goes env 1 (.int .u8) (some ()) []) (.first a threeBytes) q
        ∧ q.index < 3 ∧ q.Closes env 1 (.int .u8) (some ()) [] run.1 run.2 := by
  intro env a
  have hok : (load env (1 + 1) [] a threeBytes).1.error? = none := by decide +kernel
  have hlength : (load env (1 + 1) [] a threeBytes).1.atom.parts.length = 3 := by decide +kernel
  have ha : a.info.layout = .bytes (.array (.int .u8) (.openEnded (some ()))) := rfl
  have hlimited := load_open_limited env 1 [] ha threeBytes
  dsimp only
  exact ⟨hok, hlength, hok ▸ nofun, (hlimited.2.2 hok).2⟩

/-- Three bytes are an unending array of three elements when four are allowed. When three are allowed it is
told that these are too many. -/
theorem load_unending_refused :
    let env (limit : Nat) : Env Unit := ⟨{ maxElements := limit }, .endingWith 0⟩
    let run (limit : Nat) := load (env limit) (1 + 1) []
      (.blank 0 "bytes" (.bytes (.array (.int .u8) .unending)) 0) threeBytes
    (run 4).1.error? = none ∧ (run 4).1.atom.parts.length = 3
      ∧ ¬ ((run 3).1.error? = some (env 3).tooMany → 3 < (run 4).1.atom.parts.length) := by
  intro env run
  have hlength : (run 4).1.atom.parts.length = 3 := by decide +kernel
  have hrefused : (run 3).1.error? = some (env 3).tooMany := by decide +kernel
  refine ⟨by decide +kernel, hlength, fun h => ?_⟩
  have hmore := h hrefused
  rw [hlength] at hmore
  exact Nat.lt_irrefl 3 hmore

end BinaryLayout
