import BinaryLayout.Proofs.Locality.Read

/-!
# Reading what two views have in common

Two views that serve the same bytes, each seen through a window that ends with these bytes, answer
every step alike: a byte inside is the same in both, and a byte past the end is refused by both windows
before anything behind them is asked. So a computation that reads them gives the same result and leaves
the same handles and warnings, and what it does next is the same too.

## Main definitions

* `Agrees`: a computation that gives the same from related states.
* `Likeness.enclosed`: windows that end with the bytes that both views serve.
* `LoadState.Same`: states with the same ledger, whose views answer alike.

## Main statements

* `Agrees.bind`: one computation after another.
* `LoadM.agrees_readAt`, `LoadM.agrees_readLeaf`: reads at an offset.
* `LoadM.agrees_inWindow`: a computation in a window of views that answer alike.
-/

namespace BinaryLayout

variable {κ σ α β ε : Type}

/-! ## Computations that agree -/

/-- Run from two states that `before` relates, the computation gives the same result, and `after`
relates the states that it leaves. -/
def Agrees (before : σ → σ → Prop) (after : α → σ → σ → Prop) (m : StateM σ α) : Prop :=
  ∀ s s', before s s' → (m s).1 = (m s').1 ∧ after (m s).1 (m s).2 (m s').2

/-- The states are related by `ok` after a result, and by `failed` after an error. -/
def Fared (ok : α → σ → σ → Prop) (failed : σ → σ → Prop) : Except ε α → σ → σ → Prop
  | .ok a => ok a
  | .error _ => failed

namespace Agrees

variable {before : σ → σ → Prop} {after : α → σ → σ → Prop}

theorem pure {a : α} (h : ∀ s s', before s s' → after a s s') :
    Agrees before after (Pure.pure a : StateM σ α) :=
  fun s s' hs => ⟨rfl, h s s' hs⟩

/-- A computation that leaves the states related as they are. -/
theorem keep (a : α) : Agrees before (fun _ => before) (Pure.pure a : StateM σ α) :=
  pure fun _ _ h => h

/-- One computation after another. As the first gives the same, what follows is the same. -/
theorem bind {m : StateM σ α} {f : α → StateM σ β} {last : β → σ → σ → Prop}
    (hm : Agrees before after m) (hf : ∀ a, Agrees (after a) last (f a)) :
    Agrees before last (m >>= f) := by
  intro s s' hs
  obtain ⟨hresult, hafter⟩ := hm s s' hs
  have hrest := hf (m s).1 (m s).2 (m s').2 hafter
  show (f (m s).1 (m s).2).1 = (f (m s').1 (m s').2).1
    ∧ last (f (m s).1 (m s).2).1 (f (m s).1 (m s).2).2 (f (m s').1 (m s').2).2
  rw [← hresult]
  exact hrest

/-- One computation after another, where the first takes no part in how the states are related. -/
theorem andThen {m : StateM σ α} {f : α → StateM σ β} {last : β → σ → σ → Prop}
    (hm : Agrees before (fun _ => before) m) (hf : ∀ a, Agrees before last (f a)) :
    Agrees before last (m >>= f) :=
  hm.bind hf

/-- What is known of the result alone. -/
theorem knowing {p : α → Prop} {m : StateM σ α} (hm : Agrees before after m) (h : ∀ s, p (m s).1) :
    Agrees before (fun a s s' => after a s s' ∧ p a) m :=
  fun s s' hs => ⟨(hm s s' hs).1, (hm s s' hs).2, h s⟩

/-- What was known of an earlier result. -/
theorem given {p : Prop} {m : StateM σ α} (h : p → Agrees before after m) :
    Agrees (fun s s' => before s s' ∧ p) after m :=
  fun s s' hs => h hs.2 s s' hs.1

end Agrees

/-! ## Windows of the same bytes -/

/-- Windows that end at `limit`, of views that serve the bytes at `start`. -/
inductive View.Enclosed (bytes : Bytes) (start limit : Nat) : View → View → Prop
  | intro {v w : View} {j k : Nat} (i i' : Nat) (hv : v.Serves bytes start j) (hw : w.Serves bytes start k) :
    Enclosed bytes start limit (v.window limit i) (w.window limit i')

/-- Such windows, both of which stand at `k`. -/
inductive View.EnclosedAt (bytes : Bytes) (start limit k : Nat) : View → View → Prop
  | intro {v w : View} (hstart : start ≤ k) (hlimit : k ≤ limit) (hv : v.Serves bytes start k)
    (hw : w.Serves bytes start k) :
    EnclosedAt bytes start limit k (v.window limit k) (w.window limit k)

section Enclosed

variable {bytes : Bytes} {start : Nat} {v w : View}

theorem View.EnclosedAt.enclosed {limit k : Nat} (h : v.EnclosedAt bytes start limit k w) :
    v.Enclosed bytes start limit w := by
  obtain ⟨-, -, hv, hw⟩ := h
  exact .intro _ _ hv hw

/-- Both are moved to the same offset, or refuse it. -/
theorem View.Enclosed.seek (h : v.Enclosed bytes start (start + bytes.length) w) {offset : Nat}
    (hstart : start ≤ offset) :
    Twin none start (fun _ _ => True) (View.EnclosedAt bytes start (start + bytes.length) offset)
      (View.Enclosed bytes start (start + bytes.length)) (v.seek offset) (w.seek offset) := by
  obtain @⟨v, w, j, k, i, i', hv, hw⟩ := h
  rw [View.seek_window, View.seek_window]
  split
  · exact .failed rfl (.intro i i' hv hw)
  · have hstop : offset ≤ start + bytes.length := Nat.le_of_not_lt ‹_›
    obtain ⟨_, v', hv', hserves⟩ := hv.seek hstart hstop
    obtain ⟨_, w', hw', hserves'⟩ := hw.seek hstart hstop
    rw [hv', hw']
    exact .ok trivial (.intro hstart hstop hserves hserves')

/-- Both give the same bytes, or lack them. -/
theorem View.EnclosedAt.consume {k : Nat} (h : v.EnclosedAt bytes start (start + bytes.length) k w)
    (amount : Nat) :
    Twin none start Eq (View.EnclosedAt bytes start (start + bytes.length) (k + amount))
      (View.EnclosedAt bytes start (start + bytes.length) k) (v.consume amount) (w.consume amount) := by
  obtain ⟨hstart, hlimit, hv, hw⟩ := h
  rw [View.consume_window, View.consume_window]
  split
  · exact .failed rfl (.intro hstart hlimit hv hw)
  · have hroom : k + amount ≤ start + bytes.length := by omega
    obtain ⟨v', hv', hserves⟩ := hv.consume hstart hroom
    obtain ⟨w', hw', hserves'⟩ := hw.consume hstart hroom
    rw [hv', hw']
    exact .ok rfl (.intro (Nat.le_trans hstart (Nat.le_add_right _ _)) hroom hserves hserves')

/-- Both end with the bytes. -/
theorem View.Enclosed.size?_eq (h : v.Enclosed bytes start (start + bytes.length) w) :
    v.size? = w.size? := by
  obtain @⟨v, w, j, k, i, i', hv, hw⟩ := h
  obtain ⟨m, hm, hleft⟩ := hv.size
  obtain ⟨n, hn, hright⟩ := hw.size
  rw [View.size?] at hm hn
  rw [View.size?, View.size?, View.window, View.window, Reader.size?, Reader.size?, hm, hn]
  dsimp only
  rw [Nat.min_eq_right hleft, Nat.min_eq_right hright]

end Enclosed

/-- Windows that end with the bytes that both views serve. -/
def Likeness.enclosed (bytes : Bytes) (start : Nat) : Likeness where
  start
  bound? := none
  Like := View.Enclosed bytes start (start + bytes.length)
  Stands := View.EnclosedAt bytes start (start + bytes.length)
  like_of_stands h := h.enclosed
  shows h := nomatch h
  stands h := nomatch h
  seek h hstart _ := h.seek hstart
  consume h _ := h.consume _
  size _ h := h.size?_eq
  known h := nomatch h

/-! ## Reading -/

namespace LoadState

/-- The ledgers are the same, and the views answer alike. -/
structure Same (L : Likeness) (s s' : LoadState κ) : Prop where
  view : L.Like s.view s'.view
  ledger : s.ledger = s'.ledger

/-- The ledgers are the same, and the views answer alike and stand at `k`. -/
structure SameAt (L : Likeness) (k : Nat) (s s' : LoadState κ) : Prop where
  view : L.Stands k s.view s'.view
  ledger : s.ledger = s'.ledger

variable {L : Likeness} {k : Nat} {s s' : LoadState κ}

theorem SameAt.same (h : s.SameAt L k s') : s.Same L s' := ⟨L.like_of_stands h.view, h.ledger⟩

end LoadState

open LoadState

namespace LoadM

variable {L : Likeness}

/-- What reads no view gives the same from the same ledger. -/
theorem agrees_ofLedger (m : LedgerM κ α) : Agrees (Same L) (fun _ => Same L) (ofLedger m) := by
  intro s s' h
  show (m s.ledger).1 = (m s'.ledger).1 ∧ Same L { s with ledger := (m s.ledger).2 }
    { s' with ledger := (m s'.ledger).2 }
  rw [← h.ledger]
  exact ⟨rfl, h.view, rfl⟩

/-- Something that holds of what a computation on handles gives. -/
theorem agrees_ofLedger_of {p : α → Prop} {m : LedgerM κ α} (h : ∀ l, p (m l).1) :
    Agrees (Same L) (fun a s s' => Same L s s' ∧ p a) (ofLedger m) :=
  (agrees_ofLedger m).knowing fun s => h s.ledger

/-- A new atom is where it is put. -/
theorem agrees_spawn (name : String) (layout : AtomLayout κ) (offset : Nat) :
    Agrees (Same L) (fun a s s' => Same L s s' ∧ a.info.offset = offset)
      (ofLedger (LedgerM.spawn name layout offset)) :=
  agrees_ofLedger_of fun _ => rfl

variable (hbound : L.bound? = none)
include hbound

theorem agrees_viewEnd : Agrees (Same L) (fun _ => Same (κ := κ) L) viewEnd :=
  fun _ _ h => ⟨L.size hbound h.view, h⟩

theorem agrees_seekTo {offset : Nat} (amount : Nat) (hstart : L.start ≤ offset) :
    Agrees (Same L) (Fared (fun _ => SameAt (κ := κ) L offset) (Same L)) (seekTo offset amount) := by
  intro s s' h
  have hseek := L.seek h.view hstart fun b hb => nomatch hbound.symm.trans hb
  simp only [seekTo, modifyGet, MonadStateOf.modifyGet, StateT.modifyGet, Pure.pure]
  simp only [View.seek, LoadState.view] at hseek
  generalize s.reader.seek s.sources offset = left at hseek
  generalize s'.reader.seek s'.sources offset = right at hseek
  cases hseek with
  | ok _ hview => exact ⟨rfl, hview, h.ledger⟩
  | @failed e _ _ _ hview => cases e <;> exact ⟨rfl, hview, h.ledger⟩
  | lost hb => exact nomatch hbound.symm.trans hb

theorem agrees_next {k : Nat} (amount : Nat) :
    Agrees (SameAt L k) (Fared (fun _ => SameAt (κ := κ) L (k + amount)) (SameAt L k)) (next amount) := by
  intro s s' h
  have hread : Twin L.bound? L.start Eq (L.Stands (k + amount)) (L.Stands k)
      (s.view.consume amount) (s'.view.consume amount) :=
    L.consume h.view fun b hb => nomatch hbound.symm.trans hb
  simp only [next, modifyGet, MonadStateOf.modifyGet, StateT.modifyGet, Pure.pure]
  simp only [View.consume, LoadState.view] at hread
  generalize s.reader.consume s.sources amount = left at hread
  generalize s'.reader.consume s'.sources amount = right at hread
  cases hread with
  | ok hsame hview => exact hsame ▸ ⟨rfl, hview, h.ledger⟩
  | failed _ hview => exact ⟨rfl, hview, h.ledger⟩
  | lost hb => exact nomatch hbound.symm.trans hb

theorem agrees_readAt {offset : Nat} (amount : Nat) (hstart : L.start ≤ offset) :
    Agrees (Same L) (fun _ => Same (κ := κ) L) (readAt offset amount) := by
  rw [readAt]
  split
  · exact .keep _
  · refine (agrees_seekTo hbound amount hstart).bind fun result => ?_
    cases result with
    | error e => exact .keep _
    | ok =>
      refine (agrees_next hbound amount).bind fun result => .pure fun s s' h => ?_
      cases result with
      | error e => exact SameAt.same h
      | ok bytes => exact SameAt.same h

theorem agrees_readGroups (budget : Nat) (read : Bytes) (k : Nat) :
    Agrees (SameAt L k) (fun _ => Same (κ := κ) L) (readGroups budget read) := by
  induction budget generalizing read k with
  | zero => exact .pure fun _ _ h => h.same
  | succ budget ih =>
    rw [readGroups]
    refine (agrees_next hbound 1).bind fun result => ?_
    cases result with
    | error e => exact .pure fun _ _ h => SameAt.same h
    | ok bytes =>
      dsimp only
      split
      · exact ih _ _
      · exact .pure fun _ _ h => SameAt.same h

theorem agrees_readVarint {offset : Nat} (hstart : L.start ≤ offset) :
    Agrees (Same L) (fun _ => Same (κ := κ) L) (readVarint offset) := by
  refine (agrees_seekTo hbound 1 hstart).bind fun result => ?_
  cases result with
  | error e => exact .keep _
  | ok => exact agrees_readGroups hbound 19 [] offset

theorem agrees_readUnits (unit limit budget : Nat) (read : Bytes) (k : Nat) :
    Agrees (SameAt L k) (fun _ => Same (κ := κ) L) (readUnits unit limit budget read) := by
  induction budget generalizing read k with
  | zero => exact .pure fun _ _ h => h.same
  | succ budget ih =>
    rw [readUnits]
    refine (agrees_next hbound unit).bind fun result => ?_
    cases result with
    | error e => exact .pure fun _ _ h => SameAt.same h
    | ok bytes =>
      dsimp only
      split
      · exact .pure fun _ _ h => SameAt.same h
      · exact ih _ _

theorem agrees_readText (format : TextFormat) (limit : Nat) {offset : Nat} (hstart : L.start ≤ offset) :
    Agrees (Same L) (fun _ => Same (κ := κ) L) (readText format limit offset) := by
  rw [readText]
  dsimp only
  split
  · split
    · exact .keep _
    · exact agrees_readAt hbound _ hstart
  · refine (agrees_seekTo hbound _ hstart).bind fun result => ?_
    cases result with
    | error e => exact .keep _
    | ok => exact agrees_readUnits hbound _ _ _ [] offset
  · refine (agrees_readAt hbound _ hstart).andThen fun front => ?_
    split
    · exact .keep _
    · split
      · exact .keep _
      · split
        · exact .keep _
        · exact .keep _
        · rename_i start amount hspan _
          obtain ⟨rfl, -⟩ := spanEnd_eq hspan
          refine (agrees_readAt hbound amount (Nat.le_trans hstart (Nat.le_add_right _ _))).andThen
            fun body => .keep _

/-- The bytes of any layout without parts. -/
theorem agrees_readLeaf (config : Config) (frames : List (Frame κ)) (layout : Layout κ) {offset : Nat}
    (hstart : L.start ≤ offset) :
    Agrees (Same L) (fun _ => Same L) (readLeaf config frames layout offset) := by
  cases layout with
  | int | float | fixed | block | constant | padding | pointer | align =>
    exact agrees_readAt hbound _ hstart
  | varint signed => exact agrees_readVarint hbound hstart
  | text format => exact agrees_readText hbound format _ hstart
  | record | array | union | bits => exact .keep _

/-- A computation in a window of views that answer alike. -/
theorem agrees_inWindow {m : LoadM κ α} {limit : Nat}
    (hm : ∀ L' : Likeness, L'.bound? = none → L'.start = L.start → Agrees (Same L') (fun _ => Same L') m) :
    Agrees (Same L) (fun _ => Same L) (inWindow limit m) := by
  intro s s' h
  have hinside := hm (L.window limit fun b hb => nomatch hbound.symm.trans hb) rfl rfl
    { s with reader := .window s.reader limit 0 } { s' with reader := .window s'.reader limit 0 }
    ⟨.intro 0 0 h.view, h.ledger⟩
  simp only [inWindow, modifyGet, MonadStateOf.modifyGet, StateT.modifyGet, Pure.pure]
  generalize m { s with reader := .window s.reader limit 0 } = left at hinside
  generalize m { s' with reader := .window s'.reader limit 0 } = right at hinside
  obtain ⟨result, ledger, sources, reader⟩ := left
  obtain ⟨result', ledger', sources', reader'⟩ := right
  obtain ⟨hresult, hview, hledger⟩ := hinside
  refine ⟨hresult, ?_, hledger⟩
  cases hview with
  | intro i j hlike => exact hlike

end LoadM

end BinaryLayout
