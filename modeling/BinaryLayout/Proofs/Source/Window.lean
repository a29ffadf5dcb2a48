import BinaryLayout.Proofs.Source.Request

/-!
# A window of bytes in memory

A window of bytes that a source holds in memory is a cursor over that stretch of them. It does not
matter what is asked of the source itself in between, nor where the source is left standing: what the
window answers follows from the bytes inside it and from its own place, a transfer that does not fit
is refused at this place, and no byte outside the window is changed through it.

## Main definitions

* `Slice`: a cursor over a fixed number of bytes.
* `Shared`: bytes with a place for their owner and one for a window of them.
* `Sources.Shares`: open sources in which one is a window of another.

## Main statements

* `Sources.Shares.ask`: one request, to the source or to the window.
* `Sources.Shares.serve_interleaved`: any sequence of requests.
-/

namespace BinaryLayout

/-- A cursor over bytes whose number does not change. -/
structure Slice where
  bytes : Bytes
  cursor : Nat

/-- What a slice is asked. A transfer takes place as a whole or not at all. -/
def Slice.ask (s : Slice) : Request → Except SourceError Reply × Slice
  | .seek offset =>
    if s.bytes.length < offset then (.error (.outOfBounds offset s.bytes.length), s)
    else (.ok (.previous s.cursor), ⟨s.bytes, offset⟩)
  | .consume amount =>
    if s.cursor + amount ≤ s.bytes.length then
      (.ok (.read ((s.bytes.drop s.cursor).take amount)), ⟨s.bytes, s.cursor + amount⟩)
    else (.error (.consume s.cursor amount (s.bytes.length - s.cursor)), s)
  | .store new =>
    if s.cursor + new.length ≤ s.bytes.length then
      (.ok (.written new.length),
        ⟨s.bytes.take s.cursor ++ new ++ s.bytes.drop (s.cursor + new.length), s.cursor + new.length⟩)
    else (.error (.store s.cursor new.length 0), s)

/-- A slice keeps the number of its bytes. -/
theorem Slice.length_ask (s : Slice) (r : Request) : (s.ask r).2.bytes.length = s.bytes.length := by
  cases r with
  | seek | consume => rw [ask]; split <;> rfl
  | store new =>
    rw [ask]
    split
    · simp only [List.length_append, List.length_take, List.length_drop]
      omega
    · rfl

/-- Whether a request that was answered so moved bytes. -/
def Reply.isTransfer : Reply → Bool
  | previous _ => false
  | read _ | written _ => true

/-- Who is asked: the source that holds the bytes, or the window of it. -/
inductive Party where
  | owner
  | window

/-- Bytes with a place for the source that holds them and one for a window of it. -/
structure Shared where
  bytes : Bytes
  owner : Nat
  window : Nat

namespace Shared

/-- The bytes inside the window, from its own place. -/
def slice (base length : Nat) (s : Shared) : Slice := ⟨(s.bytes.drop base).take length, s.window⟩

/-- What the source itself is asked. Only its own bytes and place matter, and a write past the end
makes the bytes longer. -/
def askOwner (s : Shared) : Request → Except SourceError Reply × Shared
  | .seek offset =>
    if s.bytes.length < offset then (.error (.outOfBounds offset s.bytes.length), s)
    else (.ok (.previous s.owner), { s with owner := offset })
  | .consume amount =>
    if s.owner + amount ≤ s.bytes.length then
      (.ok (.read ((s.bytes.drop s.owner).take amount)), { s with owner := s.owner + amount })
    else (.error (.consume s.owner amount (s.bytes.length - s.owner)), s)
  | .store new =>
    (.ok (.written new.length),
      { s with
        bytes := s.bytes.take s.owner ++ new ++ s.bytes.drop (s.owner + new.length)
        owner := s.owner + new.length })

/-- What the window is asked. The slice alone answers, and takes the place of the bytes inside the
window; a transfer leaves the source standing where the window stands. -/
def askWindow (base length : Nat) (s : Shared) (r : Request) : Except SourceError Reply × Shared :=
  let run := (s.slice base length).ask r
  (run.1,
    { bytes := s.bytes.take base ++ run.2.bytes ++ s.bytes.drop (base + length)
      owner := if run.1.toOption.any Reply.isTransfer then base + run.2.cursor else s.owner
      window := run.2.cursor })

def ask (base length : Nat) (s : Shared) : Party × Request → Except SourceError Reply × Shared
  | (.owner, r) => s.askOwner r
  | (.window, r) => s.askWindow base length r

/-- The answers to requests, one after another. -/
def serve (base length : Nat) (s : Shared) :
    List (Party × Request) → List (Except SourceError Reply) × Shared
  | [] => ([], s)
  | step :: steps =>
    let first := s.ask base length step
    let rest := serve base length first.2 steps
    (first.1 :: rest.1, rest.2)

/-- The bytes outside the window are not changed through it. -/
theorem outside_askWindow {base length : Nat} {s : Shared} (hinside : base + length ≤ s.bytes.length)
    (r : Request) : (s.askWindow base length r).2.bytes.take base = s.bytes.take base
      ∧ (s.askWindow base length r).2.bytes.drop (base + length) = s.bytes.drop (base + length) := by
  have hstart : (s.slice base length).bytes.length = length := by
    rw [slice, List.length_take, List.length_drop]
    omega
  have hlength : ((s.slice base length).ask r).2.bytes.length = length := (Slice.length_ask _ r).trans hstart
  have hfront : (s.bytes.take base).length = base := List.length_take_of_le (by omega)
  constructor
  · rw [askWindow, List.append_assoc]
    exact List.take_left' hfront
  · rw [askWindow]
    exact List.drop_left' (by rw [List.length_append, hfront, hlength])

end Shared

/-- Bytes that are written in the middle of a stretch are written in the middle of the whole. -/
theorem splice_inside {α : Type} (l : List α) {new : List α} {base length k : Nat}
    (hroom : k + new.length ≤ length) :
    l.take base ++ (((l.drop base).take length).take k ++ new
        ++ ((l.drop base).take length).drop (k + new.length)) ++ l.drop (base + length) =
      l.take (base + k) ++ new ++ l.drop (base + k + new.length) := by
  have hfront : l.take base ++ ((l.drop base).take length).take k = l.take (base + k) := by
    rw [List.take_take, Nat.min_eq_left (by omega), List.take_add]
  have hback : ((l.drop base).take length).drop (k + new.length) ++ l.drop (base + length) =
      l.drop (base + k + new.length) := by
    have hrest : l.drop (base + length) =
        (l.drop (base + k + new.length)).drop (length - (k + new.length)) := by
      rw [List.drop_drop]
      congr 1
      omega
    rw [List.drop_take, List.drop_drop, ← Nat.add_assoc, hrest, Nat.add_assoc, List.take_append_drop]
  rw [← List.append_assoc, ← List.append_assoc, hfront, List.append_assoc, hback]

namespace Sources

/-- Source `id` is the window of `length` bytes from `base` on of source `home`, which holds its bytes
in memory. -/
structure Shares (sources : Sources) (home id base length : Nat) (s : Shared) : Prop where
  owner : sources.source? home = some (.memory s.bytes.toArray true s.owner)
  window : sources.source? id = some (.proxy home base length s.window)
  older : home < id
  inside : base + length ≤ s.bytes.length
  word : base + length < pow2 64
  owner_le : s.owner ≤ s.bytes.length
  window_le : s.window ≤ length

def askParty (sources : Sources) (home id : Nat) : Party × Request → Except SourceError Reply × Sources
  | (.owner, r) => sources.ask home r
  | (.window, r) => sources.ask id r

/-- The answers to requests, one after another. -/
def serve (sources : Sources) (home id : Nat) :
    List (Party × Request) → List (Except SourceError Reply) × Sources
  | [] => ([], sources)
  | step :: steps =>
    let first := sources.askParty home id step
    let rest := serve first.2 home id steps
    (first.1 :: rest.1, rest.2)

namespace Shares

variable {sources : Sources} {home id base length : Nat} {s : Shared}

theorem home_lt (h : sources.Shares home id base length s) : home < sources.length :=
  lt_of_source? h.owner

/-- The source was changed, and the window was not. -/
theorem put_owner (h : sources.Shares home id base length s) {bytes : Bytes} {owner : Nat}
    (hbytes : s.bytes.length ≤ bytes.length) (howner : owner ≤ bytes.length) :
    (sources.put (.memory bytes.toArray true owner) home).Shares home id base length
      { s with bytes, owner } where
  owner := by rw [source?_put h.home_lt, if_pos rfl]
  window := by rw [source?_put h.home_lt, if_neg (Nat.ne_of_gt h.older), h.window]
  older := h.older
  inside := Nat.le_trans h.inside hbytes
  word := h.word
  owner_le := howner
  window_le := h.window_le

/-- The window was moved. -/
theorem put_window (h : sources.Shares home id base length s) {window : Nat} (hwindow : window ≤ length) :
    (sources.put (.proxy home base length window) id).Shares home id base length { s with window } where
  owner := by rw [source?_put (lt_of_source? h.window), if_neg (Nat.ne_of_lt h.older), h.owner]
  window := by rw [source?_put (lt_of_source? h.window), if_pos rfl]
  older := h.older
  inside := h.inside
  word := h.word
  owner_le := h.owner_le
  window_le := hwindow

/-- What became of a request: the answer is that of the shared bytes, which are held as they are then,
and no other source was touched. -/
def Answers (sources : Sources) (home id base length : Nat) :
    Except SourceError Reply × Sources → Except SourceError Reply × Shared → Prop
  | (answer, after), (expected, s) =>
    answer = expected ∧ after.Shares home id base length s
      ∧ ∀ j, j ≠ home → j ≠ id → after.source? j = sources.source? j

/-- The source itself is asked. -/
theorem ask_owner (h : sources.Shares home id base length s) (r : Request) :
    Answers sources home id base length (sources.ask home r) (s.askOwner r) := by
  have hput (bytes : Bytes) (owner : Nat) (hbytes : s.bytes.length ≤ bytes.length)
      (howner : owner ≤ bytes.length) (answer : Except SourceError Reply) :
      Answers sources home id base length
        (answer, sources.put (.memory bytes.toArray true owner) home) (answer, { s with bytes, owner }) :=
    ⟨rfl, h.put_owner hbytes howner, fun j hj _ => by rw [source?_put h.home_lt, if_neg hj]⟩
  have hnone (k : Nat) (hk : (none : Option Nat) = some k) : k ≤ s.bytes.toArray.size := nomatch hk
  cases r with
  | seek offset =>
    rw [ask, seek_eq h.owner, Source.seek, Shared.askOwner, List.size_toArray]
    by_cases hbound : s.bytes.length < offset
    · rw [if_pos hbound, if_pos hbound]
      exact hput s.bytes s.owner (Nat.le_refl _) h.owner_le _
    · rw [if_neg hbound, if_neg hbound]
      exact hput s.bytes offset (Nat.le_refl _) (Nat.le_of_not_lt hbound) _
  | consume amount =>
    rw [ask, consume, read_memory h.owner hnone, Shared.askOwner, List.size_toArray]
    simp only [Option.getD_none]
    by_cases hroom : s.owner + amount ≤ s.bytes.length
    · rw [if_pos hroom, if_pos hroom]
      exact hput s.bytes _ (Nat.le_refl _) hroom _
    · rw [if_neg hroom, if_neg hroom]
      exact hput s.bytes s.owner (Nat.le_refl _) h.owner_le _
  | store new =>
    rw [ask, store, write_memory h.owner hnone, Shared.askOwner]
    simp only [Option.getD_none]
    have hwritten : Device.written s.bytes.toArray s.owner new =
        (s.bytes.take s.owner ++ new ++ s.bytes.drop (s.owner + new.length)).toArray := by
      rw [← (Device.written s.bytes.toArray s.owner new).toArray_toList,
        Device.toList_written _ (by rw [List.size_toArray]; exact h.owner_le)]
    have hlength : (s.bytes.take s.owner ++ new ++ s.bytes.drop (s.owner + new.length)).length =
        max s.bytes.length (s.owner + new.length) := by
      have := h.owner_le
      simp only [List.length_append, List.length_take, List.length_drop]
      omega
    rw [hwritten]
    exact hput _ _ (hlength ▸ Nat.le_max_left _ _) (hlength ▸ Nat.le_max_right _ _) _

/-- The window is asked. -/
theorem ask_window (h : sources.Shares home id base length s) (r : Request) :
    Answers sources home id base length (sources.ask id r) (s.askWindow base length r) := by
  have hlength : ((s.bytes.drop base).take length).length = length := by
    have := h.inside
    rw [List.length_take, List.length_drop]
    omega
  have hwhole : s.bytes.take base ++ (s.bytes.drop base).take length ++ s.bytes.drop (base + length)
      = s.bytes := by
    rw [List.append_assoc, ← List.drop_drop, List.take_append_drop, List.take_append_drop]
  have hplace : wrapOffset (base + s.window) = base + s.window :=
    Nat.mod_eq_of_lt (Nat.lt_of_le_of_lt (Nat.add_le_add_left h.window_le base) h.word)
  have hstart (k : Nat) (hk : some (base + s.window) = some k) : k ≤ s.bytes.toArray.size := by
    cases hk
    rw [List.size_toArray]
    exact Nat.le_trans (Nat.add_le_add_left h.window_le base) h.inside
  have hput (bytes : Bytes) (amount : Nat) (hbytes : bytes.length = s.bytes.length)
      (hroom : s.window + amount ≤ length) (answer : Except SourceError Reply) :
      Answers sources home id base length
        (answer, (sources.put (.memory bytes.toArray true (base + s.window + amount)) home).put
          (.proxy home base length (s.window + amount)) id)
        (answer, ⟨bytes, base + (s.window + amount), s.window + amount⟩) := by
    have hinside := h.inside
    have howner : base + s.window + amount ≤ bytes.length := by omega
    rw [← Nat.add_assoc]
    refine ⟨rfl, (h.put_owner (Nat.le_of_eq hbytes.symm) howner).put_window hroom, fun j hj hjd => ?_⟩
    rw [source?_put (by rw [length_put]; exact lt_of_source? h.window), if_neg hjd,
      source?_put h.home_lt, if_neg hj]
  cases r with
  | seek offset =>
    rw [ask, seek_eq h.window, Source.seek, Shared.askWindow, Slice.ask, Shared.slice, hlength]
    by_cases hbound : length < offset
    · rw [if_pos hbound, if_pos hbound, put_self h.window]
      dsimp only
      rw [hwhole]
      exact ⟨rfl, h, fun _ _ _ => rfl⟩
    · rw [if_neg hbound, if_neg hbound]
      dsimp only
      rw [hwhole]
      exact ⟨rfl, h.put_window (Nat.le_of_not_lt hbound), fun j _ hj => by
        rw [source?_put (lt_of_source? h.window), if_neg hj]⟩
  | consume amount =>
    rw [ask, consume, read_proxy h.window h.older, hplace, Shared.askWindow, Slice.ask, Shared.slice,
      hlength]
    have hcursor := h.window_le
    by_cases hroom : s.window + amount ≤ length
    · have hfits : base + s.window + amount ≤ s.bytes.length := by
        have := h.inside
        omega
      have hread : (((s.bytes.drop base).take length).drop s.window).take amount =
          (s.bytes.drop (base + s.window)).take amount := by
        rw [List.drop_take, List.drop_drop, List.take_take, Nat.min_eq_left (by omega)]
      rw [if_neg (by omega), if_pos hroom, read_memory h.owner hstart, Option.getD_some,
        List.size_toArray, if_pos hfits]
      dsimp only
      rw [hwhole, hread]
      exact hput s.bytes amount rfl hroom _
    · rw [if_pos (by omega), if_neg hroom]
      dsimp only
      rw [hwhole]
      exact ⟨rfl, h, fun _ _ _ => rfl⟩
  | store new =>
    rw [ask, store, write_proxy h.window h.older, hplace, Shared.askWindow, Slice.ask, Shared.slice,
      hlength]
    have hcursor := h.window_le
    by_cases hroom : s.window + new.length ≤ length
    · have hwritten : Device.written s.bytes.toArray (base + s.window) new =
          (s.bytes.take base ++ (((s.bytes.drop base).take length).take s.window ++ new
            ++ ((s.bytes.drop base).take length).drop (s.window + new.length))
            ++ s.bytes.drop (base + length)).toArray := by
        rw [splice_inside s.bytes hroom,
          ← (Device.written s.bytes.toArray (base + s.window) new).toArray_toList,
          Device.toList_written _ (hstart _ rfl)]
      have hsize : (s.bytes.take base ++ (((s.bytes.drop base).take length).take s.window ++ new
          ++ ((s.bytes.drop base).take length).drop (s.window + new.length))
          ++ s.bytes.drop (base + length)).length = s.bytes.length := by
        have := h.inside
        rw [splice_inside s.bytes hroom]
        simp only [List.length_append, List.length_take, List.length_drop]
        omega
      rw [if_neg (by omega), if_pos hroom, write_memory h.owner hstart, Option.getD_some, hwritten]
      exact hput _ new.length hsize hroom _
    · rw [if_pos (by omega), if_neg hroom]
      dsimp only
      rw [hwhole]
      exact ⟨rfl, h, fun _ _ _ => rfl⟩

/-- One request, to the source or to the window. -/
theorem ask (h : sources.Shares home id base length s) (step : Party × Request) :
    Answers sources home id base length (sources.askParty home id step) (s.ask base length step) := by
  cases step with
  | mk party r =>
    cases party with
    | owner => exact h.ask_owner r
    | window => exact h.ask_window r

/-- Requests to the source and to the window in any order are answered as the shared bytes answer
them, and touch no other source. What the window is asked next changes no byte outside it, and is
answered alike wherever the source itself stands. -/
theorem serve_interleaved (h : sources.Shares home id base length s) (steps : List (Party × Request)) :
    ∃ answers after t, sources.serve home id steps = (answers, after)
      ∧ s.serve base length steps = (answers, t) ∧ after.Shares home id base length t
      ∧ (∀ j, j ≠ home → j ≠ id → after.source? j = sources.source? j)
      ∧ ∀ r, (t.askWindow base length r).2.bytes.take base = t.bytes.take base
        ∧ (t.askWindow base length r).2.bytes.drop (base + length) = t.bytes.drop (base + length)
        ∧ ∀ owner ≤ t.bytes.length,
          ((after.put (.memory t.bytes.toArray true owner) home).ask id r).1 = (after.ask id r).1 := by
  induction steps generalizing sources s with
  | nil =>
    refine ⟨[], sources, s, rfl, rfl, h, fun _ _ _ => rfl, fun r => ?_⟩
    obtain ⟨hfront, hback⟩ := Shared.outside_askWindow h.inside r
    refine ⟨hfront, hback, fun owner howner => ?_⟩
    exact ((h.put_owner (Nat.le_refl _) howner).ask_window r).1.trans (h.ask_window r).1.symm
  | cons step steps ih =>
    have hask := h.ask step
    generalize hfirst : sources.askParty home id step = first at hask
    generalize hexpected : s.ask base length step = expected at hask
    obtain ⟨hanswer, hshares, hothers⟩ := hask
    obtain ⟨answers, after, t, hserve, hshared, hlast, hafter, hnext⟩ := ih hshares
    refine ⟨first.1 :: answers, after, t, ?_, ?_, hlast, ?_, hnext⟩
    · simp only [serve, hfirst, hserve]
    · simp only [Shared.serve, hexpected, hshared, hanswer]
    · exact fun j hj hid => (hafter j hj hid).trans (hothers j hj hid)

/-- A window of three of six bytes: a write that does not fit, one that does, and a write of the source
itself inside the window and past the end of its bytes. -/
theorem serve_interleaved_of_refused_write :
    let sources : Sources := [.proxy 0 2 3 0, .memory #[1, 2, 3, 4, 5, 6] true 6]
    let steps : List (Party × Request) := [(.window, .consume 2), (.window, .store [7, 8]),
      (.window, .seek 1), (.window, .store [7, 8]), (.owner, .consume 1), (.owner, .seek 4),
      (.owner, .store [9, 9, 9]), (.window, .seek 0), (.window, .consume 3), (.window, .consume 1)]
    sources.Shares 0 1 2 3 ⟨[1, 2, 3, 4, 5, 6], 6, 0⟩
      ∧ ∃ after, sources.serve 0 1 steps = ([.ok (.read [3, 4]), .error (.store 2 2 0),
          .ok (.previous 2), .ok (.written 2), .ok (.read [6]), .ok (.previous 6), .ok (.written 3),
          .ok (.previous 3), .ok (.read [3, 7, 9]), .error (.consume 3 1 0)], after)
        ∧ after.Shares 0 1 2 3 ⟨[1, 2, 3, 7, 9, 9, 9], 5, 3⟩ := by
  intro sources steps
  have hshares : sources.Shares 0 1 2 3 ⟨[1, 2, 3, 4, 5, 6], 6, 0⟩ :=
    ⟨rfl, rfl, by decide, by decide, by decide, by decide, by decide⟩
  obtain ⟨answers, after, t, hserve, hshared, hafter, -⟩ := hshares.serve_interleaved steps
  cases hshared
  exact ⟨hshares, after, hserve, hafter⟩

end Shares

end Sources

end BinaryLayout
