import BinaryLayout.Proofs.Source.View

/-!
# Views that cannot be told apart

Two views are alike when the same steps on both give the same. They need not be so everywhere: a view
of a whole source and one of the bytes of a single atom are alike only up to the end of that atom.
What is done past this end is not compared, so a computation that may get there has to be known not
to go on as if nothing happened.

Windows of alike views are alike, and when they end before the others stop being alike, they are so
without any bound: what a window refuses it refuses in the same way whatever lies behind it.

## Main definitions

* `View`: a reader with the open sources.
* `Bound`: how far two loads are compared.
* `Likeness`: pairs of views on which the same steps give the same.
* `Likeness.same`, `Likeness.window`, `Likeness.brink`, `Likeness.ofBytes`: such pairs.
* `View.Serves`: a view that gives certain bytes.
-/

namespace BinaryLayout

variable {α : Type}

abbrev View := Reader × Sources

namespace View

def seek (v : View) (offset : Nat) : Except SourceError Nat × View := v.1.seek v.2 offset

def consume (v : View) (amount : Nat) : Except SourceError Bytes × View := v.1.consume v.2 amount

/-- The offset just past the view, when it is known. -/
def size? (v : View) : Option Nat := v.1.size? v.2

/-- The view as far as the offset `limit`. -/
def window (v : View) (limit cursor : Nat) : View := (.window v.1 limit cursor, v.2)

theorem shows_seek {data : Bytes} {v w : View} {offset : Nat} {result : Except SourceError Nat}
    (h : v.1.Shows data v.2) (hmoved : v.seek offset = (result, w)) : w.1.Shows data w.2 := by
  have hshows := (Reader.shows_seek offset h).1
  rw [seek] at hmoved
  rwa [hmoved] at hshows

theorem stands_seek {data : Bytes} {v w : View} {offset k : Nat} (h : v.1.Shows data v.2)
    (hmoved : v.seek offset = (.ok k, w)) : w.1.Stands offset w.2 := by
  have hstands := (Reader.shows_seek offset h).2
  rw [seek] at hmoved
  rw [hmoved] at hstands
  exact hstands k rfl

theorem shows_consume {data : Bytes} {v w : View} {amount : Nat} {result : Except SourceError Bytes}
    (h : v.1.Shows data v.2) (hread : v.consume amount = (result, w)) : w.1.Shows data w.2 := by
  have hshows := Reader.shows_consume amount h
  rw [consume] at hread
  rwa [hread] at hshows

theorem stands_consume {data : Bytes} {v w : View} {offset amount : Nat} {bytes : Bytes}
    (h : v.1.Shows data v.2) (hoffset : v.1.Stands offset v.2)
    (hread : v.consume amount = (.ok bytes, w)) : w.1.Stands (offset + amount) w.2 := by
  obtain ⟨r, sources⟩ := w
  exact (Reader.prefix_of_consume h hoffset hread).2

theorem length_consume {v w : View} {amount : Nat} {bytes : Bytes}
    (hread : v.consume amount = (.ok bytes, w)) : bytes.length = amount := by
  obtain ⟨r, sources⟩ := w
  exact Reader.length_consume hread

theorem seek_window (v : View) (limit cursor offset : Nat) :
    (v.window limit cursor).seek offset =
      if limit < offset then (.error (.outOfBounds offset limit), v.window limit cursor)
      else match v.seek offset with
        | (.ok _, w) => (.ok cursor, w.window limit offset)
        | (.error e, w) => (.error e, w.window limit cursor) := by
  simp only [seek, window, Reader.seek]
  split
  · rfl
  · generalize v.1.seek v.2 offset = moved
    obtain ⟨_ | _, _, _⟩ := moved <;> rfl

theorem consume_window (v : View) (limit cursor amount : Nat) :
    (v.window limit cursor).consume amount =
      if limit - cursor < amount then
        (.error (.consume cursor amount (limit - cursor)), v.window limit cursor)
      else match v.consume amount with
        | (.ok bytes, w) => (.ok bytes, w.window limit (cursor + amount))
        | (.error e, w) => (.error e, w.window limit cursor) := by
  simp only [consume, window, Reader.consume]
  split
  · rfl
  · generalize v.1.consume v.2 amount = read
    obtain ⟨_ | _, _, _⟩ := read <;> rfl

end View

/-- How far two loads are compared: up to the offset `stop`, and while no more than `unterminated`
arrays were found to end with their source. The first of them reads `data`. -/
structure Bound where
  stop : Nat
  unterminated : Nat
  data : Bytes

/-- What became of two views on which the same was done. Both succeeded with results that are `same`
and then `ok` holds, or both failed alike and then `failed` holds. Where the comparison has a bound
that leaves no byte to compare, only the first may have failed. -/
inductive Twin (bound? : Option Bound) (start : Nat) (same : α → α → Prop)
    (ok failed : View → View → Prop) : Except SourceError α × View → Except SourceError α × View → Prop
  | ok {a b : α} {v w : View} (hsame : same a b) (h : ok v w) :
    Twin bound? start same ok failed (.ok a, v) (.ok b, w)
  | failed {e : SourceError} {v w : View} (hbound : bound? = none) (h : failed v w) :
    Twin bound? start same ok failed (.error e, v) (.error e, w)
  | lost {e : SourceError} {v : View} {right : Except SourceError α × View} {b : Bound}
    (hbound : bound? = some b) (hstop : b.stop ≤ start) :
    Twin bound? start same ok failed (.error e, v) right

/-- Pairs of views on which the same steps give the same, at offsets from `start` on and up to the
bound, if there is one. -/
structure Likeness where
  start : Nat
  bound? : Option Bound
  /-- The views are alike. -/
  Like : View → View → Prop
  /-- The views are alike, and both stand at the offset. -/
  Stands : Nat → View → View → Prop
  like_of_stands : ∀ {k v w}, Stands k v w → Like v w
  shows : ∀ {b v w}, bound? = some b → Like v w → v.1.Shows b.data v.2
  stands : ∀ {b k v w}, bound? = some b → Stands k v w → v.1.Stands k v.2
  seek : ∀ {v w offset}, Like v w → start ≤ offset → (∀ b, bound? = some b → offset ≤ b.stop) →
    Twin bound? start (fun _ _ => True) (Stands offset) Like (v.seek offset) (w.seek offset)
  consume : ∀ {k v w amount}, Stands k v w → (∀ b, bound? = some b → k + amount ≤ b.stop) →
    Twin bound? start Eq (Stands (k + amount)) (Stands k) (v.consume amount) (w.consume amount)
  size : ∀ {v w}, bound? = none → Like v w → v.size? = w.size?
  known : ∀ {b v w}, bound? = some b → start < b.stop → Like v w →
    (∃ n, v.size? = some n ∧ b.stop ≤ n) ∧ ∃ n, w.size? = some n ∧ b.stop ≤ n

namespace Likeness

def same : Likeness where
  start := 0
  bound? := none
  Like := Eq
  Stands _ := Eq
  like_of_stands h := h
  shows h := nomatch h
  stands h := nomatch h
  seek {v w offset} h _ _ := by
    subst h
    generalize v.seek offset = moved
    obtain ⟨_ | _, _⟩ := moved
    · exact .failed rfl rfl
    · exact .ok trivial rfl
  consume {_ v w amount} h _ := by
    subst h
    generalize v.consume amount = read
    obtain ⟨_ | _, _⟩ := read
    · exact .failed rfl rfl
    · exact .ok rfl rfl
  size _ h := h ▸ rfl
  known h := nomatch h

variable (L : Likeness)

/-- Windows, up to the same offset, of views that are alike. -/
inductive Windows (limit : Nat) : View → View → Prop
  | intro {v w : View} (i j : Nat) (h : L.Like v w) : Windows limit (v.window limit i) (w.window limit j)

/-- Windows, up to the same offset, of views that are alike and stand at `k`. -/
inductive WindowsAt (limit k : Nat) : View → View → Prop
  | intro {v w : View} (hlimit : k ≤ limit) (h : L.Stands k v w) :
    WindowsAt limit k (v.window limit k) (w.window limit k)

variable {L}

theorem WindowsAt.windows {limit k : Nat} {v w : View} (h : L.WindowsAt limit k v w) :
    L.Windows limit v w := by
  cases h with
  | intro _ h => exact .intro k k (L.like_of_stands h)

variable (L)

/-- Windows that end before their views stop being alike. -/
def window (limit : Nat) (hlimit : ∀ b, L.bound? = some b → L.start < b.stop ∧ limit ≤ b.stop) :
    Likeness where
  start := L.start
  bound? := none
  Like := L.Windows limit
  Stands := L.WindowsAt limit
  like_of_stands := WindowsAt.windows
  shows h := nomatch h
  stands h := nomatch h
  seek {v w offset} h hstart _ := by
    obtain @⟨v, w, i, j, h⟩ := h
    rw [View.seek_window, View.seek_window]
    split
    · exact .failed rfl (.intro i j h)
    · have hmoved := L.seek h hstart fun b hb => Nat.le_trans (Nat.le_of_not_lt ‹_›) (hlimit b hb).2
      generalize v.seek offset = left at hmoved
      generalize w.seek offset = right at hmoved
      cases hmoved with
      | ok _ h => exact .ok trivial (.intro (Nat.le_of_not_lt ‹_›) h)
      | failed _ h => exact .failed rfl (.intro i j h)
      | lost hb hstop => exact absurd (hlimit _ hb).1 (Nat.not_lt.2 hstop)
  consume {k v w amount} h _ := by
    obtain @⟨v, w, hk, h⟩ := h
    rw [View.consume_window, View.consume_window]
    split
    · exact .failed rfl (.intro hk h)
    · have hroom : k + amount ≤ limit := by omega
      have hread := L.consume h fun b hb => Nat.le_trans hroom (hlimit b hb).2
      generalize v.consume amount = left at hread
      generalize w.consume amount = right at hread
      cases hread with
      | ok hsame h => exact hsame ▸ .ok rfl (.intro hroom h)
      | failed _ h => exact .failed rfl (.intro hk h)
      | lost hb hstop => exact absurd (hlimit _ hb).1 (Nat.not_lt.2 hstop)
  size {v w} _ h := by
    obtain @⟨v, w, i, j, h⟩ := h
    show (match v.size? with | some size => some (min size limit) | none => some limit) =
      match w.size? with | some size => some (min size limit) | none => some limit
    cases hbound : L.bound? with
    | none => rw [L.size hbound h]
    | some b =>
      obtain ⟨hstart, hstop⟩ := hlimit b hbound
      obtain ⟨⟨m, hm, hleft⟩, n, hn, hright⟩ := L.known hbound hstart h
      rw [hm, hn]
      show some (min m limit) = some (min n limit)
      rw [Nat.min_eq_right (Nat.le_trans hstop hleft), Nat.min_eq_right (Nat.le_trans hstop hright)]
  known h := nomatch h

/-- Windows of views that are compared at a single offset, where there is no byte. -/
def brink (limit : Nat) {b : Bound} (hbound : L.bound? = some b) (hstop : b.stop ≤ L.start) :
    Likeness where
  start := L.start
  bound? := some b
  Like := L.Windows limit
  Stands := L.WindowsAt limit
  like_of_stands := WindowsAt.windows
  shows {b' v w} hb h := by
    cases hb
    obtain @⟨v, w, i, j, h⟩ := h
    have hshows := L.shows hbound h
    exact hshows
  stands {b' k v w} hb h := by
    cases hb
    obtain @⟨v, w, _, h⟩ := h
    have hstands := L.stands hbound h
    exact hstands
  seek {v w offset} h hstart hmax := by
    obtain @⟨v, w, i, j, h⟩ := h
    rw [View.seek_window, View.seek_window]
    split
    · exact .lost rfl hstop
    · have hmoved := L.seek h hstart fun b' hb => hmax b' (hbound ▸ hb)
      generalize v.seek offset = left at hmoved
      generalize w.seek offset = right at hmoved
      cases hmoved with
      | ok _ h => exact .ok trivial (.intro (Nat.le_of_not_lt ‹_›) h)
      | failed hnone => exact nomatch hbound.symm.trans hnone
      | lost => exact .lost rfl hstop
  consume {k v w amount} h hmax := by
    obtain @⟨v, w, hk, h⟩ := h
    rw [View.consume_window, View.consume_window]
    split
    · exact .lost rfl hstop
    · have hread := L.consume h fun b' hb => hmax b' (hbound ▸ hb)
      generalize v.consume amount = left at hread
      generalize w.consume amount = right at hread
      cases hread with
      | ok hsame h => exact hsame ▸ .ok rfl (.intro (by omega) h)
      | failed hnone => exact nomatch hbound.symm.trans hnone
      | lost => exact .lost rfl hstop
  size h := nomatch h
  known hb hlt := by
    cases hb
    exact absurd hlt (Nat.not_lt.2 hstop)

end Likeness

/-! ## Views of certain bytes -/

/-- The view stands at `k` and gives `bytes` at the offset `start`. -/
inductive View.Serves (bytes : Bytes) (start : Nat) : Nat → View → Prop
  | source {id k : Nat} {sources : Sources} {held : Array UInt8} {writable : Bool}
    (hsource : sources.source? id = some (.memory held writable k))
    (hroom : start + bytes.length ≤ held.size) (hbytes : bytes <+: held.toList.drop start) :
    Serves bytes start k (.source id, sources)
  | detached {k origin : Nat} {sources : Sources} {held : Array UInt8} (horigin : origin ≤ start)
    (hword : origin + held.size < pow2 64) (hroom : start + bytes.length ≤ origin + held.size)
    (hbytes : bytes <+: held.toList.drop (start - origin)) :
    Serves bytes start k (.detached held origin k, sources)

/-- Part of a stretch of a list. -/
theorem take_drop_of_prefix {bytes l : List α} {offset k amount : Nat}
    (h : bytes <+: l.drop offset) (hroom : k + amount ≤ bytes.length) :
    (l.drop (offset + k)).take amount = (bytes.drop k).take amount := by
  obtain ⟨rest, hrest⟩ := h
  rw [← List.drop_drop, ← hrest, List.drop_append_of_le_length (by omega),
    List.take_append_of_le_length (by rw [List.length_drop]; omega)]

theorem Sources.slice_of_prefix {bytes : Bytes} {held : Array UInt8} {base : Nat}
    (k amount cursor : Nat) (hbytes : bytes <+: held.toList.drop base)
    (hroom : base + bytes.length ≤ held.size) (hk : k + amount ≤ bytes.length) :
    slice held (base + k) amount cursor = .ok ((bytes.drop k).take amount) := by
  rw [slice, if_pos (by omega), Array.toList_extract, List.extract_eq_take_drop,
    Nat.add_sub_cancel_left, take_drop_of_prefix hbytes hk]

namespace View.Serves

variable {bytes : Bytes} {start k : Nat} {v : View}

theorem seek (h : v.Serves bytes start k) {offset : Nat} (hstart : start ≤ offset)
    (hstop : offset ≤ start + bytes.length) :
    ∃ j w, v.seek offset = (.ok j, w) ∧ w.Serves bytes start offset := by
  cases h with
  | @source id k sources held writable hsource hroom hbytes =>
    obtain ⟨hresult, hleft⟩ := Sources.seek_source offset hsource
    rw [Source.seek, if_neg (by omega)] at hresult hleft
    exact ⟨k, (.source id, (sources.seek id offset).2),
      Prod.ext hresult rfl, .source hleft hroom hbytes⟩
  | @detached k origin sources held horigin hword hroom hbytes =>
    have hend : Reader.detachedEnd held origin = origin + held.size :=
      Nat.mod_eq_of_lt hword
    refine ⟨k, (.detached held origin offset, sources), ?_, .detached horigin hword hroom hbytes⟩
    rw [View.seek, Reader.seek, hend, if_neg (by omega)]

theorem consume (h : v.Serves bytes start k) {amount : Nat} (hstart : start ≤ k)
    (hstop : k + amount ≤ start + bytes.length) :
    ∃ w, v.consume amount = (.ok ((bytes.drop (k - start)).take amount), w)
      ∧ w.Serves bytes start (k + amount) := by
  cases h with
  | @source id k sources held writable hsource hroom hbytes =>
    obtain ⟨hresult, hleft⟩ := Sources.consume_memory amount hsource
    have hslice := Sources.slice_of_prefix (k - start) amount k hbytes hroom (by omega)
    rw [Nat.add_sub_cancel' hstart] at hslice
    rw [hslice] at hresult hleft
    exact ⟨(.source id, (sources.consume id amount).2), Prod.ext hresult rfl,
      .source hleft hroom hbytes⟩
  | @detached k origin sources held horigin hword hroom hbytes =>
    have hslice := Sources.slice_of_prefix (k - start) amount k hbytes (by omega) (by omega)
    have hplace : start - origin + (k - start) = k - origin := by omega
    rw [hplace] at hslice
    refine ⟨(.detached held origin (k + amount), sources), ?_, .detached horigin hword hroom hbytes⟩
    rw [View.consume, Reader.consume, hslice]

theorem size (h : v.Serves bytes start k) : ∃ n, v.size? = some n ∧ start + bytes.length ≤ n := by
  cases h with
  | @source id k sources held writable hsource hroom hbytes =>
    refine ⟨held.size, ?_, hroom⟩
    rw [size?, Reader.size?, Sources.size?, hsource]
    rfl
  | @detached k origin sources held horigin hword hroom hbytes =>
    exact ⟨origin + held.size, congrArg some (Nat.mod_eq_of_lt hword), hroom⟩

end View.Serves

namespace Likeness

/-- Views that give the same bytes at `start`, compared as far as these go. When there are no bytes,
the first view need not even reach `start`. -/
def ofBytes (bytes : Bytes) (start unterminated : Nat) (data : Bytes) : Likeness where
  start
  bound? := some ⟨start + bytes.length, unterminated, data⟩
  Like v w := v.1.Shows data v.2 ∧ (bytes ≠ [] → ∃ k, v.Serves bytes start k)
    ∧ ∃ k, w.Serves bytes start k
  Stands k v w := start ≤ k ∧ (v.1.Shows data v.2 ∧ v.1.Stands k v.2)
    ∧ (bytes ≠ [] → v.Serves bytes start k) ∧ w.Serves bytes start k
  like_of_stands h := ⟨h.2.1.1, fun hne => ⟨_, h.2.2.1 hne⟩, _, h.2.2.2⟩
  shows hb h := by
    cases hb
    exact h.1
  stands _ h := h.2.1.2
  seek {v w offset} h hstart hmax := by
    obtain ⟨hshows, hleft, k, hright⟩ := h
    have hstop : offset ≤ start + bytes.length := hmax _ rfl
    obtain ⟨j, w', hw, hserves⟩ := hright.seek hstart hstop
    rw [hw]
    cases hv : v.seek offset with
    | mk result v' =>
      have hshown := View.shows_seek hshows hv
      by_cases hne : bytes = []
      · cases result with
        | error e => exact .lost rfl (Nat.le_of_eq (by rw [hne]; rfl))
        | ok i =>
          exact .ok trivial ⟨hstart, ⟨hshown, View.stands_seek hshows hv⟩, fun h => absurd hne h,
            hserves⟩
      · obtain ⟨i, hi⟩ := hleft hne
        obtain ⟨i', v'', hsame, hserves'⟩ := hi.seek hstart hstop
        cases hv.symm.trans hsame
        exact .ok trivial ⟨hstart, ⟨hshown, View.stands_seek hshows hsame⟩, fun _ => hserves', hserves⟩
  consume {k v w amount} h hmax := by
    obtain ⟨hstart, ⟨hshows, hstands⟩, hleft, hright⟩ := h
    have hstop : k + amount ≤ start + bytes.length := hmax _ rfl
    obtain ⟨w', hw, hserves⟩ := hright.consume hstart hstop
    have hfurther : start ≤ k + amount := Nat.le_trans hstart (Nat.le_add_right _ _)
    rw [hw]
    cases hv : v.consume amount with
    | mk result v' =>
      have hshown := View.shows_consume hshows hv
      by_cases hne : bytes = []
      · cases result with
        | error e => exact .lost rfl (Nat.le_of_eq (by rw [hne]; rfl))
        | ok read =>
          have hnone : amount = 0 := by
            rw [hne, List.length_nil] at hstop
            omega
          have hlength := View.length_consume hv
          rw [hnone] at hlength
          refine .ok ?_ ⟨hfurther, ⟨hshown, View.stands_consume hshows hstands hv⟩,
            fun h => absurd hne h, hserves⟩
          rw [List.eq_nil_of_length_eq_zero hlength, hnone, List.take_zero]
      · obtain ⟨v'', hsame, hserves'⟩ := (hleft hne).consume hstart hstop
        cases hv.symm.trans hsame
        exact .ok rfl ⟨hfurther, ⟨hshown, View.stands_consume hshows hstands hsame⟩,
          fun _ => hserves', hserves⟩
  size h := nomatch h
  known hb hlt h := by
    cases hb
    obtain ⟨-, hleft, k, hright⟩ := h
    have hne : bytes ≠ [] := by
      rintro rfl
      exact Nat.lt_irrefl _ hlt
    obtain ⟨i, hi⟩ := hleft hne
    exact ⟨hi.size, hright.size⟩

end Likeness

end BinaryLayout
