import BinaryLayout.Proofs.Locality.View

/-!
# Views that end where they say

A source of known size need not be short of bytes at its end only: a device may repeat itself and yet
refuse a long read, and a window may be opened that is larger than the source behind it. Where none of
this is so, a read that finds too few bytes goes past the end, and one that finds enough does not.
Detached bytes and windows keep this.

## Main definitions

* `SourceError.Refuses`, `SourceError.Lacks`: why a view that ends somewhere is not moved or read.
* `Sources.EndsAt`: a source that is short of bytes at its end only.
* `Border`: views with such an end.
* `Border.source`, `Border.detached`, `Border.window`: such views.
-/

namespace BinaryLayout

namespace SourceError

/-- A view that ends at `stop` may refuse to be moved to `offset` for this reason. -/
def Refuses (stop offset : Nat) : SourceError → Prop
  | consume .. => False
  | outOfBounds .. => stop < offset
  | _ => True

/-- A view that ends at `stop` may fail to give `amount` bytes from `cursor` on for this reason. -/
def Lacks (stop cursor amount : Nat) : SourceError → Prop
  | consume offset desired _ => offset = cursor ∧ desired = amount ∧ stop < cursor + amount
  | _ => True

theorem Refuses.lacks {stop offset cursor amount : Nat} {e : SourceError} (h : e.Refuses stop offset) :
    e.Lacks stop cursor amount := by
  cases e with
  | consume => exact h.elim
  | io | outOfBounds | store | readOnly | poisoned => trivial

theorem Refuses.mono {stop stop' offset : Nat} {e : SourceError} (h : e.Refuses stop offset)
    (hle : stop' ≤ stop) : e.Refuses stop' offset := by
  cases e with
  | consume => exact h
  | outOfBounds => exact Nat.lt_of_le_of_lt hle h
  | io | store | readOnly | poisoned => trivial

theorem Lacks.mono {stop stop' cursor amount : Nat} {e : SourceError} (h : e.Lacks stop cursor amount)
    (hle : stop' ≤ stop) : e.Lacks stop' cursor amount := by
  cases e with
  | consume => exact ⟨h.1, h.2.1, Nat.lt_of_le_of_lt hle h.2.2⟩
  | io | outOfBounds | store | readOnly | poisoned => trivial

/-- What a source lacks, the windows that end before it lack at their own places. -/
theorem Lacks.movedTo {stop stop' cursor cursor' amount : Nat} {e : SourceError}
    (h : e.Lacks stop cursor amount) (hstop : stop < cursor + amount → stop' < cursor' + amount) :
    (e.movedTo cursor').Lacks stop' cursor' amount := by
  cases e with
  | consume => exact ⟨rfl, h.2.1, hstop h.2.2⟩
  | io | outOfBounds | store | readOnly | poisoned => trivial

end SourceError

/-! ## Sources -/

/-- A device that does not repeat itself gives bytes up to its end. -/
theorem Device.inside_of_next {d : Device} {amount : Nat} {bytes : Bytes} (hrepeats : d.repeats = false)
    (hpos : 0 < amount) (h : d.next amount = .ok bytes) : d.cursor + amount ≤ d.data.size := by
  rw [next, hrepeats, if_neg Bool.false_ne_true, if_neg (Nat.ne_of_gt hpos)] at h
  repeat' split at h
  all_goals cases h
  assumption

/-- A device that does not repeat itself is short of bytes at its end only. -/
theorem Device.lacks_of_next {d : Device} {amount : Nat} {e : SourceError} (hrepeats : d.repeats = false)
    (h : d.next amount = .error e) : e.Lacks d.data.size d.cursor amount := by
  rw [next, hrepeats, if_neg Bool.false_ne_true] at h
  repeat' split at h
  all_goals cases h
  · trivial
  · exact ⟨rfl, rfl, Nat.lt_of_not_le ‹_›⟩

theorem Sources.inside_of_slice {data : Array UInt8} {offset amount cursor : Nat} {bytes : Bytes}
    (h : slice data offset amount cursor = .ok bytes) : offset + amount ≤ data.size := by
  rw [slice] at h
  split at h
  · assumption
  · cases h

theorem Sources.lacks_of_slice {data : Array UInt8} {offset amount cursor stop : Nat} {e : SourceError}
    (h : slice data offset amount cursor = .error e)
    (hstop : data.size < offset + amount → stop < cursor + amount) : e.Lacks stop cursor amount := by
  rw [slice] at h
  split at h
  · cases h
  · cases h
    exact ⟨rfl, rfl, hstop (Nat.lt_of_not_le ‹_›)⟩

def Source.cursor : Source → Nat
  | memory _ _ cursor => cursor
  | empty => 0
  | proxy _ _ _ cursor => cursor
  | device d => d.cursor

/-- The source ends at `stop` and is short of bytes there only, when those behind it end as they say. -/
def Source.EndsOver (behind : Nat → Nat → Prop) (stop : Nat) : Source → Prop
  | memory data _ _ => data.size = stop
  | empty => stop = 0
  | proxy parent base length _ => length = stop ∧ ∃ n, behind parent n ∧ base + length ≤ n
  | device d => d.bounded = true ∧ d.repeats = false ∧ d.data.size = stop

namespace Sources

def cursor? (sources : Sources) (id : Nat) : Option Nat := (sources.source? id).map Source.cursor

/-- Source `id` ends at `stop` and is short of bytes there only. -/
def EndsAt : Sources → Nat → Nat → Prop
  | [], _, _ => False
  | s :: older, id, stop =>
    if id = older.length then s.EndsOver (EndsAt older) stop else EndsAt older id stop

theorem endsAt_newest {s : Source} {older : Sources} {stop : Nat} :
    EndsAt (s :: older) older.length stop ↔ s.EndsOver (EndsAt older) stop := by
  rw [EndsAt, if_pos rfl]

theorem endsAt_older {s : Source} {older : Sources} {id stop : Nat} (h : id ≠ older.length) :
    EndsAt (s :: older) id stop ↔ EndsAt older id stop := by
  rw [EndsAt, if_neg h]

theorem cursor?_newest (s : Source) (older : Sources) :
    cursor? (s :: older) older.length = some s.cursor := by
  rw [cursor?, source?_cons, if_pos rfl]
  rfl

theorem cursor?_older {s : Source} {older : Sources} {id : Nat} (h : id ≠ older.length) :
    cursor? (s :: older) id = cursor? older id := by
  rw [cursor?, source?_cons, if_neg h]
  rfl

/-- The size of such a source is where it ends. -/
theorem EndsAt.size {sources : Sources} {id stop : Nat} (h : sources.EndsAt id stop) :
    sources.size? id = some stop := by
  induction sources with
  | nil => exact h.elim
  | cons s older ih =>
    rw [EndsAt] at h
    rw [size?, source?_cons]
    split at h
    · rename_i hid
      rw [if_pos hid]
      cases s with
      | memory data writable cursor => exact congrArg some h
      | empty => exact congrArg some h.symm
      | proxy parent base length cursor => exact congrArg some h.1
      | device d =>
        show d.size? = some stop
        rw [Device.size?, if_pos h.1, h.2.2]
    · rename_i hid
      rw [if_neg hid]
      exact ih h

/-- Moving the newest source. -/
theorem endsAt_move {s t : Source} {older : Sources} {target? : Option Nat} {stop : Nat}
    {result : Except SourceError Nat} (h : EndsAt (s :: older) older.length stop)
    (hmoved : s.move target? = (result, t)) :
    EndsAt (t :: older) older.length stop
      ∧ (∀ k, result = .ok k → t.cursor = target?.getD s.cursor)
      ∧ ∀ e, result = .error e → ∃ offset, target? = some offset ∧ e.Refuses stop offset := by
  cases target? with
  | none =>
    cases hmoved
    exact ⟨h, fun _ _ => rfl, fun _ h => by cases h⟩
  | some offset =>
    rw [endsAt_newest] at h ⊢
    cases s with
    | memory data writable cursor =>
      cases h
      simp only [Source.move, Source.seek] at hmoved
      split at hmoved
      · cases hmoved
        exact ⟨rfl, (fun _ h => by cases h), fun e he => ⟨offset, rfl, by cases he; assumption⟩⟩
      · cases hmoved
        exact ⟨rfl, fun _ _ => rfl, fun _ h => by cases h⟩
    | empty =>
      cases h
      simp only [Source.move, Source.seek] at hmoved
      split at hmoved
      · cases hmoved
        exact ⟨rfl, (fun _ h => by cases h), fun e he => ⟨offset, rfl, by cases he; assumption⟩⟩
      · cases hmoved
        exact ⟨rfl, fun _ _ => (Nat.eq_zero_of_not_pos ‹_›).symm, fun _ h => by cases h⟩
    | proxy parent base length cursor =>
      obtain ⟨rfl, hparent⟩ := h
      simp only [Source.move, Source.seek] at hmoved
      split at hmoved
      · cases hmoved
        exact ⟨⟨rfl, hparent⟩, (fun _ h => by cases h), fun e he => ⟨offset, rfl, by cases he; assumption⟩⟩
      · cases hmoved
        exact ⟨⟨rfl, hparent⟩, fun _ _ => rfl, fun _ h => by cases h⟩
    | device d =>
      obtain ⟨hbounded, hrepeats, rfl⟩ := h
      simp only [Source.move, Source.seek, Device.seek] at hmoved
      split at hmoved
      · cases hmoved
        exact ⟨⟨hbounded, hrepeats, rfl⟩, (fun _ h => by cases h),
          fun e he => ⟨offset, rfl, by cases he; trivial⟩⟩
      · split at hmoved
        · rename_i hpast
          cases hmoved
          exact ⟨⟨hbounded, hrepeats, rfl⟩, (fun _ h => by cases h),
            fun e he => ⟨offset, rfl, by cases he; exact hpast.2⟩⟩
        · cases hmoved
          exact ⟨⟨hbounded, hrepeats, rfl⟩, fun _ _ => rfl, fun _ h => by cases h⟩

/-- What a read of `amount` bytes at `k` made of a source that ends at `stop`. -/
structure ReadTo (stop k amount id : Nat) (result : Except SourceError Bytes) (sources : Sources) :
    Prop where
  ends : sources.EndsAt id stop
  moves : ∀ bytes, result = .ok bytes → sources.cursor? id = some (k + amount)
  inside : ∀ bytes, result = .ok bytes → 0 < amount → k + amount ≤ stop
  lacks : ∀ e, result = .error e → e.Lacks stop k amount

theorem ReadTo.failed {stop k amount id : Nat} {sources : Sources} {e : SourceError}
    (h : sources.EndsAt id stop) (he : e.Lacks stop k amount) :
    ReadTo stop k amount id (.error e) sources :=
  ⟨h, nofun, nofun, fun _ h => by cases h; exact he⟩

/-- Reading the newest source where it stands. -/
theorem readTo_readHere {s : Source} {older : Sources} {stop amount : Nat}
    (hparent : ∀ parent n target, EndsAt older parent n → ∃ k ≤ target,
      ReadTo n k amount parent (read older parent (some target) amount).1
        (read older parent (some target) amount).2)
    (h : EndsAt (s :: older) older.length stop) :
    ReadTo stop s.cursor amount older.length (readHere older amount s).1 (readHere older amount s).2
      ∧ ∀ e, (readHere older amount s).1 = .error e →
        (readHere older amount s).2.cursor? older.length = some s.cursor := by
  rw [endsAt_newest] at h
  cases s with
  | memory data writable cursor =>
    cases h
    have hends (cursor : Nat) : EndsAt (.memory data writable cursor :: older) older.length data.size :=
      endsAt_newest.2 rfl
    rw [readHere]
    split
    · exact ⟨⟨hends _, fun _ _ => cursor?_newest _ _, fun _ _ _ => inside_of_slice ‹_›,
        fun _ h => by cases h⟩, fun _ h => by cases h⟩
    · exact ⟨.failed (hends _) (lacks_of_slice ‹_› id), fun _ _ => cursor?_newest _ _⟩
  | empty =>
    cases h
    have hends : EndsAt (.empty :: older) older.length 0 := endsAt_newest.2 rfl
    rw [readHere]
    split
    · rename_i hzero
      subst hzero
      exact ⟨⟨hends, fun _ _ => cursor?_newest _ _, fun _ _ h => absurd h (Nat.lt_irrefl 0),
        fun _ h => by cases h⟩,
        fun _ h => by cases h⟩
    · refine ⟨.failed hends ⟨rfl, rfl, ?_⟩, fun _ _ => cursor?_newest _ _⟩
      show 0 < 0 + amount
      omega
  | proxy parent base length cursor =>
    obtain ⟨rfl, n, hbehind, hroom⟩ := h
    have hends {older' : Sources} (hlength : older'.length = older.length)
        (h : older'.EndsAt parent n) (cursor : Nat) :
        EndsAt (.proxy parent base length cursor :: older') older.length length := by
      rw [← hlength, endsAt_newest]
      exact ⟨rfl, n, h, hroom⟩
    rw [readHere]
    split
    · refine ⟨.failed (hends rfl hbehind _) ⟨rfl, rfl, ?_⟩, fun _ _ => cursor?_newest _ _⟩
      show length < cursor + amount
      omega
    · obtain ⟨k, hk, hread⟩ := hparent parent n (wrapOffset (base + cursor)) hbehind
      have hwrap : wrapOffset (base + cursor) ≤ base + cursor := Nat.mod_le _ _
      have hlength := length_sources_read older parent (some (wrapOffset (base + cursor))) amount
      generalize read older parent (some (wrapOffset (base + cursor))) amount = inner at hread hlength
      obtain ⟨e | bytes, older'⟩ := inner
      · refine ⟨.failed (hends hlength hread.ends _) ?_, fun _ _ => ?_⟩
        · refine (hread.lacks e rfl).movedTo fun hpast => ?_
          show length < cursor + amount
          omega
        · show cursor? (_ :: older') _ = _
          rw [← hlength]
          exact cursor?_newest _ _
      · refine ⟨⟨hends hlength hread.ends _, fun _ _ => ?_, fun _ _ hpos => ?_, fun _ h => by cases h⟩,
          fun _ h => by cases h⟩
        · show cursor? (_ :: older') _ = _
          rw [← hlength]
          exact cursor?_newest _ _
        · show cursor + amount ≤ length
          omega
  | device d =>
    obtain ⟨hbounded, hrepeats, rfl⟩ := h
    have hends (d' : Device) (hb : d'.bounded = d.bounded) (hr : d'.repeats = d.repeats)
        (hdata : d'.data = d.data) : EndsAt (.device d' :: older) older.length d.data.size := by
      rw [endsAt_newest]
      exact ⟨hb.trans hbounded, hr.trans hrepeats, congrArg Array.size hdata⟩
    have hnext : ({ d with reads := d.reads + 1 } : Device).next amount = d.next amount := rfl
    rw [readHere, Device.consume, hnext]
    cases hread : d.next amount with
    | ok bytes =>
      exact ⟨⟨hends _ rfl rfl rfl, fun _ _ => cursor?_newest _ _,
        fun _ _ hpos => Device.inside_of_next hrepeats hpos hread, fun _ h => by cases h⟩,
        fun _ h => by cases h⟩
    | error e =>
      exact ⟨.failed (hends _ rfl rfl rfl) (Device.lacks_of_next hrepeats hread),
        fun _ _ => cursor?_newest _ _⟩

/-- A read that moves its source first, at the offset that it moves to. -/
theorem readTo_target {sources : Sources} {id stop : Nat} (h : sources.EndsAt id stop)
    (target amount : Nat) :
    ReadTo stop target amount id (sources.read id (some target) amount).1
      (sources.read id (some target) amount).2 := by
  induction sources generalizing id stop target with
  | nil => exact h.elim
  | cons s older ih =>
    by_cases hid : id = older.length
    · subst hid
      rw [read_cons]
      cases hmoved : s.move (some target) with
      | mk result t =>
        obtain ⟨hends, hok, hrefused⟩ := endsAt_move h hmoved
        cases result with
        | error e =>
          obtain ⟨offset, -, he⟩ := hrefused e rfl
          exact .failed hends he.lacks
        | ok k =>
          have hread := (readTo_readHere (fun parent n target h => ⟨target, Nat.le_refl _, ih h target⟩)
            hends).1
          rw [hok k rfl] at hread
          exact hread
    · rw [endsAt_older hid] at h
      have hread := ih h target
      have hid' : id ≠ (read older id (some target) amount).2.length := by
        rwa [length_sources_read]
      rw [read_older hid]
      exact ⟨(endsAt_older hid').2 hread.ends,
        fun bytes hbytes => (cursor?_older hid').trans (hread.moves bytes hbytes), hread.inside, hread.lacks⟩

/-- A read of a source where it stands. -/
theorem readTo_consume {sources : Sources} {id stop k : Nat} (h : sources.EndsAt id stop)
    (hcursor : sources.cursor? id = some k) (amount : Nat) :
    ReadTo stop k amount id (sources.consume id amount).1 (sources.consume id amount).2
      ∧ ∀ e, (sources.consume id amount).1 = .error e →
        (sources.consume id amount).2.cursor? id = some k := by
  rw [consume]
  induction sources with
  | nil => exact h.elim
  | cons s older ih =>
    by_cases hid : id = older.length
    · subst hid
      rw [cursor?_newest, Option.some_inj] at hcursor
      rw [read_cons, ← hcursor]
      exact readTo_readHere (fun parent n target h => ⟨target, Nat.le_refl _, readTo_target h target amount⟩) h
    · rw [endsAt_older hid] at h
      rw [cursor?_older hid] at hcursor
      obtain ⟨hread, hstays⟩ := ih h hcursor
      have hid' : id ≠ (read older id none amount).2.length := by rwa [length_sources_read]
      rw [read_older hid]
      exact ⟨⟨(endsAt_older hid').2 hread.ends,
        fun bytes hbytes => (cursor?_older hid').trans (hread.moves bytes hbytes), hread.inside,
        hread.lacks⟩, fun e he => (cursor?_older hid').trans (hstays e he)⟩

/-- Moving a source. -/
theorem endsAt_seek {sources : Sources} {id stop : Nat} (h : sources.EndsAt id stop) (offset : Nat) :
    (sources.seek id offset).2.EndsAt id stop
      ∧ (∀ k, (sources.seek id offset).1 = .ok k →
        (sources.seek id offset).2.cursor? id = some offset)
      ∧ ∀ e, (sources.seek id offset).1 = .error e → e.Refuses stop offset := by
  rw [seek]
  induction sources with
  | nil => exact h.elim
  | cons s older ih =>
    rw [update]
    split
    · rename_i hid
      subst hid
      cases hmoved : s.seek offset with
      | mk result t =>
        have htarget : s.move (some offset) = (result, t) := hmoved
        obtain ⟨hends, hok, hrefused⟩ := endsAt_move h htarget
        refine ⟨hends, fun k hk => ?_, fun e he => ?_⟩
        · rw [cursor?_newest, hok k hk]
          rfl
        · obtain ⟨_, heq, hrefuses⟩ := hrefused e he
          cases heq
          exact hrefuses
    · rename_i hid
      rw [endsAt_older hid] at h
      obtain ⟨hends, hok, hrefused⟩ := ih h
      have hid' : id ≠ (update (fun s : Source => s.seek offset) older id).2.length := by
        rwa [length_sources_update]
      exact ⟨(endsAt_older hid').2 hends, fun k hk => (cursor?_older hid').trans (hok k hk), hrefused⟩

end Sources

/-! ## Views -/

/-- Views that end at `stop` and are short of bytes there only, at offsets from `start` on. -/
structure Border where
  start : Nat
  stop : Nat
  word : stop < pow2 64
  /-- The view ends there. -/
  Has : View → Prop
  /-- The view ends there, and it stands at the offset. -/
  At : Nat → View → Prop
  has_of_at : ∀ {k v}, At k v → Has v
  size : ∀ {v}, Has v → v.size? = some stop
  seek_ok : ∀ {v w offset k}, Has v → start ≤ offset → v.seek offset = (.ok k, w) → At offset w
  seek_error : ∀ {v w offset e}, Has v → start ≤ offset → v.seek offset = (.error e, w) →
    Has w ∧ e.Refuses stop offset
  consume_ok : ∀ {k v w amount bytes}, At k v → v.consume amount = (.ok bytes, w) →
    At (k + amount) w ∧ (0 < amount → k + amount ≤ stop)
  consume_error : ∀ {k v w amount e}, At k v → v.consume amount = (.error e, w) →
    At k w ∧ e.Lacks stop k amount

namespace Border

def source (id stop : Nat) (hword : stop < pow2 64) : Border where
  start := 0
  stop
  word := hword
  Has v := v.1 = .source id ∧ v.2.EndsAt id stop
  At k v := (v.1 = .source id ∧ v.2.EndsAt id stop) ∧ v.2.cursor? id = some k
  has_of_at h := h.1
  size {v} h := by
    obtain ⟨r, sources⟩ := v
    obtain ⟨rfl, hends⟩ := h
    exact hends.size
  seek_ok {v w offset k} h _ hmoved := by
    obtain ⟨r, sources⟩ := v
    obtain ⟨rfl, hends⟩ := h
    obtain ⟨hleft, hok, -⟩ := Sources.endsAt_seek hends offset
    simp only [View.seek, Reader.seek, Prod.mk.injEq] at hmoved
    obtain ⟨hresult, rfl⟩ := hmoved
    exact ⟨⟨rfl, hleft⟩, hok k hresult⟩
  seek_error {v w offset e} h _ hmoved := by
    obtain ⟨r, sources⟩ := v
    obtain ⟨rfl, hends⟩ := h
    obtain ⟨hleft, -, hrefused⟩ := Sources.endsAt_seek hends offset
    simp only [View.seek, Reader.seek, Prod.mk.injEq] at hmoved
    obtain ⟨hresult, rfl⟩ := hmoved
    exact ⟨⟨rfl, hleft⟩, hrefused e hresult⟩
  consume_ok {k v w amount bytes} h hread := by
    obtain ⟨r, sources⟩ := v
    obtain ⟨⟨rfl, hends⟩, hcursor⟩ := h
    obtain ⟨hto, -⟩ := Sources.readTo_consume hends hcursor amount
    simp only [View.consume, Reader.consume, Prod.mk.injEq] at hread
    obtain ⟨hresult, rfl⟩ := hread
    exact ⟨⟨⟨rfl, hto.ends⟩, hto.moves bytes hresult⟩, hto.inside bytes hresult⟩
  consume_error {k v w amount e} h hread := by
    obtain ⟨r, sources⟩ := v
    obtain ⟨⟨rfl, hends⟩, hcursor⟩ := h
    obtain ⟨hto, hstays⟩ := Sources.readTo_consume hends hcursor amount
    simp only [View.consume, Reader.consume, Prod.mk.injEq] at hread
    obtain ⟨hresult, rfl⟩ := hread
    exact ⟨⟨⟨rfl, hto.ends⟩, hstays e hresult⟩, hto.lacks e hresult⟩

section Detached

variable {data : Array UInt8} {origin offset k amount : Nat} {v w : View} {e : SourceError} {bytes : Bytes}

theorem seek_ok_detached (h : ∃ cursor, v.1 = .detached data origin cursor) (hstart : origin ≤ offset)
    (hmoved : v.seek offset = (.ok k, w)) : origin ≤ offset ∧ w.1 = .detached data origin offset := by
  obtain ⟨r, sources⟩ := v
  obtain ⟨cursor, rfl⟩ := h
  rw [View.seek, Reader.seek] at hmoved
  split at hmoved
  · cases hmoved
  · cases hmoved
    exact ⟨hstart, rfl⟩

theorem seek_error_detached (hword : origin + data.size < pow2 64)
    (h : ∃ cursor, v.1 = .detached data origin cursor) (hstart : origin ≤ offset)
    (hmoved : v.seek offset = (.error e, w)) :
    (∃ cursor, w.1 = .detached data origin cursor) ∧ e.Refuses (origin + data.size) offset := by
  obtain ⟨r, sources⟩ := v
  obtain ⟨cursor, rfl⟩ := h
  rw [View.seek, Reader.seek] at hmoved
  split at hmoved
  · rename_i hpast
    cases hmoved
    rw [Reader.detachedEnd, wrapOffset, Nat.mod_eq_of_lt hword] at hpast
    exact ⟨⟨cursor, rfl⟩, hpast.resolve_left (Nat.not_lt.2 hstart)⟩
  · cases hmoved

theorem consume_ok_detached (h : origin ≤ k ∧ v.1 = .detached data origin k)
    (hread : v.consume amount = (.ok bytes, w)) :
    (origin ≤ k + amount ∧ w.1 = .detached data origin (k + amount))
      ∧ (0 < amount → k + amount ≤ origin + data.size) := by
  obtain ⟨r, sources⟩ := v
  obtain ⟨hstart, rfl⟩ := h
  rw [View.consume, Reader.consume] at hread
  split at hread
  · rename_i hslice
    cases hread
    have hinside := Sources.inside_of_slice hslice
    exact ⟨⟨Nat.le_trans hstart (Nat.le_add_right _ _), rfl⟩, fun _ => by omega⟩
  · cases hread

theorem consume_error_detached (h : origin ≤ k ∧ v.1 = .detached data origin k)
    (hread : v.consume amount = (.error e, w)) :
    (origin ≤ k ∧ w.1 = .detached data origin k) ∧ e.Lacks (origin + data.size) k amount := by
  obtain ⟨r, sources⟩ := v
  obtain ⟨hstart, rfl⟩ := h
  rw [View.consume, Reader.consume] at hread
  split at hread
  · cases hread
  · rename_i hslice
    cases hread
    exact ⟨⟨hstart, rfl⟩, Sources.lacks_of_slice hslice fun _ => by omega⟩

end Detached

def detached (data : Array UInt8) (origin : Nat) (hword : origin + data.size < pow2 64) : Border where
  start := origin
  stop := origin + data.size
  word := hword
  Has v := ∃ cursor, v.1 = .detached data origin cursor
  At k v := origin ≤ k ∧ v.1 = .detached data origin k
  has_of_at h := ⟨_, h.2⟩
  size {v} h := by
    obtain ⟨r, sources⟩ := v
    obtain ⟨cursor, rfl⟩ := h
    exact congrArg some (Nat.mod_eq_of_lt hword)
  seek_ok := seek_ok_detached
  seek_error := seek_error_detached hword
  consume_ok := consume_ok_detached
  consume_error := consume_error_detached

section Window

variable {B : Border} {limit offset k amount : Nat} {v v' : View} {e : SourceError} {bytes : Bytes}

theorem size_window (h : ∃ (w : View) (cursor : Nat), v = w.window limit cursor ∧ B.Has w) :
    v.size? = some (min B.stop limit) := by
  obtain ⟨w, cursor, rfl, hhas⟩ := h
  have hsize := B.size hhas
  rw [View.size?] at hsize
  rw [View.size?, View.window, Reader.size?, hsize]

theorem seek_ok_window (h : ∃ (w : View) (cursor : Nat), v = w.window limit cursor ∧ B.Has w)
    (hstart : B.start ≤ offset) (hmoved : v.seek offset = (.ok k, v')) :
    ∃ w : View, v' = w.window limit offset ∧ offset ≤ limit ∧ B.At offset w := by
  obtain ⟨w, cursor, rfl, hhas⟩ := h
  rw [View.seek_window] at hmoved
  split at hmoved
  · cases hmoved
  · split at hmoved
    · rename_i hinner
      cases hmoved
      exact ⟨_, rfl, Nat.le_of_not_lt ‹_›, B.seek_ok hhas hstart hinner⟩
    · cases hmoved

theorem seek_error_window (h : ∃ (w : View) (cursor : Nat), v = w.window limit cursor ∧ B.Has w)
    (hstart : B.start ≤ offset) (hmoved : v.seek offset = (.error e, v')) :
    (∃ (w : View) (cursor : Nat), v' = w.window limit cursor ∧ B.Has w)
      ∧ e.Refuses (min B.stop limit) offset := by
  obtain ⟨w, cursor, rfl, hhas⟩ := h
  rw [View.seek_window] at hmoved
  split at hmoved
  · rename_i hpast
    cases hmoved
    exact ⟨⟨w, cursor, rfl, hhas⟩, Nat.lt_of_le_of_lt (Nat.min_le_right _ _) hpast⟩
  · split at hmoved
    · cases hmoved
    · rename_i hinner
      cases hmoved
      obtain ⟨hleft, hrefuses⟩ := B.seek_error hhas hstart hinner
      exact ⟨⟨_, cursor, rfl, hleft⟩, hrefuses.mono (Nat.min_le_left _ _)⟩

theorem consume_ok_window (h : ∃ w : View, v = w.window limit k ∧ k ≤ limit ∧ B.At k w)
    (hread : v.consume amount = (.ok bytes, v')) :
    (∃ w : View, v' = w.window limit (k + amount) ∧ k + amount ≤ limit ∧ B.At (k + amount) w)
      ∧ (0 < amount → k + amount ≤ min B.stop limit) := by
  obtain ⟨w, rfl, hlimit, hat⟩ := h
  rw [View.consume_window] at hread
  split at hread
  · cases hread
  · split at hread
    · rename_i hinner
      cases hread
      obtain ⟨hmoved, hinside⟩ := B.consume_ok hat hinner
      exact ⟨⟨_, rfl, by omega, hmoved⟩, fun hpos => Nat.le_min.2 ⟨hinside hpos, by omega⟩⟩
    · cases hread

theorem consume_error_window (h : ∃ w : View, v = w.window limit k ∧ k ≤ limit ∧ B.At k w)
    (hread : v.consume amount = (.error e, v')) :
    (∃ w : View, v' = w.window limit k ∧ k ≤ limit ∧ B.At k w)
      ∧ e.Lacks (min B.stop limit) k amount := by
  obtain ⟨w, rfl, hlimit, hat⟩ := h
  rw [View.consume_window] at hread
  split at hread
  · cases hread
    refine ⟨⟨w, rfl, hlimit, hat⟩, rfl, rfl, Nat.lt_of_le_of_lt (Nat.min_le_right _ _) ?_⟩
    omega
  · split at hread
    · cases hread
    · rename_i hinner
      cases hread
      obtain ⟨hstays, hlacks⟩ := B.consume_error hat hinner
      exact ⟨⟨_, rfl, hlimit, hstays⟩, hlacks.mono (Nat.min_le_left _ _)⟩

end Window

def window (B : Border) (limit : Nat) : Border where
  start := B.start
  stop := min B.stop limit
  word := Nat.lt_of_le_of_lt (Nat.min_le_left _ _) B.word
  Has v := ∃ (w : View) (cursor : Nat), v = w.window limit cursor ∧ B.Has w
  At k v := ∃ w : View, v = w.window limit k ∧ k ≤ limit ∧ B.At k w
  has_of_at h := by
    obtain ⟨w, rfl, -, hat⟩ := h
    exact ⟨w, _, rfl, B.has_of_at hat⟩
  size := size_window
  seek_ok := seek_ok_window
  seek_error := seek_error_window
  consume_ok := consume_ok_window
  consume_error := consume_error_window

end Border

end BinaryLayout
