import BinaryLayout.Proofs.Ending.View
import BinaryLayout.Proofs.Locality.Read
import BinaryLayout.Proofs.Run
import BinaryLayout.Proofs.Source.Content

/-!
# What views give

Where a view stands decides what it gives next, and nothing else that was read before does. So a view
is told by two functions of an offset: whether it can be moved there, and what it gives there.

A source is a store of bytes that have their places: what it gives in one go, it gives in parts. A device that
tells its size and goes on past it is none, since it refuses to be moved to bytes that it gives.

## Main definitions

* `View.moved`, `View.given`: the two functions.
* `View.StandsAt`: the offset at which a view stands.
* `View.Coherent`: what a view gives in one go, it gives in parts.
* `Sources.Honest`: a source that is not known to end if it repeats itself, and whose windows stay
  inside the address space.

## Main statements

* `View.seek_moved`, `View.consume_given`: moves and reads by these functions.
* `LoadM.ends_seekTo`, `LoadM.ends_next`: the same of what loading does.
* `View.moved_rewound`, `View.given_rewound`: they depend on nothing but what the view shows.
* `Sources.Honest.coherent`, `View.coherent_detached`, `View.Coherent.window`: coherent views.
-/

namespace BinaryLayout

namespace SourceError

/-- Bytes ran out. -/
def isConsume : SourceError → Bool
  | consume .. => true
  | _ => false

/-- Bytes ran out, or there are none where the view was to be moved. -/
def isShort : SourceError → Bool
  | consume .. | outOfBounds .. => true
  | _ => false

theorem isShort_of_isConsume {e : SourceError} (h : e.isConsume = true) : e.isShort = true := by
  cases e <;> simp_all [isConsume, isShort]

@[simp] theorem isConsume_movedTo (cursor : Nat) (e : SourceError) :
    (e.movedTo cursor).isConsume = e.isConsume := by
  cases e <;> rfl

end SourceError

/-! ## Sources -/

namespace Source

def standing (k : Nat) : Source → Source
  | memory data writable _ => memory data writable k
  | empty => empty
  | proxy parent base length _ => proxy parent base length k
  | device d => device { d with cursor := k }

theorem standing_cursor (s : Source) : s.standing s.cursor = s := by
  cases s <;> rfl

/-- A source that was moved stands where it was moved. -/
theorem of_seek {s t : Source} {k j : Nat} (h : s.seek k = (.ok j, t)) :
    t = s.standing k ∧ t.cursor = k := by
  cases s with
  | empty =>
    simp only [seek] at h
    split at h
    · simp at h
    · rename_i hzero
      simp only [Prod.mk.injEq] at h
      rw [← h.2, cursor]
      exact ⟨rfl, (Nat.eq_zero_of_not_pos hzero).symm⟩
  | device d =>
    simp only [seek, Device.seek] at h
    split at h
    · simp at h
    · split at h
      · simp at h
      · simp only [Prod.mk.injEq] at h
        rw [← h.2]
        exact ⟨rfl, rfl⟩
  | memory | proxy =>
    simp only [seek] at h
    split at h
    · simp at h
    · simp only [Prod.mk.injEq] at h
      rw [← h.2]
      exact ⟨rfl, rfl⟩

theorem seek_rewound (s : Source) (k : Nat) :
    (s.rewound.seek k).1.map (fun _ => ()) = (s.seek k).1.map fun _ => () := by
  cases s with
  | device d =>
    simp only [rewound, seek, Device.seek]
    repeat' split
    all_goals rfl
  | empty => rfl
  | memory | proxy =>
    simp only [rewound, seek]
    split <;> rfl

end Source

namespace Sources

/-- Whether source `id` can be moved to an offset. -/
def moved (sources : Sources) (id k : Nat) : Except SourceError Unit :=
  (sources.seek id k).1.map fun _ => ()

/-- What source `id` gives when it stands at an offset. -/
def given : Sources → Nat → Nat → Nat → Except SourceError Bytes
  | [], _, _, _ => .error notOpen
  | s :: older, id, k, amount =>
    if id = older.length then (readHere older amount (s.standing k)).1 else given older id k amount

variable {s : Source} {older sources : Sources} {id k amount : Nat}

theorem moved_newest (s : Source) (older : Sources) (k : Nat) :
    moved (s :: older) older.length k = (s.seek k).1.map fun _ => () := by
  rw [moved, seek, update, if_pos rfl]

theorem moved_older (h : id ≠ older.length) : moved (s :: older) id k = moved older id k := by
  rw [moved, seek, update, if_neg h]
  rfl

theorem given_newest (s : Source) (older : Sources) (k amount : Nat) :
    given (s :: older) older.length k amount = (readHere older amount (s.standing k)).1 := by
  rw [given, if_pos rfl]

theorem given_older (h : id ≠ older.length) :
    given (s :: older) id k amount = given older id k amount := by
  rw [given, if_neg h]

/-- A source that is moved stands there. -/
theorem cursor?_seek {j : Nat} (h : (sources.seek id k).1 = .ok j) :
    (sources.seek id k).2.cursor? id = some k := by
  induction sources with
  | nil => simp [seek, update] at h
  | cons s older ih =>
    by_cases hid : id = older.length
    · subst hid
      simp only [seek, update, if_true] at h ⊢
      rw [cursor?_newest, (Source.of_seek (Prod.ext h rfl)).2]
    · have hlength : id ≠ (update (·.seek k) older id).2.length := by rwa [length_sources_update]
      simp only [seek, update, if_neg hid] at h ⊢
      rw [cursor?_older hlength]
      exact ih h

/-- A read at an offset is a move and a read there. -/
theorem read_target (sources : Sources) (id k amount : Nat) :
    (sources.read id (some k) amount).1 = (sources.moved id k).bind fun _ =>
      sources.given id k amount := by
  induction sources with
  | nil => rfl
  | cons s older ih =>
    by_cases hid : id = older.length
    · subst hid
      rw [read_cons, moved_newest, given_newest, Source.move]
      cases hseek : s.seek k with
      | mk result t =>
        cases result with
        | error e => rfl
        | ok j =>
          rw [(Source.of_seek hseek).1]
          rfl
    · rw [read_older hid, moved_older hid, given_older hid]
      exact ih

/-- A read that gives bytes moves past them. -/
theorem cursor?_readHere {bytes : Bytes}
    (h : (readHere older amount s).1 = .ok bytes) :
    (readHere older amount s).2.cursor? older.length = some (s.cursor + amount) := by
  cases s with
  | memory data writable cursor =>
    simp only [readHere] at h ⊢
    split at h
    · exact cursor?_newest _ _
    · simp at h
  | empty =>
    by_cases hzero : amount = 0
    · subst hzero
      exact cursor?_newest _ _
    · simp [readHere, hzero] at h
  | proxy parent base length cursor =>
    have hlength := length_sources_read older parent (some (wrapOffset (base + cursor))) amount
    by_cases hroom : length - cursor < amount
    · simp [readHere, hroom] at h
    · simp only [readHere, if_neg hroom] at h ⊢
      generalize read older parent (some (wrapOffset (base + cursor))) amount = inner at h hlength ⊢
      obtain ⟨e | bytes, older'⟩ := inner
      · simp at h
      · simp only [← hlength, cursor?_newest]
        rfl
  | device d =>
    simp only [readHere, cursor?_newest, Option.some_inj] at h ⊢
    rw [Device.consume] at h ⊢
    generalize ({ d with reads := d.reads + 1 } : Device).next amount = next at h ⊢
    cases next with
    | error e => simp at h
    | ok bytes => rfl

/-- A read where the source stands. -/
theorem consume_given (hcursor : sources.cursor? id = some k) (amount : Nat) :
    (sources.consume id amount).1 = sources.given id k amount
      ∧ ∀ bytes, (sources.consume id amount).1 = .ok bytes →
        (sources.consume id amount).2.cursor? id = some (k + amount) := by
  rw [consume]
  induction sources with
  | nil => simp [cursor?, source?] at hcursor
  | cons s older ih =>
    by_cases hid : id = older.length
    · subst hid
      rw [cursor?_newest, Option.some_inj] at hcursor
      rw [read_cons, given_newest, ← hcursor, Source.standing_cursor]
      exact ⟨rfl, fun bytes hbytes => cursor?_readHere hbytes⟩
    · rw [cursor?_older hid] at hcursor
      have hlength : id ≠ (read older id none amount).2.length := by rwa [length_sources_read]
      rw [read_older hid, given_older hid, cursor?_older hlength]
      exact ih hcursor

theorem moved_rewound (sources : Sources) (id k : Nat) :
    sources.rewound.moved id k = sources.moved id k := by
  induction sources with
  | nil => rfl
  | cons s older ih =>
    rw [rewound_cons]
    by_cases hid : id = older.length
    · subst hid
      have hlength := length_rewound older
      rw [moved_newest, ← hlength, moved_newest, Source.seek_rewound]
    · rw [moved_older hid, moved_older (by rwa [length_rewound]), ih]

/-- What a window gives is what its parent gives. -/
theorem readHere_proxy (older : Sources) (amount parent base length k : Nat) :
    (readHere older amount (.proxy parent base length k)).1 =
      if length - k < amount then .error (.consume k amount (length - k))
      else ((older.moved parent (wrapOffset (base + k))).bind fun _ =>
        older.given parent (wrapOffset (base + k)) amount).mapError (SourceError.movedTo k) := by
  rw [← read_target, readHere]
  split
  · rfl
  · generalize read older parent (some (wrapOffset (base + k))) amount = inner
    obtain ⟨_ | _, _⟩ := inner <;> rfl

/-- A device gives the same however many reads it served. -/
theorem readHere_device (older : Sources) (amount : Nat) (d : Device) :
    (readHere older amount (.device d)).1 = d.next amount := by
  have hnext : ({ d with reads := d.reads + 1 } : Device).next amount = d.next amount := rfl
  rw [readHere, Device.consume, hnext]
  cases d.next amount <;> rfl

theorem given_rewound (sources : Sources) (id k amount : Nat) :
    sources.rewound.given id k amount = sources.given id k amount := by
  induction sources generalizing id k with
  | nil => rfl
  | cons s older ih =>
    rw [rewound_cons]
    by_cases hid : id = older.length
    · subst hid
      have hlength := length_rewound older
      rw [given_newest, ← hlength, given_newest]
      cases s with
      | memory data writable cursor =>
        simp only [Source.rewound, Source.standing, readHere]
        split <;> rfl
      | empty =>
        simp only [Source.rewound, Source.standing, readHere]
        split <;> rfl
      | proxy parent base length cursor =>
        simp only [Source.rewound, Source.standing, readHere_proxy, moved_rewound, ih]
      | device d =>
        simp only [Source.rewound, Source.standing, readHere_device]
        rfl
    · rw [given_older hid, given_older (by rwa [length_rewound]), ih]

end Sources

/-! ## Views -/

namespace Reader

def StandsAt (k : Nat) (sources : Sources) : Reader → Prop
  | source id => sources.cursor? id = some k
  | detached _ _ cursor => cursor = k
  | window inner _ cursor => cursor = k ∧ inner.StandsAt k sources

/-- Whether a view can be moved to an offset. -/
def moved (sources : Sources) (k : Nat) : Reader → Except SourceError Unit
  | source id => sources.moved id k
  | detached data origin _ =>
    if k < origin ∨ detachedEnd data origin < k then
      .error (.outOfBounds k (detachedEnd data origin))
    else .ok ()
  | window inner limit _ =>
    if limit < k then .error (.outOfBounds k limit) else inner.moved sources k

/-- What a view gives when it stands at an offset. -/
def given (sources : Sources) (k amount : Nat) : Reader → Except SourceError Bytes
  | source id => sources.given id k amount
  | detached data origin _ => Sources.slice data (k - origin) amount k
  | window inner limit _ =>
    if limit - k < amount then .error (.consume k amount (limit - k))
    else inner.given sources k amount

end Reader

namespace View

def StandsAt (v : View) (k : Nat) : Prop := v.1.StandsAt k v.2

/-- Whether the view can be moved to an offset. -/
def moved (v : View) (k : Nat) : Except SourceError Unit := v.1.moved v.2 k

/-- What the view gives when it stands at an offset. -/
def given (v : View) (k amount : Nat) : Except SourceError Bytes := v.1.given v.2 k amount

theorem moved_window (v : View) (limit cursor k : Nat) :
    (v.window limit cursor).moved k =
      if limit < k then .error (.outOfBounds k limit) else v.moved k :=
  rfl

theorem given_window (v : View) (limit cursor k amount : Nat) :
    (v.window limit cursor).given k amount =
      if limit - k < amount then .error (.consume k amount (limit - k)) else v.given k amount :=
  rfl

theorem moved_rewound (v : View) (k : Nat) : v.rewound.moved k = v.moved k := by
  obtain ⟨r, sources⟩ := v
  induction r with
  | source id => exact sources.moved_rewound id k
  | detached data origin cursor => rfl
  | window inner limit cursor ih => exact congrArg (if limit < k then _ else ·) ih

theorem given_rewound (v : View) (k amount : Nat) : v.rewound.given k amount = v.given k amount := by
  obtain ⟨r, sources⟩ := v
  induction r with
  | source id => exact sources.given_rewound id k amount
  | detached data origin cursor => rfl
  | window inner limit cursor ih => exact congrArg (if limit - k < amount then _ else ·) ih

/-- A view that can be moved to an offset stands there afterwards. -/
theorem seek_moved (v : View) (k : Nat) :
    (v.seek k).1.map (fun _ => ()) = v.moved k
      ∧ ∀ j, (v.seek k).1 = .ok j → (v.seek k).2.StandsAt k := by
  obtain ⟨r, sources⟩ := v
  induction r with
  | source id => exact ⟨rfl, fun j hj => Sources.cursor?_seek hj⟩
  | detached data origin cursor =>
    simp only [seek, Reader.seek, moved, Reader.moved]
    split
    · exact ⟨rfl, fun _ h => by cases h⟩
    · exact ⟨rfl, fun _ _ => rfl⟩
  | window inner limit cursor ih =>
    have hstep := seek_window (inner, sources) limit cursor k
    have hmoved := moved_window (inner, sources) limit cursor k
    rw [window] at hstep hmoved
    rw [hstep, hmoved]
    split
    · exact ⟨rfl, fun _ h => by cases h⟩
    · generalize View.seek (inner, sources) k = step at ih
      obtain ⟨e | j, w⟩ := step
      · exact ⟨ih.1, fun _ h => by cases h⟩
      · exact ⟨ih.1, fun _ _ => ⟨rfl, ih.2 j rfl⟩⟩

/-- What a view gives where it stands. -/
theorem consume_given {v : View} {k : Nat} (h : v.StandsAt k) (amount : Nat) :
    (v.consume amount).1 = v.given k amount
      ∧ ∀ bytes, (v.consume amount).1 = .ok bytes → (v.consume amount).2.StandsAt (k + amount) := by
  obtain ⟨r, sources⟩ := v
  induction r with
  | source id => exact Sources.consume_given h amount
  | detached data origin cursor =>
    obtain rfl : cursor = k := h
    simp only [consume, Reader.consume, given, Reader.given]
    split
    · rename_i hslice
      exact ⟨hslice.symm, fun _ _ => rfl⟩
    · rename_i hslice
      exact ⟨hslice.symm, fun _ h => by cases h⟩
  | window inner limit cursor ih =>
    obtain ⟨rfl, hinner⟩ := h
    have hstep := consume_window (inner, sources) limit cursor amount
    have hgiven := given_window (inner, sources) limit cursor cursor amount
    rw [window] at hstep hgiven
    rw [hstep, hgiven]
    have hread := ih hinner
    split
    · exact ⟨rfl, fun _ h => by cases h⟩
    · generalize View.consume (inner, sources) amount = read at hread
      obtain ⟨e | bytes, w⟩ := read
      · exact ⟨hread.1, fun _ h => by cases h⟩
      · exact ⟨hread.1, fun _ _ => ⟨rfl, hread.2 bytes rfl⟩⟩

end View

/-! ## Coherent views -/

/-- What was asked for is this stretch of bytes, or it fails in another way than for want of bytes. -/
def IsPart (part : Bytes) : Except SourceError Bytes → Prop
  | .ok bytes => bytes = part
  | .error e => e.isConsume = false

/-- What is given in one go is given in parts: no part of it is out of reach or missing. -/
structure Coherent (moved : Nat → Except SourceError Unit)
    (given : Nat → Nat → Except SourceError Bytes) : Prop where
  reach : ∀ {k amount bytes}, moved k = .ok () → given k amount = .ok bytes → ∀ i ≤ amount, ∀ e,
    moved (k + i) = .error e → e.isShort = false
  part : ∀ {k amount bytes}, moved k = .ok () → given k amount = .ok bytes → ∀ i m, 0 < m →
    i + m ≤ amount → IsPart ((bytes.drop i).take m) (given (k + i) m)

/-- What the view gives in one go, it gives in parts, as a store does whose bytes have their places: a read
gives exactly the bytes asked for, or it fails for want of them. -/
def View.Coherent (v : View) : Prop := BinaryLayout.Coherent v.moved v.given

/-- The source goes on past its end only if it does not tell where that is, and its window stays
inside the address space. -/
def Source.Honest (behind : Nat → Prop) : Source → Prop
  | memory .. | empty => True
  | proxy parent base length _ => behind parent ∧ base + length ≤ pow2 64
  | device d => ¬ (d.bounded = true ∧ d.repeats = true)

/-- Source `id`, and those behind it, go on past their ends only if they do not tell where these
are, and their windows stay inside the address space. -/
def Sources.Honest : Sources → Nat → Prop
  | [], _ => True
  | s :: older, id => if id = older.length then s.Honest (Honest older) else Honest older id

theorem drop_take_extract (data : Array UInt8) {k amount i m : Nat} (h : i + m ≤ amount) :
    ((data.extract k (k + amount)).toList.drop i).take m = (data.extract (k + i) (k + i + m)).toList := by
  simp only [Array.toList_extract, List.extract_eq_take_drop, Nat.add_sub_cancel_left, List.drop_take,
    List.drop_drop, List.take_take]
  congr 1
  omega

theorem Sources.coherent_slice {data : Array UInt8} {moved : Nat → Except SourceError Unit} {origin : Nat}
    (hmoved : ∀ k, moved k = .ok () → origin ≤ k ∧ k ≤ origin + data.size)
    (hreach : ∀ k e, moved k = .error e → k < origin ∨ origin + data.size < k) :
    Coherent moved fun k amount => slice data (k - origin) amount k := by
  have hroom {k amount : Nat} {bytes : Bytes} (h : slice data (k - origin) amount k = .ok bytes) :
      k - origin + amount ≤ data.size
        ∧ bytes = (data.extract (k - origin) (k - origin + amount)).toList := by
    rw [slice] at h
    split at h
    · cases h
      exact ⟨‹_›, rfl⟩
    · cases h
  constructor
  · intro k amount bytes hk hbytes i hi e he
    have hstart := hmoved k hk
    have hstop := hroom hbytes
    rcases hreach _ e he with hbefore | hpast <;> omega
  · intro k amount bytes hk hbytes i m _ hi
    have hstart := hmoved k hk
    obtain ⟨hstop, rfl⟩ := hroom hbytes
    have hplace : k + i - origin = k - origin + i := by omega
    rw [hplace, slice, if_pos (by omega), drop_take_extract data hi]
    exact rfl

theorem Device.coherent {d : Device} (h : ¬ (d.bounded = true ∧ d.repeats = true)) :
    Coherent (fun k => ((Source.device d).seek k).1.map fun _ => ())
      fun k amount => ({ d with cursor := k } : Device).next amount := by
  have hmoved {k : Nat} {e : SourceError}
      (he : ((Source.device d).seek k).1.map (fun _ => ()) = .error e) :
      e = .readOnly ∨ d.bounded = true ∧ d.data.size < k := by
    simp only [Source.seek, seek] at he
    split at he
    · cases he
      exact .inl rfl
    · split at he
      · exact .inr ‹_›
      · cases he
  constructor
  · intro k amount bytes hk hbytes i hi e he
    rcases hmoved he with rfl | ⟨hbounded, hpast⟩
    · rfl
    · exfalso
      have hrepeats : d.repeats = false := by
        cases hr : d.repeats
        · rfl
        · exact absurd ⟨hbounded, hr⟩ h
      by_cases hpos : 0 < amount
      · have hinside := inside_of_next (d := { d with cursor := k }) hrepeats hpos hbytes
        dsimp only at hinside
        omega
      · obtain rfl : i = 0 := by omega
        rw [Nat.add_zero] at he
        rw [hk] at he
        cases he
  · intro k amount bytes _ hbytes i m hm hi
    have hpos : amount ≠ 0 := by omega
    simp only [next] at hbytes ⊢
    rw [if_neg hpos] at hbytes
    rw [if_neg (Nat.ne_of_gt hm)]
    split at hbytes
    · cases hbytes
    · split
      · exact rfl
      · split at hbytes
        · split at hbytes
          · rename_i hrepeats hreach
            cases hbytes
            rw [if_pos hrepeats, if_pos (Nat.le_trans (by omega) hreach)]
            refine List.ext_getElem (by simp; omega) fun j hj hj' => ?_
            simp [Nat.add_assoc]
          · cases hbytes
        · split at hbytes
          · rename_i hrepeats hinside
            cases hbytes
            rw [if_neg hrepeats, if_pos (by omega), drop_take_extract d.data hi]
            exact rfl
          · cases hbytes

theorem isPart_movedTo {part : Bytes} {result : Except SourceError Bytes} (cursor : Nat)
    (h : IsPart part result) : IsPart part (result.mapError (SourceError.movedTo cursor)) := by
  cases result with
  | ok bytes => exact h
  | error e =>
    show (e.movedTo cursor).isConsume = false
    rw [SourceError.isConsume_movedTo]
    exact h

/-- Honest sources give in parts what they give in one go. -/
theorem Sources.Honest.coherent {sources : Sources} {id : Nat} (h : sources.Honest id) :
    Coherent (sources.moved id) (sources.given id) := by
  induction sources generalizing id with
  | nil => exact ⟨nofun, nofun⟩
  | cons s older ih =>
    rw [Honest] at h
    by_cases hid : id = older.length
    · subst hid
      rw [if_pos rfl] at h
      have hmoved := funext fun k => moved_newest s older k
      have hgiven := funext fun k => funext fun amount => given_newest s older k amount
      rw [hmoved, hgiven]
      cases s with
      | memory data writable cursor =>
        have hread : (fun k amount => (readHere older amount ((Source.memory data writable cursor).standing k)).1)
            = fun k amount => slice data (k - 0) amount k := by
          funext k amount
          simp only [Source.standing, readHere, Nat.sub_zero]
          split <;> simp [*]
        rw [hread]
        refine coherent_slice ?_ ?_
        · intro k hk
          simp only [Source.seek] at hk
          split at hk
          · cases hk
          · omega
        · intro k e he
          simp only [Source.seek] at he
          split at he
          · omega
          · cases he
      | empty =>
        have hzero {k amount : Nat} {bytes : Bytes}
            (hbytes : (readHere older amount (Source.empty.standing k)).1 = .ok bytes) : amount = 0 := by
          simp only [Source.standing, readHere] at hbytes
          split at hbytes
          · assumption
          · cases hbytes
        constructor
        · intro k amount bytes hk hbytes i hi e he
          obtain rfl : i = 0 := by
            have := hzero hbytes
            omega
          rw [Nat.add_zero, hk] at he
          cases he
        · intro k amount bytes _ hbytes i m hm hi
          have := hzero hbytes
          omega
      | proxy parent base length cursor =>
        obtain ⟨hparent, hword⟩ := h
        have hbehind := ih hparent
        have hmove {k : Nat} {e : SourceError}
            (he : ((Source.proxy parent base length cursor).seek k).1.map (fun _ => ()) = .error e) :
            length < k := by
          simp only [Source.seek] at he
          split at he
          · assumption
          · cases he
        simp only [Source.standing, readHere_proxy]
        constructor
        · intro k amount bytes hk hbytes i hi e he
          split at hbytes
          · cases hbytes
          · by_cases hpos : 0 < amount
            · have := hmove he
              omega
            · obtain rfl : i = 0 := by omega
              rw [Nat.add_zero, hk] at he
              cases he
        · intro k amount bytes _ hbytes i m hm hi
          split at hbytes
          · cases hbytes
          · rename_i hroom
            rw [if_neg (by omega)]
            have hstart : wrapOffset (base + k) = base + k := Nat.mod_eq_of_lt (by omega)
            have hplace : wrapOffset (base + (k + i)) = base + k + i := by
              rw [← Nat.add_assoc]
              exact Nat.mod_eq_of_lt (by omega)
            rw [hstart] at hbytes
            rw [hplace]
            cases hto : Sources.moved older parent (base + k) with
            | error e =>
              rw [hto] at hbytes
              cases hbytes
            | ok _ =>
              rw [hto] at hbytes
              have hgave := ok_of_mapError hbytes
              have hreach := hbehind.reach hto hgave i (by omega)
              cases hthere : Sources.moved older parent (base + k + i) with
              | error e =>
                have hshort := hreach e hthere
                refine isPart_movedTo (k + i) ?_
                show e.isConsume = false
                cases hconsume : e.isConsume with
                | false => rfl
                | true =>
                  rw [SourceError.isShort_of_isConsume hconsume] at hshort
                  cases hshort
              | ok _ => exact isPart_movedTo (k + i) (hbehind.part hto hgave i m hm hi)
      | device d =>
        simp only [Source.standing, readHere_device]
        exact Device.coherent h
    · rw [if_neg hid] at h
      have hmoved : moved (s :: older) id = moved older id := funext fun k => moved_older hid
      have hgiven : given (s :: older) id = given older id :=
        funext fun k => funext fun amount => given_older hid
      rw [hmoved, hgiven]
      exact ih h

namespace View

theorem coherent_detached {data : Array UInt8} (hsize : data.size < pow2 64) (origin cursor : Nat)
    (sources : Sources) : Coherent (.detached data origin cursor, sources) := by
  by_cases hword : origin + data.size < pow2 64
  · have hend : Reader.detachedEnd data origin = origin + data.size := Nat.mod_eq_of_lt hword
    refine Sources.coherent_slice ?_ ?_
    · intro k hk
      simp only [moved, Reader.moved, hend] at hk
      split at hk
      · cases hk
      · omega
    · intro k e he
      simp only [moved, Reader.moved, hend] at he
      split at he
      · assumption
      · cases he
  · -- The end is wrapped around to somewhere before the bytes, so the view cannot be moved at all.
    have hnone (k : Nat) : moved (.detached data origin cursor, sources) k ≠ .ok () := by
      intro hk
      simp only [moved, Reader.moved] at hk
      split at hk
      · cases hk
      · rename_i hinside
        rw [Reader.detachedEnd, wrapOffset] at hinside
        have hmod := Nat.mod_lt (origin + data.size) (pow2_pos 64)
        have hdiv := Nat.div_add_mod (origin + data.size) (pow2 64)
        have hpos : 0 < (origin + data.size) / pow2 64 :=
          Nat.div_pos (Nat.le_of_not_lt hword) (pow2_pos 64)
        have hle := Nat.le_mul_of_pos_right (pow2 64) hpos
        omega
    exact ⟨fun hk => absurd hk (hnone _), fun hk => absurd hk (hnone _)⟩

theorem Coherent.window {v : View} (h : v.Coherent) (limit cursor : Nat) :
    (v.window limit cursor).Coherent := by
  have hsplit {k : Nat} (hk : (v.window limit cursor).moved k = .ok ()) : k ≤ limit ∧ v.moved k = .ok () := by
    rw [moved_window] at hk
    split at hk
    · cases hk
    · exact ⟨Nat.le_of_not_lt ‹_›, hk⟩
  have hroom {k amount : Nat} {bytes : Bytes} (hk : k ≤ limit)
      (hbytes : (v.window limit cursor).given k amount = .ok bytes) :
      k + amount ≤ limit ∧ v.given k amount = .ok bytes := by
    rw [given_window] at hbytes
    split at hbytes
    · cases hbytes
    · exact ⟨by omega, hbytes⟩
  constructor
  · intro k amount bytes hk hbytes i hi e he
    obtain ⟨hlimit, hk⟩ := hsplit hk
    obtain ⟨hstop, hbytes⟩ := hroom hlimit hbytes
    rw [moved_window, if_neg (by omega)] at he
    exact h.reach hk hbytes i hi e he
  · intro k amount bytes hk hbytes i m hm hi
    obtain ⟨hlimit, hk⟩ := hsplit hk
    obtain ⟨hstop, hbytes⟩ := hroom hlimit hbytes
    rw [given_window, if_neg (by omega)]
    exact h.part hk hbytes i m hm hi

theorem coherent_rewound {v : View} : v.rewound.Coherent ↔ v.Coherent := by
  have hmoved : v.rewound.moved = v.moved := funext v.moved_rewound
  have hgiven : v.rewound.given = v.given := funext fun k => funext (v.given_rewound k)
  rw [Coherent, Coherent, hmoved, hgiven]

end View

/-! ## Moves and reads of a load -/

namespace LoadM

variable {κ : Type}

/-- A move, by whether the view can be moved there. -/
theorem ends_seekTo (offset amount : Nat) (s : LoadState κ) :
    Ends (seekTo offset amount) s fun result t => t.view.rewound = s.view.rewound
      ∧ (result = .ok () ↔ s.view.moved offset = .ok ()) ∧ (result = .ok () → t.view.StandsAt offset) := by
  obtain ⟨hmoved, hstands⟩ := s.view.seek_moved offset
  have hkept := s.view.rewound_seek offset
  simp only [Ends, seekTo, modifyGet, MonadStateOf.modifyGet, StateT.modifyGet, Pure.pure]
  simp only [View.seek, LoadState.view] at hmoved hstands hkept
  simp only [LoadState.view]
  rw [← hmoved]
  generalize s.reader.seek s.sources offset = step at hmoved hstands hkept
  obtain ⟨e | k, r, sources⟩ := step
  · refine ⟨hkept, ⟨fun h => ?_, fun h => by cases h⟩, fun h => ?_⟩ <;> cases e <;> cases h
  · exact ⟨hkept, ⟨fun _ => rfl, fun _ => rfl⟩, fun _ => hstands k rfl⟩

/-- A read where the view stands. -/
theorem ends_next {k : Nat} (amount : Nat) {s : LoadState κ} (h : s.view.StandsAt k) :
    Ends (next amount) s fun result t => t.view.rewound = s.view.rewound
      ∧ result = s.view.given k amount
      ∧ ∀ bytes, result = .ok bytes → bytes.length = amount ∧ t.view.StandsAt (k + amount) := by
  obtain ⟨hgiven, hstands⟩ := View.consume_given h amount
  refine ⟨s.view.rewound_consume amount, hgiven, fun bytes hbytes => ⟨?_, hstands bytes hbytes⟩⟩
  have hread : s.view.consume amount = (.ok bytes, (s.view.consume amount).2) := Prod.ext hbytes rfl
  exact View.length_consume hread

end LoadM

end BinaryLayout
