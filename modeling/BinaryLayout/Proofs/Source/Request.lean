import BinaryLayout.Proofs.Source.Content

/-!
# Requests to sources

A source can be asked to move, to read and to write. What it answers, and what becomes of it, is told
for bytes in memory by those bytes alone; a window hands its reads and its writes on to its parent,
at the place that it has moved to itself.

## Main definitions

* `Request`, `Reply`: what a source is asked, and what it answers.
* `Sources.ask`: one request to one of the open sources.
* `Sources.put`: the open sources with one of them replaced.

## Main statements

* `Sources.read_memory`, `Sources.write_memory`: requests to bytes in memory.
* `Sources.read_proxy`, `Sources.write_proxy`: requests to a window.
-/

namespace BinaryLayout

/-- What a source can be asked. -/
inductive Request where
  | seek (offset : Nat)
  | consume (amount : Nat)
  | store (bytes : Bytes)

/-- What a source answers. -/
inductive Reply where
  /-- Where it stood before it was moved. -/
  | previous (place : Nat)
  | read (bytes : Bytes)
  | written (count : Nat)
  deriving DecidableEq

namespace Sources

def ask (sources : Sources) (id : Nat) : Request → Except SourceError Reply × Sources
  | .seek offset => ((sources.seek id offset).1.map .previous, (sources.seek id offset).2)
  | .consume amount => ((sources.consume id amount).1.map .read, (sources.consume id amount).2)
  | .store bytes => ((sources.store id bytes).1.map .written, (sources.store id bytes).2)

/-- The open sources with source `id` replaced. -/
def put (t : Source) : Sources → Nat → Sources
  | [], _ => []
  | s :: older, id => if id = older.length then t :: older else s :: put t older id

section

variable {sources older : Sources} {s t : Source} {id parent : Nat} {data : Array UInt8}
  {writable : Bool} {cursor base length : Nat}

@[simp] theorem length_put (t : Source) (sources : Sources) (id : Nat) :
    (sources.put t id).length = sources.length := by
  induction sources with
  | nil => rfl
  | cons s older ih =>
    rw [put]
    split
    · rfl
    · rw [List.length_cons, List.length_cons, ih]

theorem put_older (hid : id ≠ older.length) : put t (s :: older) id = s :: put t older id := by
  rw [put, if_neg hid]

/-- A source that was put in its place is there, and the others are as they were. -/
theorem source?_put (h : id < sources.length) (j : Nat) :
    (sources.put t id).source? j = if j = id then some t else sources.source? j := by
  induction sources with
  | nil => exact absurd h (Nat.not_lt_zero id)
  | cons s older ih =>
    by_cases hid : id = older.length
    · subst hid
      rw [put, if_pos rfl, source?_cons, source?_cons]
      split <;> rfl
    · have hlt : id < older.length := Nat.lt_of_le_of_ne (Nat.le_of_lt_succ h) hid
      rw [put_older hid, source?_cons, source?_cons, length_put, ih hlt]
      by_cases hj : j = older.length
      · rw [if_pos hj, if_pos hj, if_neg (by omega)]
      · rw [if_neg hj, if_neg hj]

/-- A source that is put where it is already changes nothing. -/
theorem put_self (h : sources.source? id = some s) : sources.put s id = sources := by
  induction sources with
  | nil => rfl
  | cons t older ih =>
    rw [source?_cons] at h
    split at h
    · rename_i hid
      cases h
      rw [put, if_pos hid]
    · rename_i hid
      rw [put_older hid, ih h]

theorem update_eq {α : Type} (change : Source → Except SourceError α × Source)
    (h : sources.source? id = some s) :
    sources.update change id = ((change s).1, sources.put (change s).2 id) := by
  induction sources with
  | nil => cases h
  | cons t older ih =>
    rw [source?_cons] at h
    split at h
    · rename_i hid
      cases h
      rw [update, put, if_pos hid, if_pos hid]
    · rename_i hid
      rw [update, if_neg hid, put_older hid, ih h]

/-- Moving a source. -/
theorem seek_eq (h : sources.source? id = some s) (offset : Nat) :
    sources.seek id offset = ((s.seek offset).1, sources.put (s.seek offset).2 id) :=
  update_eq (·.seek offset) h

/-! ## Writing where a source stands -/

/-- Writes to the newest source where it stands. -/
def writeHere (older : Sources) (bytes : Bytes) : Source → Except SourceError Nat × Sources
  | .memory data writable cursor =>
    if writable then
      (.ok bytes.length,
        .memory (Device.written data cursor bytes) writable (cursor + bytes.length) :: older)
    else (.error .readOnly, .memory data writable cursor :: older)
  | .empty => (.error .readOnly, .empty :: older)
  | .proxy parent base length cursor =>
    if length - cursor < bytes.length then
      (.error (.store cursor bytes.length 0), .proxy parent base length cursor :: older)
    else
      match write older parent (some (wrapOffset (base + cursor))) bytes with
      | (.ok written, older) => (.ok written, .proxy parent base length (cursor + written) :: older)
      | (.error e, older) => (.error e, .proxy parent base length cursor :: older)
  | .device d => ((d.store bytes).1, .device (d.store bytes).2 :: older)

/-- A write to the newest source moves it first. -/
theorem write_cons (s : Source) (older : Sources) (target? : Option Nat) (bytes : Bytes) :
    write (s :: older) older.length target? bytes =
      match s.move target? with
      | (.error e, s) => (.error e, s :: older)
      | (.ok _, s) => writeHere older bytes s := by
  rw [write, if_pos rfl]
  generalize s.move target? = moved
  obtain ⟨e | k, t⟩ := moved
  · rfl
  · cases t <;> rfl

theorem write_older (hid : id ≠ older.length) (s : Source) (target? : Option Nat) (bytes : Bytes) :
    write (s :: older) id target? bytes =
      ((write older id target? bytes).1, s :: (write older id target? bytes).2) := by
  rw [write, if_neg hid]

theorem length_sources_write (sources : Sources) (id : Nat) (target? : Option Nat) (bytes : Bytes) :
    (sources.write id target? bytes).2.length = sources.length := by
  induction sources generalizing id target? with
  | nil => rfl
  | cons s older ih =>
    by_cases hid : id = older.length
    · subst hid
      rw [write_cons]
      generalize s.move target? = moved
      obtain ⟨e | k, t⟩ := moved
      · rfl
      · cases t with
        | memory => simp only [writeHere]; split <;> rfl
        | empty | device => rfl
        | proxy parent base length cursor =>
          have hparent := ih parent (some (wrapOffset (base + cursor)))
          simp only [writeHere]
          split
          · rfl
          · generalize write older parent _ bytes = run at hparent
            obtain ⟨_ | _, left⟩ := run <;> exact congrArg Nat.succ hparent
    · rw [write_older hid]
      exact congrArg Nat.succ (ih id target?)

/-! ## Bytes in memory -/

/-- A read of bytes in memory, at a target that they have. -/
theorem read_memory (h : sources.source? id = some (.memory data writable cursor))
    {target? : Option Nat} (htarget : ∀ k, target? = some k → k ≤ data.size) (amount : Nat) :
    sources.read id target? amount =
      if target?.getD cursor + amount ≤ data.size then
        (.ok ((data.toList.drop (target?.getD cursor)).take amount),
          sources.put (.memory data writable (target?.getD cursor + amount)) id)
      else
        (.error (.consume (target?.getD cursor) amount (data.size - target?.getD cursor)),
          sources.put (.memory data writable (target?.getD cursor)) id) := by
  induction sources with
  | nil => cases h
  | cons t older ih =>
    rw [source?_cons] at h
    split at h
    · rename_i hid
      subst hid
      cases h
      have hmove : ∃ previous, (Source.memory data writable cursor).move target? =
          (.ok previous, .memory data writable (target?.getD cursor)) := by
        cases target? with
        | none => exact ⟨0, rfl⟩
        | some k => exact ⟨cursor, if_neg (Nat.not_lt.2 (htarget k rfl))⟩
      obtain ⟨previous, hmove⟩ := hmove
      rw [read_cons, hmove, put, put, if_pos rfl, if_pos rfl]
      by_cases hroom : target?.getD cursor + amount ≤ data.size
      · simp only [readHere, slice, if_pos hroom, Array.toList_extract, List.extract_eq_take_drop,
          Nat.add_sub_cancel_left]
      · simp only [readHere, slice, if_neg hroom]
    · rename_i hid
      rw [read_older hid, put_older hid, put_older hid, ih h]
      split <;> rfl

/-- A write to bytes in memory, at a target that they have. -/
theorem write_memory (h : sources.source? id = some (.memory data true cursor))
    {target? : Option Nat} (htarget : ∀ k, target? = some k → k ≤ data.size) (bytes : Bytes) :
    sources.write id target? bytes =
      (.ok bytes.length, sources.put (.memory (Device.written data (target?.getD cursor) bytes) true
        (target?.getD cursor + bytes.length)) id) := by
  induction sources with
  | nil => cases h
  | cons t older ih =>
    rw [source?_cons] at h
    split at h
    · rename_i hid
      subst hid
      cases h
      rw [write_cons, put, if_pos rfl]
      cases target? with
      | none => rfl
      | some k => simp only [Source.move, Source.seek, if_neg (Nat.not_lt.2 (htarget k rfl)), writeHere,
          if_true, Option.getD_some]
    · rename_i hid
      rw [write_older hid, put_older hid, ih h]

/-! ## Windows -/

/-- A read of a window where it stands is a read of its parent. -/
theorem read_proxy (h : sources.source? id = some (.proxy parent base length cursor))
    (hparent : parent < id) (amount : Nat) :
    sources.read id none amount =
      if length - cursor < amount then
        (.error (.consume cursor amount (length - cursor)), sources)
      else
        match sources.read parent (some (wrapOffset (base + cursor))) amount with
        | (.ok bytes, left) =>
          (.ok bytes, left.put (.proxy parent base length (cursor + amount)) id)
        | (.error e, left) =>
          (.error (e.movedTo cursor), left.put (.proxy parent base length cursor) id) := by
  induction sources with
  | nil => cases h
  | cons t older ih =>
    rw [source?_cons] at h
    split at h
    · rename_i hid
      subst hid
      cases h
      rw [read_cons]
      simp only [Source.move, readHere]
      split
      · rfl
      · have hlength := length_sources_read older parent (some (wrapOffset (base + cursor))) amount
        rw [read_older (Nat.ne_of_lt hparent)]
        generalize read older parent _ amount = run at hlength
        obtain ⟨e | bytes, left⟩ := run
        · simp only [put, if_pos hlength.symm]
        · simp only [put, if_pos hlength.symm]
    · rename_i hid
      have hlt := lt_of_source? h
      have hne : parent ≠ older.length := by omega
      rw [read_older hid, ih h, read_older hne]
      have hlength := length_sources_read older parent (some (wrapOffset (base + cursor))) amount
      generalize read older parent _ amount = run at hlength
      obtain ⟨e | bytes, left⟩ := run
      · split
        · rfl
        · simp only [put, if_neg (hlength.symm ▸ hid : id ≠ left.length)]
      · split
        · rfl
        · simp only [put, if_neg (hlength.symm ▸ hid : id ≠ left.length)]

/-- A write to a window where it stands is a write to its parent. -/
theorem write_proxy (h : sources.source? id = some (.proxy parent base length cursor))
    (hparent : parent < id) (bytes : Bytes) :
    sources.write id none bytes =
      if length - cursor < bytes.length then (.error (.store cursor bytes.length 0), sources)
      else
        match sources.write parent (some (wrapOffset (base + cursor))) bytes with
        | (.ok written, left) =>
          (.ok written, left.put (.proxy parent base length (cursor + written)) id)
        | (.error e, left) => (.error e, left.put (.proxy parent base length cursor) id) := by
  induction sources with
  | nil => cases h
  | cons t older ih =>
    rw [source?_cons] at h
    split at h
    · rename_i hid
      subst hid
      cases h
      rw [write_cons]
      simp only [Source.move, writeHere]
      split
      · rfl
      · have hlength := length_sources_write older parent (some (wrapOffset (base + cursor))) bytes
        rw [write_older (Nat.ne_of_lt hparent)]
        generalize write older parent _ bytes = run at hlength
        obtain ⟨e | bytes, left⟩ := run
        · simp only [put, if_pos hlength.symm]
        · simp only [put, if_pos hlength.symm]
    · rename_i hid
      have hlt := lt_of_source? h
      have hne : parent ≠ older.length := by omega
      rw [write_older hid, ih h, write_older hne]
      have hlength := length_sources_write older parent (some (wrapOffset (base + cursor))) bytes
      generalize write older parent _ bytes = run at hlength
      obtain ⟨e | bytes, left⟩ := run
      · split
        · rfl
        · simp only [put, if_neg (hlength.symm ▸ hid : id ≠ left.length)]
      · split
        · rfl
        · simp only [put, if_neg (hlength.symm ▸ hid : id ≠ left.length)]

end

end Sources

end BinaryLayout
