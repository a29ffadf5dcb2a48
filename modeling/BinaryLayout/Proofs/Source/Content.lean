import BinaryLayout.Proofs.Locality.View

/-!
# What sources hold

Moving and reading a source, or any view of it, leaves what it holds as it is. A write to bytes in
memory, or to a window inside them, either is refused and then nothing changes, or it replaces the
bytes in its place and makes the source longer where it reaches past the end.

## Main definitions

* `Sources.rewound`: what the open sources hold, whatever was read from them.
* `View.rewound`: what a view shows, wherever it stands.
* `Sources.Maps`: a source in memory, or a window inside one.
* `Sources.Overwritten`: bytes were written to one place, and nothing else changed.

## Main statements

* `View.rewound_seek`, `View.rewound_consume`: reading changes no content.
* `Sources.Maps.store`: what a write to memory changes.
-/

namespace BinaryLayout

/-! ## Reading -/

namespace Source

/-- The source as it would be if nothing had been read. -/
def rewound : Source → Source
  | memory data writable _ => memory data writable 0
  | empty => empty
  | proxy parent base length _ => proxy parent base length 0
  | device d => device { d with cursor := 0, reads := 0 }

theorem rewound_seek (s : Source) (offset : Nat) : (s.seek offset).2.rewound = s.rewound := by
  cases s with
  | device d =>
    simp only [seek, Device.seek]
    repeat' split
    all_goals rfl
  | _ =>
    simp only [seek]
    split <;> rfl

theorem rewound_move (s : Source) (target? : Option Nat) :
    (s.move target?).2.rewound = s.rewound := by
  cases target? with
  | none => rfl
  | some offset => exact s.rewound_seek offset

theorem rewound_consume (d : Device) (amount : Nat) :
    (device (d.consume amount).2).rewound = (device d).rewound := by
  rw [Device.consume]
  generalize ({ d with reads := d.reads + 1 } : Device).next amount = next
  cases next <;> rfl

end Source

namespace Sources

/-- The sources as they would be if nothing had been read. -/
def rewound (sources : Sources) : Sources := sources.map Source.rewound

@[simp] theorem rewound_cons (s : Source) (older : Sources) :
    rewound (s :: older) = s.rewound :: older.rewound := rfl

theorem length_rewound (sources : Sources) : sources.rewound.length = sources.length :=
  List.length_map _

theorem source?_rewound (sources : Sources) (id : Nat) :
    sources.rewound.source? id = (sources.source? id).map Source.rewound := by
  rw [source?, source?, rewound, ← List.map_reverse, List.getElem?_map]

theorem rewound_update {α : Type} {change : Source → Except SourceError α × Source}
    (h : ∀ s, (change s).2.rewound = s.rewound) (sources : Sources) (id : Nat) :
    (sources.update change id).2.rewound = sources.rewound := by
  induction sources with
  | nil => rfl
  | cons s older ih =>
    rw [update]
    split
    · simp only [rewound_cons, h]
    · simp only [rewound_cons, ih]

theorem rewound_seek (sources : Sources) (id offset : Nat) :
    (sources.seek id offset).2.rewound = sources.rewound :=
  rewound_update (fun s => s.rewound_seek offset) sources id

theorem rewound_readHere (older : Sources) (amount : Nat) (s : Source)
    (ih : ∀ id target?, (read older id target? amount).2.rewound = older.rewound) :
    (readHere older amount s).2.rewound = s.rewound :: older.rewound := by
  cases s with
  | memory data writable cursor =>
    rw [readHere]
    split <;> rfl
  | empty =>
    rw [readHere]
    split <;> rfl
  | proxy parent base length cursor =>
    have hparent := ih parent (some (wrapOffset (base + cursor)))
    rw [readHere]
    split
    · rfl
    · generalize read older parent (some (wrapOffset (base + cursor))) amount = result at hparent
      obtain ⟨_ | _, left⟩ := result
      · exact congrArg (List.cons _) hparent
      · exact congrArg (List.cons _) hparent
  | device d => exact congrArg (List.cons · (rewound older)) (Source.rewound_consume d amount)

theorem rewound_read (sources : Sources) (id : Nat) (target? : Option Nat) (amount : Nat) :
    (sources.read id target? amount).2.rewound = sources.rewound := by
  induction sources generalizing id target? with
  | nil => rfl
  | cons s older ih =>
    by_cases hid : id = older.length
    · subst hid
      rw [read_cons]
      have hmove := s.rewound_move target?
      generalize s.move target? = moved at hmove
      obtain ⟨e | k, t⟩ := moved
      · exact congrArg (List.cons · (rewound older)) hmove
      · exact (rewound_readHere older amount t ih).trans (congrArg (List.cons · (rewound older)) hmove)
    · rw [read_older hid]
      exact congrArg (List.cons s.rewound) (ih id target?)

end Sources

/-- The view as it would be if nothing had been read. -/
def Reader.rewound : Reader → Reader
  | source id => source id
  | detached data origin _ => detached data origin 0
  | window inner limit _ => window inner.rewound limit 0

namespace View

/-- What the view shows, as if nothing had been read. -/
def rewound (v : View) : View := (v.1.rewound, v.2.rewound)

/-- Moving a view changes no content. -/
theorem rewound_seek (v : View) (offset : Nat) : (v.seek offset).2.rewound = v.rewound := by
  obtain ⟨r, sources⟩ := v
  induction r with
  | source id => exact Prod.ext rfl (sources.rewound_seek id offset)
  | detached data origin cursor =>
    rw [seek, Reader.seek]
    split <;> rfl
  | window inner limit cursor ih =>
    have hwindow : ∀ cursor' w, View.rewound w = View.rewound (inner, sources) →
        (window w limit cursor').rewound = rewound (.window inner limit cursor, sources) :=
      fun _ _ hw => Prod.ext (congrArg (Reader.window · limit 0) (congrArg Prod.fst hw))
        (congrArg Prod.snd hw :)
    have hstep := seek_window (inner, sources) limit cursor offset
    rw [window] at hstep
    rw [hstep]
    split
    · rfl
    · generalize View.seek (inner, sources) offset = moved at ih
      obtain ⟨_ | _, w⟩ := moved <;> exact hwindow _ w ih

/-- Reading a view changes no content. -/
theorem rewound_consume (v : View) (amount : Nat) : (v.consume amount).2.rewound = v.rewound := by
  obtain ⟨r, sources⟩ := v
  induction r with
  | source id => exact Prod.ext rfl (sources.rewound_read id none amount)
  | detached data origin cursor =>
    rw [consume, Reader.consume]
    split <;> rfl
  | window inner limit cursor ih =>
    have hwindow : ∀ cursor' w, View.rewound w = View.rewound (inner, sources) →
        (window w limit cursor').rewound = rewound (.window inner limit cursor, sources) :=
      fun _ _ hw => Prod.ext (congrArg (Reader.window · limit 0) (congrArg Prod.fst hw))
        (congrArg Prod.snd hw :)
    have hstep := consume_window (inner, sources) limit cursor amount
    rw [window] at hstep
    rw [hstep]
    split
    · rfl
    · generalize View.consume (inner, sources) amount = read at ih
      obtain ⟨_ | _, w⟩ := read <;> exact hwindow _ w ih

end View

/-! ## Writing -/

/-- Bytes that were written in the middle of others. -/
theorem Device.toList_written (data : Array UInt8) {place : Nat} (hplace : place ≤ data.size)
    (bytes : Bytes) : (written data place bytes).toList =
      data.toList.take place ++ bytes ++ data.toList.drop (place + bytes.length) := by
  have hrest : (data.toList.drop (place + bytes.length)).take (data.size - (place + bytes.length))
      = data.toList.drop (place + bytes.length) :=
    List.take_of_length_le (Nat.le_of_eq (by rw [List.length_drop, Array.length_toList]))
  rw [written, Nat.sub_eq_zero_of_le hplace]
  simp [hrest]

namespace Sources

/-- Source `id` is `home`, whose bytes are in memory, or a window inside it: it has `size` bytes, and
the first of them is the one of `home` at `base`. -/
inductive Maps (sources : Sources) (home : Nat) : Nat → Nat → Nat → Prop
  | memory {data : Array UInt8} {writable : Bool} {cursor : Nat}
    (h : sources.source? home = some (.memory data writable cursor)) :
    Maps sources home home 0 data.size
  | window {id parent base size start length cursor : Nat}
    (h : sources.source? id = some (.proxy parent start length cursor)) (holder : parent < id)
    (hparent : Maps sources home parent base size) (hinside : start + length ≤ size)
    (hword : start + length < pow2 64) : Maps sources home id (base + start) length

/-- The bytes stand at the offset `place` of source `home`, in place of those that stood there and
past the end if they reach so far. All other bytes, and all other sources, are as they were. -/
structure Overwritten (home place : Nat) (bytes : Bytes) (before after : Sources) : Prop where
  bytes : ∃ data data' writable, before.rewound.source? home = some (.memory data writable 0)
    ∧ after.rewound.source? home = some (.memory data' writable 0) ∧ place ≤ data.size
    ∧ data'.toList = data.toList.take place ++ bytes ++ data.toList.drop (place + bytes.length)
  others : ∀ id, id ≠ home → after.rewound.source? id = before.rewound.source? id
  length : after.length = before.length

section

variable {s s' : Source} {older older' sources : Sources} {home id base size place : Nat} {bytes : Bytes}

theorem lt_of_source? (h : sources.source? id = some s) : id < sources.length := by
  rw [source?] at h
  rw [← List.length_reverse]
  exact (List.getElem?_eq_some_iff.1 h).1

theorem Maps.lt (h : sources.Maps home id base size) : home ≤ id ∧ id < sources.length := by
  induction h with
  | memory h => exact ⟨Nat.le_refl _, lt_of_source? h⟩
  | window h holder _ _ _ ih => exact ⟨Nat.le_trans ih.1 (Nat.le_of_lt holder), lt_of_source? h⟩

/-- A newer source does not matter. -/
theorem Maps.of_cons (h : Maps (s :: older) home id base size) (hid : id < older.length) :
    older.Maps home id base size := by
  induction h with
  | memory h =>
    rw [source?_cons, if_neg (Nat.ne_of_lt hid)] at h
    exact .memory h
  | window h holder _ hinside hword ih =>
    rw [source?_cons, if_neg (Nat.ne_of_lt hid)] at h
    exact .window h holder (ih (Nat.lt_trans holder hid)) hinside hword

/-- A newer source does not matter. -/
theorem Overwritten.cons (h : Overwritten home place bytes older older') (hs : s'.rewound = s.rewound)
    (hhome : home < older.length) : Overwritten home place bytes (s :: older) (s' :: older') where
  bytes := by
    obtain ⟨data, data', writable, hbefore, hafter, hdata⟩ := h.bytes
    refine ⟨data, data', writable, ?_, ?_, hdata⟩
    · rw [rewound_cons, source?_cons, length_rewound, if_neg (Nat.ne_of_lt hhome), hbefore]
    · rw [rewound_cons, source?_cons, length_rewound, h.length, if_neg (Nat.ne_of_lt hhome), hafter]
  others id hid := by
    rw [rewound_cons, rewound_cons, source?_cons, source?_cons, length_rewound, length_rewound,
      h.length, hs, h.others id hid]
  length := congrArg Nat.succ h.length

/-- The newest source, if its bytes are in memory, written at an offset that it has. -/
theorem overwritten_newest {data : Array UInt8} (older : Sources) (writable : Bool)
    (cursor cursor' : Nat) (bytes : Bytes) (hplace : place ≤ data.size) :
    Overwritten older.length place bytes (.memory data writable cursor :: older)
      (.memory (Device.written data place bytes) writable cursor' :: older) where
  bytes := by
    refine ⟨data, Device.written data place bytes, writable, ?_, ?_, hplace, ?_⟩
    · rw [rewound_cons, source?_cons, length_rewound, if_pos rfl]
      rfl
    · rw [rewound_cons, source?_cons, length_rewound, if_pos rfl]
      rfl
    · exact Device.toList_written data hplace bytes
  others id hid := by
    rw [rewound_cons, rewound_cons, source?_cons, source?_cons, length_rewound, if_neg hid, if_neg hid]
  length := rfl

/-- What a write at the offset `k` of a source did: all bytes are written, or nothing is. -/
def Wrote (home place size k : Nat) (bytes : Bytes) (before : Sources) :
    Except SourceError Nat × Sources → Prop
  | (.ok written, after) =>
    written = bytes.length ∧ k ≤ size ∧ Overwritten home place bytes before after
  | (.error _, after) => after.rewound = before.rewound

/-- A write at an offset of bytes in memory, or of a window inside them. -/
theorem Maps.write (h : sources.Maps home id base size) (k : Nat) (bytes : Bytes) :
    Wrote home (base + k) size k bytes sources (sources.write id (some k) bytes) := by
  induction sources generalizing id base size k with
  | nil => exact absurd h.lt.2 (Nat.not_lt_zero id)
  | cons s older ih =>
    by_cases hid : id = older.length
    · subst hid
      rw [Sources.write, if_pos rfl]
      cases h with
      | memory h =>
        rw [source?_cons, if_pos rfl] at h
        cases h
        rename_i data writable cursor
        simp only [Source.move, Source.seek]
        by_cases hk : data.size < k
        · rw [if_pos hk]
          exact rfl
        · rw [if_neg hk]
          cases writable with
          | false => exact rfl
          | true =>
            rw [Nat.zero_add]
            exact ⟨rfl, Nat.le_of_not_lt hk, overwritten_newest older true cursor _ bytes (Nat.le_of_not_lt hk)⟩
      | window h holder hparent hinside hword =>
        rw [source?_cons, if_pos rfl] at h
        cases h
        rename_i parent base' size' start cursor
        simp only [Source.move, Source.seek]
        by_cases hk : size < k
        · rw [if_pos hk]
          exact rfl
        · rw [if_neg hk]
          dsimp only
          by_cases hroom : size - k < bytes.length
          · rw [if_pos hroom]
            exact rfl
          · have hold := hparent.of_cons holder
            have hwrite := ih hold (start + k)
            have hplace : wrapOffset (start + k) = start + k := Nat.mod_eq_of_lt (by omega)
            rw [if_neg hroom, hplace]
            generalize Sources.write older parent (some (start + k)) bytes = run at hwrite
            obtain ⟨e | written, after⟩ := run
            · exact congrArg (List.cons _) hwrite
            · refine ⟨hwrite.1, Nat.le_of_not_lt hk, ?_⟩
              rw [Nat.add_assoc]
              exact hwrite.2.2.cons rfl (Nat.lt_of_le_of_lt hold.lt.1 hold.lt.2)
    · have hlt : id < older.length := by
        have := h.lt.2
        rw [List.length_cons] at this
        omega
      have hold := h.of_cons hlt
      have hwrite := ih hold k
      rw [Sources.write, if_neg hid]
      generalize Sources.write older id (some k) bytes = run at hwrite
      obtain ⟨e | written, after⟩ := run
      · exact congrArg (List.cons _) hwrite
      · exact ⟨hwrite.1, hwrite.2.1, hwrite.2.2.cons rfl (Nat.lt_of_le_of_lt hold.lt.1 hold.lt.2)⟩

/-- A write where a source was moved to. -/
theorem write_moved {k previous : Nat} (h : (sources.seek id k).1 = .ok previous) (bytes : Bytes) :
    (sources.seek id k).2.store id bytes = sources.write id (some k) bytes := by
  induction sources with
  | nil => cases h
  | cons s older ih =>
    rw [store]
    by_cases hid : id = older.length
    · subst hid
      rw [seek, update, if_pos rfl] at h ⊢
      dsimp only at h ⊢
      rw [write, write, if_pos rfl, if_pos rfl]
      simp only [Source.move]
      generalize s.seek k = moved at h
      obtain ⟨e | _, t⟩ := moved
      · cases h
      · cases t <;> rfl
    · rw [seek, update, if_neg hid] at h ⊢
      have hlength : id ≠ (update (·.seek k) older id).2.length := by
        rwa [length_sources_update]
      dsimp only at h ⊢
      rw [write, write, if_neg hlength, if_neg hid]
      exact congrArg (fun run => (run.1, s :: run.2)) (ih h)

end

end Sources

end BinaryLayout
