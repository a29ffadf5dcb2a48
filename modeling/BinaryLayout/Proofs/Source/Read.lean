import BinaryLayout.Source.Reader

/-!
# Reads

A read that succeeds gives as many bytes as were asked for. One that fails leaves the source where
it would fail again, however many sources are windows of each other; so what ran out of bytes once
has no bytes later.

## Main definitions

* `Sources.readHere`: a read of a source where it stands.

## Main statements

* `Reader.length_consume`: how many bytes a read gives.
* `Reader.consume_again`: a read that failed fails again.
-/

namespace BinaryLayout

namespace Device

theorem length_next {d : Device} {amount : Nat} {bytes : Bytes} (h : d.next amount = .ok bytes) :
    bytes.length = amount := by
  rw [next] at h
  repeat' split at h
  all_goals cases h
  · rw [List.length_nil]
    omega
  · rw [List.length_map, List.length_range]
  · simp only [Array.length_toList, Array.size_extract]
    omega

theorem length_consume {d d' : Device} {amount : Nat} {bytes : Bytes}
    (h : d.consume amount = (.ok bytes, d')) : bytes.length = amount := by
  rw [consume] at h
  cases hnext : ({ d with reads := d.reads + 1 } : Device).next amount with
  | error e => simp [hnext] at h
  | ok read =>
    simp only [hnext, Prod.mk.injEq, Except.ok.injEq] at h
    rw [← h.1]
    exact length_next hnext

/-- How many reads were served does not matter. -/
theorem seek_reads (d : Device) (reads offset : Nat) :
    ({ d with reads } : Device).seek offset =
      ((d.seek offset).1, { (d.seek offset).2 with reads }) := by
  simp only [seek]
  repeat' split
  all_goals rfl

end Device

namespace Sources

theorem length_slice {data : Array UInt8} {offset amount cursor : Nat} {bytes : Bytes}
    (h : slice data offset amount cursor = .ok bytes) : bytes.length = amount := by
  rw [slice] at h
  split at h
  · cases h
    simp only [Array.length_toList, Array.size_extract]
    omega
  · cases h

/-- Reads `amount` bytes of the newest source where it stands. -/
def readHere (older : Sources) (amount : Nat) : Source → Except SourceError Bytes × Sources
  | .memory data writable cursor =>
    match slice data cursor amount cursor with
    | .ok bytes => (.ok bytes, .memory data writable (cursor + amount) :: older)
    | .error e => (.error e, .memory data writable cursor :: older)
  | .empty =>
    if amount = 0 then (.ok [], .empty :: older) else (.error (.consume 0 amount 0), .empty :: older)
  | .proxy parent base length cursor =>
    if length - cursor < amount then
      (.error (.consume cursor amount (length - cursor)),
        .proxy parent base length cursor :: older)
    else
      match read older parent (some (wrapOffset (base + cursor))) amount with
      | (.ok bytes, older) => (.ok bytes, .proxy parent base length (cursor + amount) :: older)
      | (.error e, older) => (.error (e.movedTo cursor), .proxy parent base length cursor :: older)
  | .device d => ((d.consume amount).1, .device (d.consume amount).2 :: older)

/-- A read of the newest source moves it first. -/
theorem read_cons (s : Source) (older : Sources) (target? : Option Nat) (amount : Nat) :
    read (s :: older) older.length target? amount =
      match s.move target? with
      | (.error e, s) => (.error e, s :: older)
      | (.ok _, s) => readHere older amount s := by
  rw [read, if_pos rfl]
  generalize s.move target? = moved
  obtain ⟨e | k, t⟩ := moved
  · rfl
  · cases t <;> rfl

theorem read_older {older : Sources} {id : Nat} (h : id ≠ older.length) (s : Source)
    (target? : Option Nat) (amount : Nat) :
    read (s :: older) id target? amount =
      ((read older id target? amount).1, s :: (read older id target? amount).2) := by
  rw [read, if_neg h]

/-- A read gives as many bytes as were asked for. -/
theorem length_read {sources sources' : Sources} {id : Nat} {target? : Option Nat} {amount : Nat}
    {bytes : Bytes} (h : sources.read id target? amount = (.ok bytes, sources')) :
    bytes.length = amount := by
  induction sources generalizing id target? sources' bytes with
  | nil => cases h
  | cons s older ih =>
    by_cases hid : id = older.length
    · subst hid
      rw [read_cons] at h
      generalize s.move target? = moved at h
      obtain ⟨e | k, t⟩ := moved
      · cases h
      · cases t with
        | memory data writable cursor =>
          simp only [readHere] at h
          split at h
          · cases h
            exact length_slice ‹_›
          · cases h
        | empty =>
          simp only [readHere] at h
          split at h
          · cases h
            exact ‹amount = 0›.symm
          · cases h
        | proxy parent base length cursor =>
          simp only [readHere] at h
          split at h
          · cases h
          · split at h
            · cases h
              exact ih ‹_›
            · cases h
        | device d =>
          simp only [readHere, Prod.mk.injEq] at h
          exact Device.length_consume (Prod.ext h.1 rfl)
    · rw [read_older hid] at h
      simp only [Prod.mk.injEq] at h
      exact ih (Prod.ext h.1 rfl)

end Sources

/-! ## Failing again -/

namespace Source

/-- A source that was moved can be moved there again, and then it stands as it does. -/
theorem move_again {s t : Source} {target? : Option Nat} {k : Nat}
    (h : s.move target? = (.ok k, t)) : ∃ k', t.move target? = (.ok k', t) := by
  cases target? with
  | none =>
    cases h
    exact ⟨0, rfl⟩
  | some offset =>
    cases s with
    | memory data writable cursor =>
      simp only [move, seek] at h
      split at h
      · cases h
      · cases h
        exact ⟨offset, by simp only [move, seek, if_neg ‹_›]⟩
    | empty =>
      simp only [move, seek] at h
      split at h
      · cases h
      · cases h
        exact ⟨0, by simp only [move, seek, if_neg ‹_›]⟩
    | proxy parent base length cursor =>
      simp only [move, seek] at h
      split at h
      · cases h
      · cases h
        exact ⟨offset, by simp only [move, seek, if_neg ‹_›]⟩
    | device d =>
      simp only [move, seek, Device.seek] at h
      split at h
      · cases h
      · split at h
        · cases h
        · rename_i hfault hbound
          cases h
          exact ⟨offset, by simp only [move, seek, Device.seek, if_neg hfault, if_neg hbound]⟩

/-- A source that could not be moved is left alone. -/
theorem move_error {s t : Source} {target? : Option Nat} {e : SourceError}
    (h : s.move target? = (.error e, t)) : t = s := by
  cases target? with
  | none => cases h
  | some offset =>
    cases s with
    | memory | empty | proxy =>
      simp only [move, seek] at h
      split at h
      · cases h
        rfl
      · cases h
    | device d =>
      simp only [move, seek, Device.seek] at h
      repeat' split at h
      all_goals cases h
      all_goals rfl

end Source

namespace Sources

/-- A read opens and closes no source. -/
theorem length_sources_read (sources : Sources) (id : Nat) (target? : Option Nat) (amount : Nat) :
    (sources.read id target? amount).2.length = sources.length := by
  induction sources generalizing id target? with
  | nil => rfl
  | cons s older ih =>
    by_cases hid : id = older.length
    · subst hid
      rw [read_cons]
      generalize s.move target? = moved
      obtain ⟨e | k, t⟩ := moved
      · rfl
      · cases t with
        | memory | empty | device =>
          simp only [readHere]
          repeat' split
          all_goals rfl
        | proxy parent base length cursor =>
          have hparent := ih parent (some (wrapOffset (base + cursor)))
          simp only [readHere]
          split
          · rfl
          · generalize read older parent (some (wrapOffset (base + cursor))) amount = inner at hparent
            obtain ⟨e | bytes, older'⟩ := inner <;> simpa using hparent
    · rw [read_older hid, List.length_cons, ih, List.length_cons]

/-- A source that fails to be read where it stands would fail there again. -/
theorem readHere_again {older sources' : Sources} {amount : Nat} {t : Source} {e : SourceError}
    (hparent : ∀ parent target? e older', read older parent target? amount = (.error e, older') →
      ∃ e', (read older' parent target? amount).1 = .error e')
    (h : readHere older amount t = (.error e, sources')) :
    ∃ t' older' e', sources' = t' :: older' ∧ older'.length = older.length
      ∧ (∀ target? k, t.move target? = (.ok k, t) → ∃ k', t'.move target? = (.ok k', t'))
      ∧ (readHere older' amount t').1 = .error e' := by
  cases t with
  | memory data writable cursor =>
    have hagain := h
    simp only [readHere] at h
    split at h
    · cases h
    · cases h
      exact ⟨_, _, e, rfl, rfl, fun _ k hmove => ⟨k, hmove⟩, by rw [hagain]⟩
  | empty =>
    have hagain := h
    simp only [readHere] at h
    split at h
    · cases h
    · cases h
      exact ⟨_, _, _, rfl, rfl, fun _ k hmove => ⟨k, hmove⟩, by rw [hagain]⟩
  | proxy parent base length cursor =>
    have hagain := h
    simp only [readHere] at h
    split at h
    · cases h
      exact ⟨_, _, _, rfl, rfl, fun _ k hmove => ⟨k, hmove⟩, by rw [hagain]⟩
    · rename_i hroom
      cases hread : read older parent (some (wrapOffset (base + cursor))) amount with
      | mk result older' =>
        rw [hread] at h
        have hlength := length_sources_read older parent (some (wrapOffset (base + cursor))) amount
        rw [hread] at hlength
        cases result with
        | ok bytes => cases h
        | error e =>
          cases h
          obtain ⟨e', he'⟩ := hparent _ _ _ _ hread
          refine ⟨_, older', e'.movedTo cursor, rfl, hlength, fun _ k hmove => ⟨k, hmove⟩, ?_⟩
          simp only [readHere, if_neg hroom]
          generalize read older' parent (some (wrapOffset (base + cursor))) amount = inner at he'
          obtain ⟨_, _⟩ := inner
          cases he'
          rfl
  | device d =>
    simp only [readHere, Prod.mk.injEq] at h
    obtain ⟨he, rfl⟩ := h
    have hstep : d.consume amount = (.error e, { d with reads := d.reads + 1 })
        ∧ d.next amount = .error e := by
      have hnext : ({ d with reads := d.reads + 1 } : Device).next amount = d.next amount := rfl
      rw [Device.consume, hnext] at he ⊢
      cases hd : d.next amount with
      | ok bytes =>
        rw [hd] at he
        cases he
      | error e' =>
        rw [hd] at he
        cases he
        exact ⟨rfl, rfl⟩
    refine ⟨_, _, e, rfl, rfl, fun target? k hmove => ?_, ?_⟩
    · rw [hstep.1]
      cases target? with
      | none => exact ⟨0, rfl⟩
      | some offset =>
        simp only [Source.move, Source.seek, Prod.mk.injEq, Source.device.injEq] at hmove
        simp only [Source.move, Source.seek, Device.seek_reads, hmove]
        exact ⟨k, rfl⟩
    · rw [hstep.1]
      have hnext : ({ d with reads := d.reads + 1 + 1 } : Device).next amount = d.next amount := rfl
      simp only [readHere, Device.consume, hnext, hstep.2]

/-- A read that failed fails again. -/
theorem read_again {sources sources' : Sources} {id : Nat} {target? : Option Nat} {amount : Nat}
    {e : SourceError} (h : sources.read id target? amount = (.error e, sources')) :
    ∃ e', (sources'.read id target? amount).1 = .error e' := by
  induction sources generalizing id target? sources' e with
  | nil =>
    cases h
    exact ⟨notOpen, rfl⟩
  | cons s older ih =>
    by_cases hid : id = older.length
    · subst hid
      rw [read_cons] at h
      cases hmove : s.move target? with
      | mk result t =>
        rw [hmove] at h
        cases result with
        | error e' =>
          cases h
          obtain rfl := Source.move_error hmove
          exact ⟨e, by rw [read_cons, hmove]⟩
        | ok k =>
          obtain ⟨k', hmoved⟩ := Source.move_again hmove
          obtain ⟨t', older', e', rfl, hlength, hback, he'⟩ :=
            readHere_again (fun _ _ _ _ h => ih h) h
          obtain ⟨k'', hagain⟩ := hback _ _ hmoved
          refine ⟨e', ?_⟩
          rw [← hlength, read_cons, hagain]
          exact he'
    · rw [read_older hid] at h
      simp only [Prod.mk.injEq] at h
      obtain ⟨he, rfl⟩ := h
      obtain ⟨e', he'⟩ := ih (Prod.ext he rfl)
      have hid' : id ≠ (read older id target? amount).2.length := by
        rw [length_sources_read]
        exact hid
      refine ⟨e', ?_⟩
      rw [read_older hid']
      exact he'

end Sources

namespace Reader

/-- A read gives as many bytes as were asked for. -/
theorem length_consume {r r' : Reader} {sources sources' : Sources} {amount : Nat} {bytes : Bytes}
    (h : r.consume sources amount = (.ok bytes, r', sources')) : bytes.length = amount := by
  induction r generalizing r' sources' with
  | source id =>
    simp only [consume, Prod.mk.injEq] at h
    exact Sources.length_read (Prod.ext h.1 rfl)
  | detached data origin cursor =>
    simp only [consume] at h
    split at h
    · cases h
      exact Sources.length_slice ‹_›
    · cases h
  | window inner limit cursor ih =>
    simp only [consume] at h
    split at h
    · cases h
    · split at h
      · cases h
        exact ih ‹_›
      · cases h

/-- A read that failed fails again. -/
theorem consume_again {r r' : Reader} {sources sources' : Sources} {amount : Nat} {e : SourceError}
    (h : r.consume sources amount = (.error e, r', sources')) :
    ∃ e', (r'.consume sources' amount).1 = .error e' := by
  induction r generalizing r' sources' e with
  | source id =>
    simp only [consume, Prod.mk.injEq] at h
    obtain ⟨he, rfl, rfl⟩ := h
    exact Sources.read_again (Prod.ext he rfl)
  | detached data origin cursor =>
    have hagain := h
    simp only [consume] at h
    split at h
    · cases h
    · cases h
      exact ⟨e, by rw [hagain]⟩
  | window inner limit cursor ih =>
    have hagain := h
    simp only [consume] at h
    split at h
    · cases h
      exact ⟨_, by rw [hagain]⟩
    · rename_i hroom
      split at h
      · cases h
      · rename_i e' inner' sources'' hinner
        cases h
        obtain ⟨e'', he''⟩ := ih hinner
        refine ⟨e'', ?_⟩
        simp only [consume, if_neg hroom]
        generalize inner'.consume sources' amount = again at he''
        obtain ⟨_, _, _⟩ := again
        cases he''
        rfl

end Reader

end BinaryLayout
