import BinaryLayout.Proofs.Source.Read

/-!
# Views of bytes in memory

A view of an open source that holds bytes in memory shows those bytes at their offsets, however many
windows narrow it, and so do detached bytes that were taken from them. Seeking and reading keep this,
also when they fail, and what is read where a view stands is a stretch of the bytes.

## Main definitions

* `Reader.Shows`: a view of given bytes.
* `Reader.Stands`: the offset of the next byte that a view gives.

## Main statements

* `Reader.shows_seek`, `Reader.shows_consume`: a view goes on showing the same bytes.
* `Reader.prefix_of_consume`: what is read.
-/

namespace BinaryLayout

/-- What follows a stretch of a list, after that stretch. -/
theorem prefix_append_drop {α : Type} {first next l : List α} {offset : Nat}
    (hfirst : first <+: l.drop offset) (hnext : next <+: l.drop (offset + first.length)) :
    first ++ next <+: l.drop offset := by
  obtain ⟨rest, hrest⟩ := hfirst
  rw [← List.drop_drop, ← hrest, List.drop_left] at hnext
  rw [← hrest]
  exact (List.prefix_append_right_inj first).2 hnext

namespace Sources

theorem source?_cons (s : Source) (older : Sources) (id : Nat) :
    source? (s :: older) id = if id = older.length then some s else source? older id := by
  rw [source?, source?, List.reverse_cons]
  split
  · rename_i h
    rw [h, ← List.length_reverse, List.getElem?_concat_length]
  · rename_i h
    by_cases hlt : id < older.length
    · rw [List.getElem?_append_left (by rwa [List.length_reverse])]
    · have hold : older.reverse.length < id := by
        rw [List.length_reverse]
        omega
      rw [List.getElem?_eq_none (by rw [List.length_append, List.length_singleton]; omega),
        List.getElem?_eq_none (Nat.le_of_lt hold)]

theorem length_sources_update {α : Type} (change : Source → Except SourceError α × Source)
    (sources : Sources) (id : Nat) : (sources.update change id).2.length = sources.length := by
  induction sources with
  | nil => rfl
  | cons s older ih =>
    rw [update]
    split
    · rfl
    · rw [List.length_cons, List.length_cons, ih]

/-- A change of a source gives the result that it has for that source alone. -/
theorem update_source {α : Type} (change : Source → Except SourceError α × Source)
    {sources : Sources} {id : Nat} {s : Source} (h : sources.source? id = some s) :
    (sources.update change id).1 = (change s).1
      ∧ (sources.update change id).2.source? id = some (change s).2 := by
  induction sources with
  | nil => cases h
  | cons t older ih =>
    rw [source?_cons] at h
    rw [update]
    split at h
    · rename_i hid
      cases h
      rw [if_pos hid]
      exact ⟨rfl, by rw [source?_cons, if_pos hid]⟩
    · rename_i hid
      obtain ⟨hresult, hleft⟩ := ih h
      rw [if_neg hid]
      refine ⟨hresult, ?_⟩
      rw [source?_cons, length_sources_update, if_neg hid, hleft]

theorem seek_source {sources : Sources} {id : Nat} {s : Source} (offset : Nat)
    (h : sources.source? id = some s) :
    (sources.seek id offset).1 = (s.seek offset).1
      ∧ (sources.seek id offset).2.source? id = some (s.seek offset).2 :=
  update_source (·.seek offset) h

/-- A read of bytes in memory where their source stands. -/
theorem consume_memory {sources : Sources} {id : Nat} {data : Array UInt8} {writable : Bool}
    {cursor : Nat} (amount : Nat) (h : sources.source? id = some (.memory data writable cursor)) :
    (sources.consume id amount).1 = slice data cursor amount cursor
      ∧ (sources.consume id amount).2.source? id = some (.memory data writable
          (if (slice data cursor amount cursor).isOk then cursor + amount else cursor)) := by
  rw [consume]
  induction sources with
  | nil => cases h
  | cons t older ih =>
    rw [source?_cons] at h
    split at h
    · rename_i hid
      subst hid
      cases h
      rw [read_cons]
      simp only [Source.move, readHere]
      split <;> rename_i hslice <;> rw [source?_cons] <;> simp [hslice, Except.isOk, Except.toBool]
    · rename_i hid
      obtain ⟨hresult, hleft⟩ := ih h
      rw [read_older hid]
      refine ⟨hresult, ?_⟩
      rw [source?_cons, length_sources_read, if_neg hid, hleft]

theorem prefix_of_slice {data : Array UInt8} {offset amount cursor : Nat} {bytes : Bytes}
    (h : slice data offset amount cursor = .ok bytes) : bytes <+: data.toList.drop offset := by
  rw [slice] at h
  split at h
  · cases h
    rw [Array.toList_extract, List.extract_eq_take_drop]
    exact List.take_prefix _ _
  · cases h

end Sources

namespace Reader

/-- The view shows stretches of `data`, each at its own offset. -/
def Shows (data : Bytes) (sources : Sources) : Reader → Prop
  | .source id => ∃ writable cursor, sources.source? id = some (.memory data.toArray writable cursor)
  | .detached held origin _ => held.toList <+: data.drop origin
  | .window inner _ _ => inner.Shows data sources

/-- The next byte that the view gives is the one at `offset`. -/
def Stands (offset : Nat) (sources : Sources) : Reader → Prop
  | .source id => ∃ data writable, sources.source? id = some (.memory data writable offset)
  | .detached _ origin cursor => cursor = offset ∧ origin ≤ offset
  | .window inner _ _ => inner.Stands offset sources

variable {r : Reader} {sources : Sources} {data : Bytes}

/-- A view that is moved shows the same bytes, and stands where it was moved. -/
theorem shows_seek (offset : Nat) (h : r.Shows data sources) :
    (r.seek sources offset).2.1.Shows data (r.seek sources offset).2.2
      ∧ ∀ k, (r.seek sources offset).1 = .ok k →
        (r.seek sources offset).2.1.Stands offset (r.seek sources offset).2.2 := by
  induction r with
  | source id =>
    obtain ⟨writable, cursor, hmemory⟩ := h
    obtain ⟨hresult, hleft⟩ := Sources.seek_source offset hmemory
    rw [seek]
    by_cases hbound : data.toArray.size < offset
    · rw [Source.seek, if_pos hbound] at hresult hleft
      refine ⟨⟨writable, cursor, hleft⟩, fun k hk => ?_⟩
      cases hresult.symm.trans hk
    · rw [Source.seek, if_neg hbound] at hleft
      exact ⟨⟨writable, offset, hleft⟩, fun _ _ => ⟨_, writable, hleft⟩⟩
  | detached held origin cursor =>
    rw [seek]
    split
    · exact ⟨h, fun k hk => by cases hk⟩
    · exact ⟨h, fun _ _ => ⟨rfl, by omega⟩⟩
  | window inner limit cursor ih =>
    obtain ⟨hshows, hstands⟩ := ih h
    rw [seek]
    split
    · exact ⟨h, fun k hk => by cases hk⟩
    · generalize inner.seek sources offset = moved at hshows hstands
      obtain ⟨e | k, inner', sources'⟩ := moved
      · exact ⟨hshows, fun k hk => by cases hk⟩
      · exact ⟨hshows, fun _ _ => hstands k rfl⟩

/-- A view that is read shows the same bytes. -/
theorem shows_consume (amount : Nat) (h : r.Shows data sources) :
    (r.consume sources amount).2.1.Shows data (r.consume sources amount).2.2 := by
  induction r with
  | source id =>
    obtain ⟨writable, cursor, hmemory⟩ := h
    obtain ⟨-, hleft⟩ := Sources.consume_memory amount hmemory
    exact ⟨writable, _, hleft⟩
  | detached held origin cursor =>
    rw [consume]
    split <;> exact h
  | window inner limit cursor ih =>
    have hshows := ih h
    rw [consume]
    split
    · exact h
    · generalize inner.consume sources amount = read at hshows
      obtain ⟨e | bytes, inner', sources'⟩ := read <;> exact hshows

/-- What is read is a stretch of the bytes shown, from where the view stands on. -/
theorem prefix_of_consume {r' : Reader} {sources' : Sources} {offset amount : Nat} {bytes : Bytes}
    (h : r.Shows data sources) (hoffset : r.Stands offset sources)
    (hread : r.consume sources amount = (.ok bytes, r', sources')) :
    bytes <+: data.drop offset ∧ r'.Stands (offset + amount) sources' := by
  induction r generalizing r' sources' with
  | source id =>
    obtain ⟨held, writable, hmemory⟩ := hoffset
    obtain ⟨_, _, hdata⟩ := h
    rw [hmemory] at hdata
    cases hdata
    obtain ⟨hresult, hleft⟩ := Sources.consume_memory amount hmemory
    simp only [consume, Prod.mk.injEq] at hread
    obtain ⟨hbytes, rfl, rfl⟩ := hread
    rw [hresult] at hbytes
    rw [hbytes] at hleft
    exact ⟨Sources.prefix_of_slice hbytes, _, writable, hleft⟩
  | detached held origin cursor =>
    obtain ⟨rfl, horigin⟩ := hoffset
    rw [consume] at hread
    split at hread
    · rename_i hslice
      cases hread
      obtain ⟨rest, hrest⟩ := h
      have hheld : held.toList.drop (cursor - origin) <+: data.drop cursor := by
        rw [← Nat.add_sub_cancel' horigin, ← List.drop_drop, ← hrest, Nat.add_sub_cancel_left,
          List.drop_append]
        exact List.prefix_append _ _
      exact ⟨(Sources.prefix_of_slice hslice).trans hheld, rfl, by omega⟩
    · cases hread
  | window inner limit cursor ih =>
    rw [consume] at hread
    split at hread
    · cases hread
    · split at hread
      · rename_i hinner
        cases hread
        have hdone := ih h hoffset hinner
        exact hdone
      · cases hread

end Reader

end BinaryLayout
