import BinaryLayout.Proofs.Placement.Load
import BinaryLayout.Proofs.Source.View

/-!
# Reading what a view shows

A computation that loads from a view of some bytes leaves a view of the same bytes, whether it fails
or not. So what can be said of each of its reads does not depend on what was read before it.

## Main definitions

* `Reads`: what a computation makes of any view of given bytes.
* `Copies`: bytes that were read are those shown at an offset.

## Main statements

* `LoadM.reads_readAt`, `LoadM.reads_readLeaf`: reads at an offset.
* `Reads.inWindow`: reads through a window.
-/

namespace BinaryLayout

variable {κ α β : Type}

/-- The view that atoms are loaded from shows `data`. -/
def LoadState.Shows (data : Bytes) (s : LoadState κ) : Prop := s.reader.Shows data s.sources

/-- The next byte of the view is the one at `offset`. -/
def LoadState.Stands (offset : Nat) (s : LoadState κ) : Prop := s.reader.Stands offset s.sources

/-- The computation, run on a view of `data`, leaves a view of `data` and gives a result that
satisfies `post`. -/
def Reads (data : Bytes) (m : LoadM κ α) (post : α → Prop) : Prop :=
  ∀ s, s.Shows data → Ends m s fun a t => t.Shows data ∧ post a

/-- Bytes that were read stand at `offset` in the data. -/
def Copies (data : Bytes) (offset : Nat) (result : Except Error Bytes) : Prop :=
  ∀ bytes, result = .ok bytes → bytes <+: data.drop offset

/-- A window shows what the view that it narrows shows. -/
theorem Reader.shows_innermost {data : Bytes} {sources : Sources} {r : Reader}
    (h : r.Shows data sources) : (LoadM.innermost r).Shows data sources := by
  cases r <;> exact h

namespace Reads

variable {data : Bytes}

theorem pure {post : α → Prop} {a : α} (h : post a) :
    Reads data (Pure.pure a : LoadM κ α) post :=
  fun _ hs => ⟨hs, h⟩

/-- One computation after another. -/
theorem bind {m : LoadM κ α} {f : α → LoadM κ β} {mid : α → Prop} {post : β → Prop}
    (hm : Reads data m mid) (hf : ∀ a, mid a → Reads data (f a) post) : Reads data (m >>= f) post :=
  fun s hs => (hm s hs).bind fun a t ht => hf a ht.2 t ht.1

/-- What holds of any run holds of one on a view of the data. -/
theorem andEnds {m : LoadM κ α} {p q : α → Prop} (hm : Reads data m p)
    (h : ∀ s, Ends m s fun a _ => q a) : Reads data m fun a => p a ∧ q a :=
  fun s hs => ⟨(hm s hs).1, (hm s hs).2, h s⟩

/-- A computation on handles alone. -/
theorem ofLedger {m : LedgerM κ α} {post : α → Prop} (h : ∀ l, Ends m l fun a _ => post a) :
    Reads data (LoadM.ofLedger m) post :=
  fun s hs => ⟨hs, h s.ledger⟩

/-- A computation on handles alone, whatever it gives. -/
theorem ofLedger_trivial (m : LedgerM κ α) : Reads data (LoadM.ofLedger m) fun _ => True :=
  ofLedger fun _ => True.intro

/-- How far the view goes is only looked at. -/
theorem viewEnd : Reads data (LoadM.viewEnd : LoadM κ (Option Nat)) fun _ => True :=
  fun _ hs => ⟨hs, True.intro⟩

/-- What is read through a window is read from the view that the window narrows. -/
theorem inWindow {m : LoadM κ α} {post : α → Prop} (hm : Reads data m post) (limit : Nat) :
    Reads data (LoadM.inWindow limit m) post := by
  intro s hs
  obtain ⟨hshows, hpost⟩ := hm { s with reader := .window s.reader limit 0 } hs
  exact ⟨Reader.shows_innermost hshows, hpost⟩

end Reads

/-! ## Reading bytes -/

namespace LoadM

variable {data : Bytes}

/-- A move, which leaves the view at the offset if it succeeds. -/
theorem shows_seekTo (offset amount : Nat) {s : LoadState κ} (hs : s.Shows data) :
    Ends (seekTo offset amount) s fun result t =>
      t.Shows data ∧ (result = .ok () → t.Stands offset) := by
  obtain ⟨hshows, hstands⟩ := Reader.shows_seek offset hs
  refine ⟨hshows, fun hok => ?_⟩
  cases hseek : (s.reader.seek s.sources offset).1 with
  | ok k => exact hstands k hseek
  | error e =>
    simp only [seekTo, modifyGet, MonadStateOf.modifyGet, StateT.modifyGet, Pure.pure, hseek] at hok
    cases e <;> cases hok

/-- What is read where the view stands. -/
theorem shows_next {offset : Nat} (amount : Nat) {s : LoadState κ} (hs : s.Shows data)
    (hoffset : s.Stands offset) :
    Ends (next amount) s fun result t =>
      t.Shows data ∧ ∀ bytes, result = .ok bytes →
        bytes.length = amount ∧ bytes <+: data.drop offset ∧ t.Stands (offset + amount) := by
  refine ⟨Reader.shows_consume amount hs, fun bytes hbytes => ?_⟩
  have hread : s.reader.consume s.sources amount = (.ok bytes, (s.reader.consume s.sources amount).2) :=
    Prod.ext hbytes rfl
  exact ⟨Reader.length_consume hread, Reader.prefix_of_consume hs hoffset hread⟩

/-- A read at an offset. -/
theorem reads_readAt (offset amount : Nat) :
    Reads data (readAt offset amount : LoadM κ (Except Error Bytes)) (Copies data offset) := by
  intro s hs
  rw [readAt]
  split
  · exact Ends.pure ⟨hs, fun bytes h => by cases h; exact List.nil_prefix⟩
  · refine (shows_seekTo offset amount hs).bind fun result t ht => ?_
    obtain ⟨hshows, hstands⟩ := ht
    split
    · exact Ends.pure ⟨hshows, fun _ h => by cases h⟩
    · refine (shows_next amount hshows (hstands rfl)).bind fun result u hu => ?_
      refine Ends.pure ⟨hu.1, fun bytes h => ?_⟩
      cases result with
      | error e => cases h
      | ok held =>
        cases h
        exact (hu.2 bytes rfl).2.1

theorem shows_readGroups (budget : Nat) {start : Nat} {read : Bytes} {s : LoadState κ}
    (hs : s.Shows data) (hread : read <+: data.drop start) (hoffset : s.Stands (start + read.length)) :
    Ends (readGroups budget read) s fun result t => t.Shows data ∧ Copies data start result := by
  induction budget generalizing read s with
  | zero => exact Ends.pure ⟨hs, fun _ h => by cases h⟩
  | succ budget ih =>
    rw [readGroups]
    refine (shows_next 1 hs hoffset).bind fun result t ht => ?_
    split
    · exact Ends.pure ⟨ht.1, fun _ h => by cases h⟩
    · rename_i bytes
      obtain ⟨hlength, hnext, hstands⟩ := ht.2 bytes rfl
      have hmore := prefix_append_drop hread hnext
      split
      · refine ih ht.1 hmore ?_
        rw [List.length_append, hlength, ← Nat.add_assoc]
        exact hstands
      · exact Ends.pure ⟨ht.1, fun _ h => by cases h; exact hmore⟩

theorem reads_readVarint (offset : Nat) :
    Reads data (readVarint offset : LoadM κ (Except Error Bytes)) (Copies data offset) := by
  intro s hs
  rw [readVarint]
  refine (shows_seekTo offset 1 hs).bind fun result t ht => ?_
  split
  · exact Ends.pure ⟨ht.1, nofun⟩
  · exact shows_readGroups 19 ht.1 List.nil_prefix (ht.2 rfl)

theorem shows_readUnits (unit limit budget : Nat) {start : Nat} {read : Bytes} {s : LoadState κ}
    (hs : s.Shows data) (hread : read.reverse <+: data.drop start)
    (hoffset : s.Stands (start + read.length)) :
    Ends (readUnits unit limit budget read) s fun result t =>
      t.Shows data ∧ Copies data start result := by
  induction budget generalizing read s with
  | zero => exact Ends.pure ⟨hs, fun _ h => by cases h⟩
  | succ budget ih =>
    rw [readUnits]
    refine (shows_next unit hs hoffset).bind fun result t ht => ?_
    split
    · exact Ends.pure ⟨ht.1, fun _ h => by cases h⟩
    · rename_i bytes
      obtain ⟨hlength, hnext, hstands⟩ := ht.2 bytes rfl
      have hmore : (bytes.reverse ++ read).reverse <+: data.drop start := by
        rw [List.reverse_append, List.reverse_reverse]
        rw [← List.length_reverse] at hnext
        exact prefix_append_drop hread hnext
      dsimp only
      split
      · exact Ends.pure ⟨ht.1, fun _ h => by cases h; exact hmore⟩
      · refine ih ht.1 hmore ?_
        rw [List.length_append, List.length_reverse, hlength, Nat.add_comm unit, ← Nat.add_assoc]
        exact hstands

theorem reads_readText (format : TextFormat) (limit offset : Nat) :
    Reads data (readText format limit offset : LoadM κ (Except Error Bytes)) (Copies data offset) := by
  rw [readText]
  dsimp only
  split
  · split
    · exact Reads.pure fun _ h => by cases h
    · exact reads_readAt offset _
  · intro s hs
    refine (shows_seekTo offset format.encoding.unit hs).bind fun result t ht => ?_
    split
    · exact Ends.pure ⟨ht.1, fun _ h => by cases h⟩
    · exact shows_readUnits _ limit _ ht.1 List.nil_prefix (ht.2 rfl)
  · rename_i length _
    refine ((reads_readAt offset _).andEnds (length_readAt offset _)).bind fun result hfront => ?_
    split
    · exact Reads.pure fun _ h => by cases h
    · rename_i front
      split
      · exact Reads.pure fun _ h => by cases h
      · split
        · exact Reads.pure fun _ h => by cases h
        · exact Reads.pure fun _ h => by cases h
        · rename_i start amount hstart _
          refine (reads_readAt start amount).bind fun result hbody => Reads.pure ?_
          cases result with
          | error e => exact fun _ h => by cases h
          | ok body =>
            intro bytes h
            cases h
            refine prefix_append_drop (hfront.1 front rfl) ?_
            rw [hfront.2 front rfl, ← (spanEnd_eq hstart).1]
            exact hbody body rfl

/-- The bytes of any layout without parts. -/
theorem reads_readLeaf (config : Config) (frames : List (Frame κ)) (layout : Layout κ)
    (offset : Nat) : Reads data (readLeaf config frames layout offset) (Copies data offset) := by
  cases layout with
  | int | float | fixed | block | constant | padding | align | pointer =>
    exact reads_readAt offset _
  | varint signed => exact reads_readVarint offset
  | text format => exact reads_readText format _ offset
  | record | array | union | bits => exact Reads.pure nofun

end LoadM

end BinaryLayout
