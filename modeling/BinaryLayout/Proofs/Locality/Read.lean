import BinaryLayout.Proofs.Locality.View
import BinaryLayout.Proofs.Span.Load
import BinaryLayout.Proofs.Tree.Rename

/-!
# Reading from views that are alike

The same reads of two views that are alike give the same bytes. Where the comparison has a bound, a
read may also fail, or give bytes past the bound; then nothing is said of the second view.

## Main definitions

* `LoadState.Alike`: states whose views are alike and whose ledgers are in step.
* `ReadAlike`: what became of the same read of two views.

## Main statements

* `LoadM.together_readAt`, `LoadM.together_readLeaf`: reads at an offset.
-/

namespace BinaryLayout

variable {κ σ α β ε : Type}

/-- What became of two computations that may fail: both gave the same result and then `ok` holds, or
both failed alike and then `failed` holds. Where the comparison has a bound, only the first may have
failed. -/
inductive Both (bound? : Option Bound) (ok : α → σ → σ → Prop) (failed : σ → σ → Prop) :
    Except ε α → σ → Except ε α → σ → Prop
  | ok {a : α} {t t' : σ} (h : ok a t t') : Both bound? ok failed (.ok a) t (.ok a) t'
  | failed {e : ε} {t t' : σ} (h : failed t t') : Both bound? ok failed (.error e) t (.error e) t'
  | lost {e : ε} {t t' : σ} {right : Except ε α} {b : Bound} (hbound : bound? = some b) :
    Both bound? ok failed (.error e) t right t'

/-! ## States that are alike -/

namespace LoadState

def view (s : LoadState κ) : View := (s.reader, s.sources)

/-- The views are alike, and the ledgers are in step. No array was found to end with its source since
the comparison began. -/
structure Alike (L : Likeness) (mark : Nat → Nat) (s s' : LoadState κ) : Prop where
  view : L.Like s.view s'.view
  handles : s.ledger.InStep mark s'.ledger
  quiet : ∀ b, L.bound? = some b → s.ledger.unterminated = b.unterminated

/-- Alike, and both views stand at the offset. -/
structure AlikeAt (L : Likeness) (mark : Nat → Nat) (k : Nat) (s s' : LoadState κ) : Prop where
  view : L.Stands k s.view s'.view
  handles : s.ledger.InStep mark s'.ledger
  quiet : ∀ b, L.bound? = some b → s.ledger.unterminated = b.unterminated

variable {L : Likeness} {mark : Nat → Nat} {k : Nat} {s s' : LoadState κ}

theorem AlikeAt.alike (h : s.AlikeAt L mark k s') : s.Alike L mark s' :=
  ⟨L.like_of_stands h.view, h.handles, h.quiet⟩

theorem Alike.shows (h : s.Alike L mark s') {b : Bound} (hb : L.bound? = some b) : s.Shows b.data :=
  L.shows hb h.view

theorem AlikeAt.stands (h : s.AlikeAt L mark k s') {b : Bound} (hb : L.bound? = some b) :
    s.Stands k :=
  L.stands hb h.view

end LoadState

/-- The bytes read at the offset go past the bound, if any were read. -/
def Overruns (bound? : Option Bound) (offset : Nat) (result : Except Error Bytes) : Prop :=
  ∃ b, bound? = some b ∧ ∀ bytes, result = .ok bytes → b.stop < offset + bytes.length

/-- What became of the same read of two views. -/
def ReadAlike (L : Likeness) (mark : Nat → Nat) (offset : Nat) (result : Except Error Bytes)
    (t : LoadState κ) (result' : Except Error Bytes) (t' : LoadState κ) : Prop :=
  Overruns L.bound? offset result ∨ result = result' ∧ t.Alike L mark t'

theorem Overruns.failed {bound? : Option Bound} {b : Bound} (hb : bound? = some b) (offset : Nat)
    (e : Error) : Overruns bound? offset (.error e) :=
  ⟨b, hb, nofun⟩

/-- A read either stays inside the bound or goes past it. -/
theorem Likeness.inside_or (L : Likeness) (stop : Nat) :
    (∀ b, L.bound? = some b → stop ≤ b.stop) ∨ ∃ b, L.bound? = some b ∧ b.stop < stop := by
  cases hbound : L.bound? with
  | none => exact .inl nofun
  | some b =>
    rcases Nat.lt_or_ge b.stop stop with hlt | hge
    · exact .inr ⟨b, rfl, hlt⟩
    · exact .inl fun b' hb' => Option.some.inj hb' ▸ hge

namespace LoadM

variable {L : Likeness} {mark : Nat → Nat} {s s' : LoadState κ}

theorem together_seekTo {offset : Nat} (amount : Nat) (h : s.Alike L mark s')
    (hstart : L.start ≤ offset) (hstop : ∀ b, L.bound? = some b → offset ≤ b.stop) :
    Together (seekTo offset amount) (seekTo offset amount) s s'
      (Both L.bound? (fun _ t t' => t.AlikeAt L mark offset t') (LoadState.Alike L mark)) := by
  have hseek := L.seek h.view hstart hstop
  simp only [Together, seekTo, modifyGet, MonadStateOf.modifyGet, StateT.modifyGet, Pure.pure]
  simp only [View.seek, LoadState.view] at hseek
  generalize s.reader.seek s.sources offset = left at hseek
  generalize s'.reader.seek s'.sources offset = right at hseek
  cases hseek with
  | ok _ hview => exact .ok ⟨hview, h.handles, h.quiet⟩
  | @failed e _ _ _ hview => cases e <;> exact .failed ⟨hview, h.handles, h.quiet⟩
  | @lost e _ _ _ hb _ => cases e <;> exact .lost hb

theorem together_next {k amount : Nat} (h : s.AlikeAt L mark k s')
    (hstop : ∀ b, L.bound? = some b → k + amount ≤ b.stop) :
    Together (next amount) (next amount) s s'
      (Both L.bound? (fun bytes t t' => bytes.length = amount ∧ t.AlikeAt L mark (k + amount) t')
        (LoadState.AlikeAt L mark k)) := by
  have hread := L.consume h.view hstop
  have hlength (bytes : Bytes) (v : View) (hv : s.view.consume amount = (.ok bytes, v)) :
      bytes.length = amount :=
    View.length_consume hv
  simp only [Together, next, modifyGet, MonadStateOf.modifyGet, StateT.modifyGet, Pure.pure]
  simp only [View.consume, LoadState.view] at hread hlength
  generalize s.reader.consume s.sources amount = left at hread hlength
  generalize s'.reader.consume s'.sources amount = right at hread
  cases hread with
  | ok hsame hview => exact hsame ▸ .ok ⟨hlength _ _ rfl, hview, h.handles, h.quiet⟩
  | failed _ hview => exact .failed ⟨hview, h.handles, h.quiet⟩
  | lost hb => exact .lost hb

/-- How far views without a bound go is the same. -/
theorem together_viewEnd (hbound : L.bound? = none) (h : s.Alike L mark s') :
    Together viewEnd viewEnd s s' fun result t result' t' =>
      result = result' ∧ t.Alike L mark t' :=
  ⟨L.size hbound h.view, h⟩

/-- A read at an offset. -/
theorem together_readAt {offset : Nat} (amount : Nat) (h : s.Alike L mark s')
    (hstart : L.start ≤ offset) :
    Together (readAt offset amount) (readAt offset amount) s s' (ReadAlike L mark offset) := by
  rcases L.inside_or (offset + amount) with hstop | ⟨b, hb, hpast⟩
  · rw [readAt]
    split
    · exact Together.pure (.inr ⟨rfl, h⟩)
    · refine (together_seekTo amount h hstart fun b hb =>
        Nat.le_trans (Nat.le_add_right _ _) (hstop b hb)).bind fun result t result' t' ht => ?_
      cases ht with
      | ok hat =>
        refine (together_next hat hstop).bind fun result u result' u' hu => Together.pure ?_
        cases hu with
        | ok hbytes => exact .inr ⟨rfl, hbytes.2.alike⟩
        | failed hfailed => exact .inr ⟨rfl, hfailed.alike⟩
        | lost hb => exact .inl (.failed hb _ _)
      | failed hfailed => exact Together.pure (.inr ⟨rfl, hfailed⟩)
      | lost hb => exact .inl (.failed hb _ _)
  · refine Together.left (length_readAt offset amount s) fun result t _ _ hlength => .inl ⟨b, hb, ?_⟩
    intro bytes hbytes
    rw [hlength bytes hbytes]
    exact hpast

/-- Groups that were read come after those that were there before. -/
theorem length_readGroups (budget : Nat) (read : Bytes) (s : LoadState κ) :
    Ends (readGroups budget read) s fun result _ => ∀ bytes, result = .ok bytes →
      read.length + 1 ≤ bytes.length := by
  induction budget generalizing read s with
  | zero => exact Ends.pure fun _ h => by cases h
  | succ budget ih =>
    rw [readGroups]
    have hnext : Ends (next 1) s fun result _ => ∀ bytes, result = .ok bytes → bytes.length = 1 :=
      fun bytes hbytes => Reader.length_consume (Prod.ext hbytes rfl)
    refine hnext.bind fun result t ht => ?_
    split
    · exact Ends.pure fun _ h => by cases h
    · rename_i bytes
      have hone := ht bytes rfl
      split
      · refine (ih (read ++ bytes) t).mono fun result u hu last hlast => ?_
        have hmore := hu last hlast
        rw [List.length_append, hone] at hmore
        omega
      · refine Ends.pure fun last hlast => ?_
        cases hlast
        exact Nat.le_of_eq (by rw [List.length_append, hone])

theorem together_readGroups (budget : Nat) {start : Nat} (read : Bytes)
    (h : s.AlikeAt L mark (start + read.length) s') :
    Together (readGroups budget read) (readGroups budget read) s s' (ReadAlike L mark start) := by
  induction budget generalizing read s s' with
  | zero => exact Together.pure (.inr ⟨rfl, h.alike⟩)
  | succ budget ih =>
    rcases L.inside_or (start + read.length + 1) with hstop | ⟨b, hb, hpast⟩
    · rw [readGroups]
      refine (together_next h hstop).bind fun result t result' t' ht => ?_
      cases ht with
      | ok hbytes =>
        obtain ⟨hlength, hat⟩ := hbytes
        dsimp only
        split
        · refine ih _ ?_
          rw [List.length_append, hlength, ← Nat.add_assoc]
          exact hat
        · exact Together.pure (.inr ⟨rfl, hat.alike⟩)
      | failed hfailed => exact Together.pure (.inr ⟨rfl, hfailed.alike⟩)
      | lost hb => exact .inl (.failed hb _ _)
    · refine Together.left (length_readGroups (budget + 1) read s) fun result t _ _ hlength =>
        .inl ⟨b, hb, fun bytes hbytes => ?_⟩
      have hmore := hlength bytes hbytes
      omega

theorem together_readVarint {offset : Nat} (h : s.Alike L mark s') (hstart : L.start ≤ offset) :
    Together (readVarint offset) (readVarint offset) s s' (ReadAlike L mark offset) := by
  rcases L.inside_or offset with hstop | ⟨b, hb, hpast⟩
  · rw [readVarint]
    refine (together_seekTo 1 h hstart hstop).bind fun result t result' t' ht => ?_
    cases ht with
    | ok hat => exact together_readGroups 19 [] hat
    | failed hfailed => exact Together.pure (.inr ⟨rfl, hfailed⟩)
    | lost hb => exact .inl (.failed hb _ _)
  · exact .inl ⟨b, hb, fun bytes _ => Nat.lt_of_lt_of_le hpast (Nat.le_add_right _ _)⟩

/-- Units that were read come after those that were there before. -/
theorem length_readUnits (unit limit budget : Nat) (read : Bytes) (s : LoadState κ) :
    Ends (readUnits unit limit budget read) s fun result _ => ∀ bytes, result = .ok bytes →
      read.length + unit ≤ bytes.length := by
  induction budget generalizing read s with
  | zero => exact Ends.pure fun _ h => by cases h
  | succ budget ih =>
    rw [readUnits]
    have hnext : Ends (next unit) s fun result _ => ∀ bytes, result = .ok bytes → bytes.length = unit :=
      fun bytes hbytes => Reader.length_consume (Prod.ext hbytes rfl)
    refine hnext.bind fun result t ht => ?_
    split
    · exact Ends.pure fun _ h => by cases h
    · rename_i bytes
      have hunit := ht bytes rfl
      dsimp only
      split
      · refine Ends.pure fun last hlast => ?_
        cases hlast
        refine Nat.le_of_eq ?_
        rw [List.length_reverse, List.length_append, List.length_reverse, hunit, Nat.add_comm]
      · refine (ih _ t).mono fun result u hu last hlast => ?_
        have hmore := hu last hlast
        rw [List.length_append, List.length_reverse, hunit] at hmore
        omega

theorem together_readUnits (unit limit budget : Nat) {start : Nat} (read : Bytes)
    (h : s.AlikeAt L mark (start + read.length) s') :
    Together (readUnits unit limit budget read) (readUnits unit limit budget read) s s'
      (ReadAlike L mark start) := by
  induction budget generalizing read s s' with
  | zero => exact Together.pure (.inr ⟨rfl, h.alike⟩)
  | succ budget ih =>
    rcases L.inside_or (start + read.length + unit) with hstop | ⟨b, hb, hpast⟩
    · rw [readUnits]
      refine (together_next h hstop).bind fun result t result' t' ht => ?_
      cases ht with
      | ok hbytes =>
        obtain ⟨hlength, hat⟩ := hbytes
        dsimp only
        split
        · exact Together.pure (.inr ⟨rfl, hat.alike⟩)
        · refine ih _ ?_
          rw [List.length_append, List.length_reverse, hlength, Nat.add_comm unit, ← Nat.add_assoc]
          exact hat
      | failed hfailed => exact Together.pure (.inr ⟨rfl, hfailed.alike⟩)
      | lost hb => exact .inl (.failed hb _ _)
    · refine Together.left (length_readUnits unit limit (budget + 1) read s) fun result t _ _ hlength =>
        .inl ⟨b, hb, fun bytes hbytes => ?_⟩
      have hmore := hlength bytes hbytes
      omega

theorem together_readText (format : TextFormat) (limit : Nat) {offset : Nat}
    (h : s.Alike L mark s') (hstart : L.start ≤ offset) :
    Together (readText format limit offset) (readText format limit offset) s s'
      (ReadAlike L mark offset) := by
  rw [readText]
  dsimp only
  split
  · split
    · exact Together.pure (.inr ⟨rfl, h⟩)
    · exact together_readAt _ h hstart
  · rcases L.inside_or offset with hstop | ⟨b, hb, hpast⟩
    · refine (together_seekTo _ h hstart hstop).bind fun result t result' t' ht => ?_
      cases ht with
      | ok hat => exact together_readUnits _ _ _ [] hat
      | failed hfailed => exact Together.pure (.inr ⟨rfl, hfailed⟩)
      | lost hb => exact .inl (.failed hb _ _)
    · exact .inl ⟨b, hb, fun bytes _ => Nat.lt_of_lt_of_le hpast (Nat.le_add_right _ _)⟩
  · rename_i length _
    refine ((together_readAt length.width h hstart).andLeft (length_readAt offset _ s)).bind
      fun result t result' t' ht => ?_
    obtain ⟨hwidth, ht⟩ := ht
    rcases ht with ⟨b, hb, hpast⟩ | ⟨rfl, halike⟩
    · -- The text has its count in front, so it goes past the bound when that does.
      refine Together.left (p := fun last _ => ∀ bytes, last = .ok bytes → ∃ front,
        result = .ok front ∧ front.length ≤ bytes.length) ?_ fun last u _ _ hlast =>
          .inl ⟨b, hb, fun bytes hbytes => ?_⟩
      · split
        · exact Ends.pure fun _ h => by cases h
        · rename_i front
          split
          · exact Ends.pure fun _ h => by cases h
          · split
            · exact Ends.pure fun _ h => by cases h
            · exact Ends.pure fun _ h => by cases h
            · refine (Ends.trivial _ t).bind fun body u _ => Ends.pure fun bytes hbytes => ?_
              cases body with
              | error e => cases hbytes
              | ok body =>
                cases hbytes
                exact ⟨front, rfl, List.length_append ▸ Nat.le_add_right _ _⟩
      · obtain ⟨front, hfront, hle⟩ := hlast bytes hbytes
        exact Nat.lt_of_lt_of_le (hpast front hfront) (Nat.add_le_add_left hle _)
    · split
      · exact Together.pure (.inr ⟨rfl, halike⟩)
      · rename_i front
        split
        · exact Together.pure (.inr ⟨rfl, halike⟩)
        · split
          · exact Together.pure (.inr ⟨rfl, halike⟩)
          · exact Together.pure (.inr ⟨rfl, halike⟩)
          · rename_i start amount hspan _
            obtain ⟨rfl, -⟩ := spanEnd_eq hspan
            refine (together_readAt amount halike
              (Nat.le_trans hstart (Nat.le_add_right _ _))).bind fun body u body' u' hu =>
                Together.pure ?_
            rcases hu with ⟨b, hb, hpast⟩ | ⟨rfl, halike⟩
            · refine .inl ⟨b, hb, fun bytes hbytes => ?_⟩
              cases body with
              | error e => cases hbytes
              | ok body =>
                cases hbytes
                rw [List.length_append, hwidth front rfl, ← Nat.add_assoc]
                exact hpast body rfl
            · exact .inr ⟨rfl, halike⟩

/-- The bytes of any layout without parts. -/
theorem together_readLeaf (config : Config) {frames frames' : List (Frame κ)}
    (hframes : frames.map (Frame.rename mark) = frames'.map (Frame.rename mark)) (layout : Layout κ)
    {offset : Nat} (h : s.Alike L mark s') (hstart : L.start ≤ offset) :
    Together (readLeaf config frames layout offset) (readLeaf config frames' layout offset) s s'
      (ReadAlike L mark offset) := by
  cases layout with
  | int | float | fixed | block | constant | padding | pointer => exact together_readAt _ h hstart
  | align alignment =>
    have hpadding : alignPadding frames offset alignment = alignPadding frames' offset alignment := by
      cases frames with
      | nil =>
        cases frames' with
        | nil => rfl
        | cons f' frames' => cases hframes
      | cons f frames =>
        cases frames' with
        | nil => cases hframes
        | cons f' frames' =>
          rw [List.map_cons, List.map_cons, List.cons.injEq] at hframes
          rw [alignPadding, alignPadding, Frame.offset_of_rename hframes.1]
    rw [readLeaf, readLeaf, hpadding]
    exact together_readAt _ h hstart
  | varint signed => exact together_readVarint h hstart
  | text format => exact together_readText format _ h hstart
  | record | array | union | bits => exact Together.pure (.inr ⟨rfl, h⟩)

end LoadM

end BinaryLayout
