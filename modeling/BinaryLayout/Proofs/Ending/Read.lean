import BinaryLayout.Proofs.Ending.View
import BinaryLayout.Proofs.Layout.Uses
import BinaryLayout.Proofs.Locality.Read

/-!
# Reading up to a border

A read of a view that ends at some offset either stays inside the view, or fails, and if it failed for
want of bytes then it wanted bytes past the end. Where the number of bytes is known beforehand, exactly
those are read, and no others are wanted.

## Main definitions

* `Error.Overruns`, `Error.Wants`: which bytes were wanted when bytes ran out.
* `ReadUpTo`: what a read made of a view.

## Main statements

* `LoadM.readUpTo_readLeaf`: the bytes of a layout without parts.
-/

namespace BinaryLayout

variable {κ α : Type}

namespace Error

/-- If the source ran out of bytes, then some past `stop` were wanted. -/
def Overruns (stop : Nat) : Error → Prop
  | located _ (.consume offset desired _) => stop < offset + desired
  | _ => True

/-- If the source ran out of bytes, then none past `limit` were wanted. -/
def Wants (limit : Nat) : Error → Prop
  | located _ (.consume offset desired _) => offset + desired ≤ limit
  | _ => True

variable {stop limit : Nat} {e : Error}

theorem overruns_of_other (h : e.isConsume = false) : e.Overruns stop := by
  cases e with
  | located path problem =>
    cases problem with
    | consume => cases h
    | source | initialization | decode | nullDereference | unterminatedArray | notFound | value =>
      trivial
  | schema fault => trivial

theorem wants_of_other (h : e.isConsume = false) : e.Wants limit := by
  cases e with
  | located path problem =>
    cases problem with
    | consume => cases h
    | source | initialization | decode | nullDereference | unterminatedArray | notFound | value =>
      trivial
  | schema fault => trivial

theorem Overruns.within (h : e.Overruns stop) (outer : Path) : (e.within outer).Overruns stop := by
  cases e with
  | located path problem => cases problem <;> exact h
  | schema fault => exact h

theorem Wants.within (h : e.Wants limit) (outer : Path) : (e.within outer).Wants limit := by
  cases e with
  | located path problem => cases problem <;> exact h
  | schema fault => exact h

theorem Wants.mono {limit' : Nat} (h : e.Wants limit) (hle : limit ≤ limit') : e.Wants limit' := by
  cases e with
  | located path problem =>
    cases problem with
    | consume => exact Nat.le_trans h hle
    | source | initialization | decode | nullDereference | unterminatedArray | notFound | value =>
      trivial
  | schema fault => trivial

/-- Bytes before the end of a view do not run out. -/
theorem Overruns.other (h : e.Overruns stop) (hwants : e.Wants stop) : e.isConsume = false := by
  cases e with
  | located path problem =>
    cases problem with
    | consume => exact absurd hwants (Nat.not_le.2 h)
    | source | initialization | decode | nullDereference | unterminatedArray | notFound | value => rfl
  | schema fault => rfl

/-- In a window that ends after the bytes that are wanted, what runs out is the view behind it. -/
theorem Overruns.ofWindow (h : e.Overruns (min stop limit)) (hwants : e.Wants limit) :
    e.Overruns stop := by
  cases e with
  | located path problem =>
    cases problem with
    | consume offset desired got =>
      have hover : min stop limit < offset + desired := h
      have hwant : offset + desired ≤ limit := hwants
      show stop < offset + desired
      omega
    | source | initialization | decode | nullDereference | unterminatedArray | notFound | value =>
      trivial
  | schema fault => trivial

theorem overruns_ofSource {cause : SourceError} {cursor amount : Nat} (h : cause.Lacks stop cursor amount) :
    (ofSource cause).Overruns stop := by
  cases cause with
  | consume =>
    obtain ⟨rfl, rfl, hpast⟩ := h
    exact hpast
  | io | outOfBounds | store | readOnly | poisoned => trivial

theorem wants_ofSource {cause : SourceError} {cursor amount : Nat} (h : cause.Lacks stop cursor amount) :
    (ofSource cause).Wants (cursor + amount) := by
  cases cause with
  | consume =>
    obtain ⟨rfl, rfl, -⟩ := h
    exact Nat.le_refl _
  | io | outOfBounds | store | readOnly | poisoned => trivial

end Error

theorem Env.isConsume_resolve {env : Env κ} {container : Place κ} {index : Nat}
    {choice : Choice κ (Layout κ)} {e : Error} (h : env.resolve container index choice = .error e) :
    e.isConsume = false := by
  cases choice with
  | given layout => cases h
  | computed rule =>
    rw [resolve] at h
    cases hrule : env.rules.layout rule ⟨container, some index, env.config⟩ with
    | ok layout =>
      rw [hrule] at h
      cases h
    | error cause =>
      rw [hrule] at h
      cases h
      exact cause.isConsume_asInitialization

theorem isConsume_of_unitBytes {count unit : Nat} {e : Error} (h : unitBytes count unit = .error e) :
    e.isConsume = false := by
  rw [unitBytes] at h
  split at h
  · cases h
  · cases h
    rfl

theorem word?_of_unitBytes {count unit amount : Nat} (h : unitBytes count unit = .ok amount) :
    word? (count * unit) = some amount := by
  rw [unitBytes] at h
  split at h
  · cases h
    assumption
  · cases h

/-- A span that leaves the address space goes past the end of every view. -/
theorem overruns_of_spanEnd {offset amount stop : Nat} {e : Error} (hstop : stop < pow2 64)
    (h : spanEnd offset amount = .error e) : e.Overruns stop := by
  rw [spanEnd] at h
  split at h
  · cases h
  · cases h
    show stop < offset + amount
    omega

/-- What a read at `offset` made of a view, when it is known that so many bytes are to be read. -/
structure ReadUpTo (B : Border) (offset : Nat) (known? : Option Nat) (result : Except Error Bytes)
    (t : LoadState κ) : Prop where
  has : B.Has t.view
  within : ∀ bytes, result = .ok bytes → offset + bytes.length ≤ max offset B.stop
  overruns : ∀ e, result = .error e → e.Overruns B.stop
  length : ∀ size, known? = some size → ∀ bytes, result = .ok bytes → bytes.length = size
  wants : ∀ size, known? = some size → ∀ e, result = .error e → e.Wants (offset + size)

namespace ReadUpTo

variable {B : Border} {offset : Nat} {known? : Option Nat} {t : LoadState κ}

/-- A failure for another reason than a want of bytes. -/
theorem other (h : B.Has t.view) {e : Error} (he : e.isConsume = false) :
    ReadUpTo B offset known? (.error e) t :=
  ⟨h, nofun, fun _ h => by cases h; exact Error.overruns_of_other he, fun _ _ => nofun,
    fun _ _ _ h => by cases h; exact Error.wants_of_other he⟩

/-- A read of bytes whose number was not known. -/
theorem unknown (h : B.Has t.view) {result : Except Error Bytes}
    (hwithin : ∀ bytes, result = .ok bytes → offset + bytes.length ≤ max offset B.stop)
    (hover : ∀ e, result = .error e → e.Overruns B.stop) : ReadUpTo B offset none result t :=
  ⟨h, hwithin, hover, nofun, nofun⟩

end ReadUpTo

namespace LoadM

variable {B : Border} {s : LoadState κ}

theorem bordered_seekTo {offset : Nat} (amount : Nat) (hs : B.Has s.view) (hstart : B.start ≤ offset) :
    Ends (seekTo offset amount) s fun result t => B.Has t.view
      ∧ (result = .ok () → B.At offset t.view)
      ∧ ∀ e, result = .error e → e.Overruns B.stop ∧ e.Wants (offset + amount) := by
  cases hmoved : s.view.seek offset with
  | mk result w =>
    have hmoved' : s.reader.seek s.sources offset = (result, w.1, w.2) := hmoved
    show (fun (result : Except Error Unit) (t : LoadState κ) => B.Has t.view
      ∧ (result = .ok () → B.At offset t.view)
      ∧ ∀ e, result = .error e → e.Overruns B.stop ∧ e.Wants (offset + amount))
      (seekTo offset amount s).1 (seekTo offset amount s).2
    simp only [seekTo, modifyGet, MonadStateOf.modifyGet, StateT.modifyGet, Pure.pure, hmoved']
    cases result with
    | ok k =>
      have hat := B.seek_ok hs hstart hmoved
      exact ⟨B.has_of_at hat, fun _ => hat, fun _ h => by cases h⟩
    | error cause =>
      obtain ⟨hhas, hrefuses⟩ := B.seek_error hs hstart hmoved
      refine ⟨hhas, fun h => ?_, fun e he => ?_⟩
      · cases cause <;> cases h
      · cases cause with
        | consume => exact hrefuses.elim
        | outOfBounds past size =>
          cases he
          exact ⟨Nat.lt_of_lt_of_le hrefuses (Nat.le_add_right _ _), Nat.le_refl _⟩
        | io | store | readOnly | poisoned =>
          cases he
          exact ⟨trivial, trivial⟩

theorem bordered_next {k : Nat} (amount : Nat) (hs : B.At k s.view) :
    Ends (next amount) s fun result t =>
      (∀ bytes, result = .ok bytes → bytes.length = amount ∧ B.At (k + amount) t.view
        ∧ (0 < amount → k + amount ≤ B.stop))
      ∧ ∀ e, result = .error e → B.At k t.view ∧ e.Lacks B.stop k amount := by
  cases hread : s.view.consume amount with
  | mk result w =>
    have hread' : s.reader.consume s.sources amount = (result, w.1, w.2) := hread
    show (fun (result : Except SourceError Bytes) (t : LoadState κ) =>
      (∀ bytes, result = .ok bytes → bytes.length = amount ∧ B.At (k + amount) t.view
        ∧ (0 < amount → k + amount ≤ B.stop))
      ∧ ∀ e, result = .error e → B.At k t.view ∧ e.Lacks B.stop k amount)
      (next amount s).1 (next amount s).2
    simp only [next, modifyGet, MonadStateOf.modifyGet, StateT.modifyGet, Pure.pure, hread']
    refine ⟨fun bytes hbytes => ?_, fun e he => ?_⟩
    · subst hbytes
      obtain ⟨hat, hinside⟩ := B.consume_ok hs hread
      exact ⟨View.length_consume hread, hat, hinside⟩
    · subst he
      exact B.consume_error hs hread

theorem readUpTo_readAt {offset : Nat} (amount : Nat) (hs : B.Has s.view) (hstart : B.start ≤ offset) :
    Ends (readAt offset amount) s (ReadUpTo B offset (some amount)) := by
  rw [readAt]
  split
  · rename_i hnone
    subst hnone
    exact Ends.pure ⟨hs, fun _ h => by cases h; exact Nat.le_max_left _ _, (fun _ h => by cases h),
      fun _ h _ hbytes => by cases h; cases hbytes; rfl, fun _ _ _ h => by cases h⟩
  · rename_i hsome
    refine (bordered_seekTo amount hs hstart).bind fun result t ht => ?_
    obtain ⟨hhas, hat, hrefused⟩ := ht
    split
    · rename_i e
      obtain ⟨hover, hwants⟩ := hrefused e rfl
      exact Ends.pure ⟨hhas, (fun _ h => by cases h), fun _ h => by cases h; exact hover,
        (fun _ _ _ h => by cases h),
        fun _ h _ he => by cases h; cases he; exact hwants⟩
    · refine (bordered_next amount (hat rfl)).bind fun result u hu => Ends.pure ?_
      obtain ⟨hok, herror⟩ := hu
      cases result with
      | ok bytes =>
        obtain ⟨hlength, hmoved, hinside⟩ := hok bytes rfl
        have hroom := hinside (Nat.pos_of_ne_zero hsome)
        refine ⟨B.has_of_at hmoved, fun _ h => ?_, (fun _ h => by cases h), fun _ h _ hbytes => ?_,
          fun _ _ _ h => by cases h⟩
        · cases h
          rw [hlength]
          exact Nat.le_trans hroom (Nat.le_max_right _ _)
        · cases h
          cases hbytes
          exact hlength
      | error cause =>
        obtain ⟨hstays, hlacks⟩ := herror cause rfl
        exact ⟨B.has_of_at hstays, (fun _ h => by cases h),
          fun _ h => by cases h; exact Error.overruns_ofSource hlacks,
          (fun _ _ _ h => by cases h), fun _ h _ he => by cases h; cases he; exact Error.wants_ofSource hlacks⟩

/-- Groups of seven bits, after those that were read. -/
theorem readUpTo_readGroups (budget : Nat) {start : Nat} (read : Bytes)
    (hs : B.At (start + read.length) s.view) (hread : start + read.length ≤ max start B.stop) :
    Ends (readGroups budget read) s (ReadUpTo B start none) := by
  induction budget generalizing read s with
  | zero => exact Ends.pure (.other (B.has_of_at hs) rfl)
  | succ budget ih =>
    rw [readGroups]
    refine (bordered_next 1 hs).bind fun result t ht => ?_
    obtain ⟨hok, herror⟩ := ht
    split
    · rename_i cause
      obtain ⟨hstays, hlacks⟩ := herror cause rfl
      exact Ends.pure (.unknown (B.has_of_at hstays) (fun _ h => by cases h) fun _ h => by
        cases h; exact Error.overruns_ofSource hlacks)
    · rename_i bytes
      obtain ⟨hlength, hmoved, hinside⟩ := hok bytes rfl
      have hroom := hinside Nat.one_pos
      have hmore : start + (read ++ bytes).length ≤ max start B.stop := by
        rw [List.length_append, hlength]
        omega
      split
      · refine ih (read ++ bytes) ?_ hmore
        rw [List.length_append, hlength, ← Nat.add_assoc]
        exact hmoved
      · exact Ends.pure (.unknown (B.has_of_at hmoved) (fun _ h => by cases h; exact hmore)
          fun _ h => by cases h)

theorem readUpTo_readVarint {offset : Nat} (hs : B.Has s.view) (hstart : B.start ≤ offset) :
    Ends (readVarint offset) s (ReadUpTo B offset none) := by
  rw [readVarint]
  refine (bordered_seekTo 1 hs hstart).bind fun result t ht => ?_
  obtain ⟨hhas, hat, hrefused⟩ := ht
  split
  · rename_i e
    exact Ends.pure (.unknown hhas nofun fun _ h => by cases h; exact (hrefused e rfl).1)
  · exact readUpTo_readGroups 19 [] (hat rfl) (Nat.le_max_left _ _)

/-- Code units up to a zero unit, after those that were read. -/
theorem readUpTo_readUnits {unit : Nat} (hunit : 0 < unit) (limit budget : Nat) {start : Nat} (read : Bytes)
    (hs : B.At (start + read.length) s.view) (hread : start + read.length ≤ max start B.stop) :
    Ends (readUnits unit limit budget read) s (ReadUpTo B start none) := by
  induction budget generalizing read s with
  | zero => exact Ends.pure (.other (B.has_of_at hs) rfl)
  | succ budget ih =>
    rw [readUnits]
    refine (bordered_next unit hs).bind fun result t ht => ?_
    obtain ⟨hok, herror⟩ := ht
    split
    · rename_i cause
      obtain ⟨hstays, hlacks⟩ := herror cause rfl
      exact Ends.pure (.unknown (B.has_of_at hstays) (fun _ h => by cases h) fun _ h => by
        cases h; exact Error.overruns_ofSource hlacks)
    · rename_i bytes
      obtain ⟨hlength, hmoved, hinside⟩ := hok bytes rfl
      have hroom := hinside hunit
      have hmore : start + (bytes.reverse ++ read).length ≤ max start B.stop := by
        rw [List.length_append, List.length_reverse, hlength]
        omega
      dsimp only
      split
      · refine Ends.pure (.unknown (B.has_of_at hmoved) (fun _ h => ?_) fun _ h => by cases h)
        cases h
        rwa [List.length_reverse]
      · refine ih (bytes.reverse ++ read) ?_ hmore
        rw [List.length_append, List.length_reverse, hlength, Nat.add_comm unit, ← Nat.add_assoc]
        exact hmoved

theorem unit_pos (encoding : Encoding) : 0 < encoding.unit := by
  cases encoding <;> exact Nat.succ_pos _

theorem readUpTo_readText (format : TextFormat) (limit : Nat) {offset : Nat} (hs : B.Has s.view)
    (hstart : B.start ≤ offset) :
    Ends (readText format limit offset) s (ReadUpTo B offset format.staticSize) := by
  obtain ⟨encoding, length⟩ := format
  rw [readText]
  cases length with
  | counted count =>
    dsimp only [TextFormat.staticSize]
    split
    · rename_i e herror
      exact Ends.pure (.other hs (isConsume_of_unitBytes herror))
    · rename_i amount hamount
      rw [word?_of_unitBytes hamount]
      exact readUpTo_readAt amount hs hstart
  | terminated =>
    refine (bordered_seekTo encoding.unit hs hstart).bind fun result t ht => ?_
    obtain ⟨hhas, hat, hrefused⟩ := ht
    split
    · rename_i e
      exact Ends.pure (.unknown hhas nofun fun _ h => by cases h; exact (hrefused e rfl).1)
    · exact readUpTo_readUnits (unit_pos _) limit _ [] (hat rfl) (Nat.le_max_left _ _)
  | prefixed length =>
    refine (readUpTo_readAt length.width hs hstart).bind fun result t ht => ?_
    split
    · rename_i e
      exact Ends.pure (.unknown ht.has nofun fun _ h => by cases h; exact ht.overruns e rfl)
    · rename_i front
      have hfront := ht.within front rfl
      have hwidth := ht.length length.width rfl front rfl
      dsimp only
      split
      · exact Ends.pure (.other ht.has rfl)
      · split
        · rename_i e hspan
          exact Ends.pure (.unknown ht.has nofun fun _ h => by
            cases h; exact overruns_of_spanEnd B.word hspan)
        · rename_i e herror _
          exact Ends.pure (.other ht.has (isConsume_of_unitBytes herror))
        · rename_i start amount hspan _
          obtain ⟨rfl, -⟩ := spanEnd_eq hspan
          refine (readUpTo_readAt amount ht.has (Nat.le_trans hstart (Nat.le_add_right _ _))).bind
            fun result u hu => Ends.pure ?_
          cases result with
          | error e => exact .unknown hu.has nofun fun _ h => by cases h; exact hu.overruns e rfl
          | ok body =>
            refine .unknown hu.has (fun _ h => ?_) nofun
            cases h
            have hlast := hu.within body rfl
            rw [List.length_append, hwidth]
            rw [hwidth] at hfront
            omega

/-- The bytes of any layout without parts. -/
theorem readUpTo_readLeaf (config : Config) (frames : List (Frame κ)) (layout : Layout κ) {offset : Nat}
    (hs : B.Has s.view) (hstart : B.start ≤ offset) :
    Ends (readLeaf config frames layout offset) s (ReadUpTo B offset layout.staticSize) := by
  cases layout with
  | int | float | fixed | block | constant | padding | pointer => exact readUpTo_readAt _ hs hstart
  | align alignment =>
    exact (readUpTo_readAt _ hs hstart).mono fun _ _ h => .unknown h.has h.within h.overruns
  | varint signed => exact readUpTo_readVarint hs hstart
  | text format => exact readUpTo_readText format _ hs hstart
  | record | array | union | bits => exact Ends.pure (.other hs rfl)

end LoadM

end BinaryLayout
