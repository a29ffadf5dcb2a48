import BinaryLayout.Proofs.Locality.Read

/-!
# What windows let through

A window ends the view that it narrows, and no read goes past it: a move past its end is refused, and
so is a read of more bytes than are left. So the bytes of whatever is loaded through windows, of which
there may be several, end where the first of them does. What loading does inside a window leaves the
windows around it as they are.

## Main definitions

* `Reader.limits`: where the windows of a view end.
* `Reader.Level`: all windows of a view stand at an offset.
* `LoadState.Inside`: no window ends between two offsets.
* `Confined`: a computation whose result ends inside all windows.

## Main statements

* `LoadM.confined_readAt`, `LoadM.confined_readLeaf`: bytes that were read.
-/

namespace BinaryLayout

variable {κ α β : Type}

namespace Reader

/-- Where the windows of the view end, the outermost first. -/
def limits : Reader → List Nat
  | .window inner limit _ => limit :: inner.limits
  | _ => []

/-- All windows of the view stand at the offset. -/
def Level (offset : Nat) : Reader → Prop
  | .window inner _ cursor => cursor = offset ∧ inner.Level offset
  | _ => True

variable {r r' : Reader} {sources sources' : Sources}

theorem limits_seek (r : Reader) (sources : Sources) (offset : Nat) :
    (r.seek sources offset).2.1.limits = r.limits := by
  induction r with
  | source id => rfl
  | detached data origin cursor =>
    rw [seek]
    split <;> rfl
  | window inner limit cursor ih =>
    rw [seek]
    split
    · rfl
    · generalize inner.seek sources offset = moved at ih
      obtain ⟨e | k, inner', sources'⟩ := moved <;> exact congrArg (limit :: ·) ih

theorem limits_consume (r : Reader) (sources : Sources) (amount : Nat) :
    (r.consume sources amount).2.1.limits = r.limits := by
  induction r with
  | source id => rfl
  | detached data origin cursor =>
    rw [consume]
    split <;> rfl
  | window inner limit cursor ih =>
    rw [consume]
    split
    · rfl
    · generalize inner.consume sources amount = read at ih
      obtain ⟨e | bytes, inner', sources'⟩ := read <;> exact congrArg (limit :: ·) ih

/-- All windows of a view that was moved stand at the offset. -/
theorem level_seek {offset k : Nat} (h : r.seek sources offset = (.ok k, r', sources')) :
    r'.Level offset := by
  induction r generalizing k r' sources' with
  | source id =>
    simp only [seek, Prod.mk.injEq] at h
    obtain ⟨-, rfl, -⟩ := h
    trivial
  | detached data origin cursor =>
    rw [seek] at h
    split at h
    · cases h
    · cases h
      trivial
  | window inner limit cursor ih =>
    rw [seek] at h
    split at h
    · cases h
    · split at h
      · rename_i hinner
        cases h
        exact ⟨rfl, ih hinner⟩
      · cases h

/-- Bytes that were read end inside all windows. -/
theorem level_consume {offset amount : Nat} {bytes : Bytes} (hlevel : r.Level offset)
    (h : r.consume sources amount = (.ok bytes, r', sources')) :
    r'.Level (offset + amount) ∧ ∀ limit ∈ r.limits, offset + amount ≤ max offset limit := by
  induction r generalizing r' sources' with
  | source id =>
    simp only [consume, Prod.mk.injEq] at h
    obtain ⟨-, rfl, -⟩ := h
    exact ⟨trivial, fun _ hmem => absurd hmem List.not_mem_nil⟩
  | detached data origin cursor =>
    rw [consume] at h
    split at h
    · cases h
      exact ⟨trivial, fun _ hmem => absurd hmem List.not_mem_nil⟩
    · cases h
  | window inner limit cursor ih =>
    obtain ⟨rfl, hlevel⟩ := hlevel
    rw [consume] at h
    split at h
    · cases h
    · rename_i hroom
      split at h
      · rename_i hinner
        cases h
        obtain ⟨hlevel, hlimits⟩ := ih hlevel hinner
        refine ⟨⟨rfl, hlevel⟩, List.forall_mem_cons.2 ⟨?_, hlimits⟩⟩
        omega
      · cases h

/-- A view that could not be read stands where it stood. -/
theorem level_of_consume_error {offset amount : Nat} {e : SourceError} (hlevel : r.Level offset)
    (h : r.consume sources amount = (.error e, r', sources')) : r'.Level offset := by
  induction r generalizing r' sources' e with
  | source id =>
    simp only [consume, Prod.mk.injEq] at h
    obtain ⟨-, rfl, -⟩ := h
    trivial
  | detached data origin cursor =>
    rw [consume] at h
    split at h
    · cases h
    · cases h
      trivial
  | window inner limit cursor ih =>
    obtain ⟨rfl, hlevel⟩ := hlevel
    rw [consume] at h
    split at h
    · cases h
      exact ⟨rfl, hlevel⟩
    · split at h
      · cases h
      · rename_i hinner
        cases h
        exact ⟨rfl, ih hlevel hinner⟩

end Reader

namespace LoadState

/-- Where the windows of the view end, the outermost first. -/
def limits (s : LoadState κ) : List Nat := s.reader.limits

/-- All windows of the view stand at the offset. -/
def Level (offset : Nat) (s : LoadState κ) : Prop := s.reader.Level offset

/-- No window ends between the two offsets. -/
def Inside (s : LoadState κ) (start stop : Nat) : Prop := ∀ limit ∈ s.limits, stop ≤ max start limit

theorem Inside.refl (s : LoadState κ) (start : Nat) : s.Inside start start :=
  fun _ _ => Nat.le_max_left _ _

theorem Inside.trans {s : LoadState κ} {start middle stop : Nat} (hfirst : s.Inside start middle)
    (hrest : s.Inside middle stop) : s.Inside start stop := by
  intro limit hlimit
  have hbefore := hfirst limit hlimit
  have hafter := hrest limit hlimit
  omega

/-- The windows of one state are those of another. -/
theorem Inside.of_limits {s t : LoadState κ} {start stop : Nat} (h : t.Inside start stop)
    (hlimits : t.limits = s.limits) : s.Inside start stop := by
  rw [Inside, ← hlimits]
  exact h

end LoadState

/-- Bytes that were read at `offset` end inside all windows, and the windows stay. -/
def Confined (offset : Nat) (s : LoadState κ) (result : Except Error Bytes) (t : LoadState κ) : Prop :=
  t.limits = s.limits ∧ ∀ bytes, result = .ok bytes → s.Inside offset (offset + bytes.length)

theorem Confined.failed {offset : Nat} {s t : LoadState κ} (h : t.limits = s.limits) (e : Error) :
    Confined offset s (.error e) t := by
  refine ⟨h, fun bytes hbytes => ?_⟩
  cases hbytes

namespace LoadM

variable {s : LoadState κ}

theorem level_seekTo (offset amount : Nat) (s : LoadState κ) :
    Ends (seekTo offset amount) s fun result t => t.limits = s.limits
      ∧ (result = .ok () → t.Level offset) := by
  refine ⟨Reader.limits_seek _ _ _, fun hok => ?_⟩
  cases hseek : (s.reader.seek s.sources offset).1 with
  | ok k => exact Reader.level_seek (Prod.ext hseek rfl)
  | error e =>
    simp only [seekTo, modifyGet, MonadStateOf.modifyGet, StateT.modifyGet, Pure.pure, hseek] at hok
    cases e <;> cases hok

theorem level_next {offset : Nat} (amount : Nat) (hs : s.Level offset) :
    Ends (next amount) s fun result t => t.limits = s.limits ∧ ∀ bytes, result = .ok bytes →
      bytes.length = amount ∧ t.Level (offset + amount) ∧ s.Inside offset (offset + amount) := by
  refine ⟨Reader.limits_consume _ _ _, fun bytes hbytes => ?_⟩
  have hread : s.reader.consume s.sources amount = (.ok bytes, (s.reader.consume s.sources amount).2) :=
    Prod.ext hbytes rfl
  obtain ⟨hlevel, hlimits⟩ := Reader.level_consume hs hread
  exact ⟨Reader.length_consume hread, hlevel, hlimits⟩

theorem confined_readAt (offset amount : Nat) (s : LoadState κ) :
    Ends (readAt offset amount) s (Confined offset s) := by
  rw [readAt]
  split
  · refine Ends.pure ⟨rfl, fun bytes h => ?_⟩
    cases h
    exact .refl s offset
  · refine (level_seekTo offset amount s).bind fun result t ht => ?_
    split
    · exact Ends.pure (.failed ht.1 _)
    · refine (level_next amount (ht.2 rfl)).bind fun result u hu => Ends.pure ⟨hu.1.trans ht.1, ?_⟩
      intro bytes h
      cases result with
      | error e => cases h
      | ok held =>
        cases h
        obtain ⟨hlength, -, hinside⟩ := hu.2 bytes rfl
        rw [hlength]
        exact hinside.of_limits ht.1

theorem confined_readGroups (budget : Nat) {start : Nat} (read : Bytes) {s t : LoadState κ}
    (hlimits : t.limits = s.limits) (hread : s.Inside start (start + read.length))
    (hlevel : t.Level (start + read.length)) :
    Ends (readGroups budget read) t (Confined start s) := by
  induction budget generalizing read t with
  | zero => exact Ends.pure (.failed hlimits _)
  | succ budget ih =>
    rw [readGroups]
    refine (level_next 1 hlevel).bind fun result u hu => ?_
    have hsame := hu.1.trans hlimits
    split
    · exact Ends.pure (.failed hsame _)
    · rename_i bytes
      obtain ⟨hlength, hnext, hinside⟩ := hu.2 bytes rfl
      have hmore : s.Inside start (start + (read ++ bytes).length) := by
        rw [List.length_append, hlength, ← Nat.add_assoc]
        exact hread.trans (hinside.of_limits hlimits)
      split
      · apply ih _ hsame hmore
        rw [List.length_append, hlength, ← Nat.add_assoc]
        exact hnext
      · refine Ends.pure ⟨hsame, fun last h => ?_⟩
        cases h
        exact hmore

theorem confined_readVarint (offset : Nat) (s : LoadState κ) :
    Ends (readVarint offset) s (Confined offset s) := by
  rw [readVarint]
  refine (level_seekTo offset 1 s).bind fun result t ht => ?_
  split
  · exact Ends.pure (.failed ht.1 _)
  · exact confined_readGroups 19 [] ht.1 (.refl s offset) (ht.2 rfl)

theorem confined_readUnits (unit limit budget : Nat) {start : Nat} (read : Bytes) {s t : LoadState κ}
    (hlimits : t.limits = s.limits) (hread : s.Inside start (start + read.length))
    (hlevel : t.Level (start + read.length)) :
    Ends (readUnits unit limit budget read) t (Confined start s) := by
  induction budget generalizing read t with
  | zero => exact Ends.pure (.failed hlimits _)
  | succ budget ih =>
    rw [readUnits]
    refine (level_next unit hlevel).bind fun result u hu => ?_
    have hsame := hu.1.trans hlimits
    split
    · exact Ends.pure (.failed hsame _)
    · rename_i bytes
      obtain ⟨hlength, hnext, hinside⟩ := hu.2 bytes rfl
      have hcount : start + (bytes.reverse ++ read).length = start + read.length + unit := by
        rw [List.length_append, List.length_reverse, hlength]
        omega
      have hmore : s.Inside start (start + (bytes.reverse ++ read).length) := by
        rw [hcount]
        exact hread.trans (hinside.of_limits hlimits)
      dsimp only
      split
      · refine Ends.pure ⟨hsame, fun last h => ?_⟩
        cases h
        rw [List.length_reverse]
        exact hmore
      · apply ih _ hsame hmore
        rw [hcount]
        exact hnext

theorem confined_readText (format : TextFormat) (limit offset : Nat) (s : LoadState κ) :
    Ends (readText format limit offset) s (Confined offset s) := by
  rw [readText]
  dsimp only
  split
  · split
    · exact Ends.pure (.failed rfl _)
    · exact confined_readAt offset _ s
  · refine (level_seekTo offset format.encoding.unit s).bind fun result t ht => ?_
    split
    · exact Ends.pure (.failed ht.1 _)
    · exact confined_readUnits _ limit _ [] ht.1 (.refl s offset) (ht.2 rfl)
  · rename_i length _
    refine ((confined_readAt offset length.width s).and (length_readAt offset _ s)).bind
      fun result t ht => ?_
    obtain ⟨⟨hlimits, hfront⟩, hwidth⟩ := ht
    split
    · exact Ends.pure (.failed hlimits _)
    · rename_i front
      split
      · exact Ends.pure (.failed hlimits _)
      · split
        · exact Ends.pure (.failed hlimits _)
        · exact Ends.pure (.failed hlimits _)
        · rename_i start amount hstart _
          refine (confined_readAt start amount t).bind fun result u hu =>
            Ends.pure ⟨hu.1.trans hlimits, fun bytes h => ?_⟩
          cases result with
          | error e => cases h
          | ok body =>
            cases h
            have hbody := (hu.2 body rfl).of_limits hlimits
            have hbefore := hfront front rfl
            rw [(spanEnd_eq hstart).1, ← hwidth front rfl] at hbody
            rw [List.length_append, ← Nat.add_assoc]
            exact hbefore.trans hbody

/-- The bytes of any layout without parts end inside all windows. -/
theorem confined_readLeaf (config : Config) (frames : List (Frame κ)) (layout : Layout κ)
    (offset : Nat) (s : LoadState κ) :
    Ends (readLeaf config frames layout offset) s (Confined offset s) := by
  cases layout with
  | int | float | fixed | block | constant | padding | align | pointer =>
    exact confined_readAt offset _ s
  | varint signed => exact confined_readVarint offset s
  | text format => exact confined_readText format _ offset s
  | record | array | union | bits => exact Ends.pure (.failed rfl _)

end LoadM

end BinaryLayout
