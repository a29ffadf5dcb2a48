import BinaryLayout.Proofs.Ending.Read
import BinaryLayout.Proofs.Frame.Load
import BinaryLayout.Proofs.Layout.Settable
import BinaryLayout.Proofs.Source.Given

/-!
# Reading twice

One view echoes another when the same reads of both end in the same way: they give the same bytes, or
both run out of bytes. When a read of the first view fails for another reason, nothing is said of the
second view. A window of what was read in one go is such a pair with a window of the bytes that were
read, and so is a view with itself.

## Main definitions

* `Echo`: what became of the same step twice.
* `View.Echoes`: a view that echoes another from an offset on.
* `Echoed`: what became of the same read of two such views, and what the states are then.

## Main statements

* `View.Echoes.window`: windows of views that echo.
* `LoadM.echo_readAt`, `LoadM.echo_readLeaf`: reads at an offset.
* `Together.inWindow`: loading through windows.
-/

namespace BinaryLayout

variable {κ σ α ε : Type}

/-- What became of the same step twice: the same result, or no room both times. If the first step
failed for another reason, anything may have become of the second. -/
inductive Echo (short : ε → Bool) : Except ε α → Except ε α → Prop
  | same (a : α) : Echo short (.ok a) (.ok a)
  | short {e e' : ε} (he : short e = true) (he' : short e' = true) : Echo short (.error e) (.error e')
  | lost {e : ε} {right : Except ε α} (he : short e = false) : Echo short (.error e) right

theorem Echo.refl (short : ε → Bool) (result : Except ε α) : Echo short result result := by
  cases result with
  | ok a => exact .same a
  | error e =>
    cases he : short e with
    | true => exact .short he he
    | false => exact .lost he

/-! ## Views -/

namespace View

/-- From the offset `start` on, what can be done with the first view can be done with the second, and
where the first has too few bytes the second has too. -/
structure Echoes (start : Nat) (v w : View) : Prop where
  moved : ∀ k, start ≤ k → Echo SourceError.isShort (v.moved k) (w.moved k)
  given : ∀ k amount, start ≤ k → 0 < amount →
    Echo SourceError.isConsume (v.given k amount) (w.given k amount)
  known : v.size?.isSome = w.size?.isSome

theorem size?_rewound (v : View) : v.rewound.size? = v.size? := by
  obtain ⟨r, sources⟩ := v
  induction r with
  | source id =>
    show Option.bind (sources.rewound.source? id) _ = Option.bind (sources.source? id) _
    rw [Sources.source?_rewound, Option.bind_map]
    congr 1
    funext s
    cases s <;> rfl
  | detached data origin cursor => rfl
  | window inner limit cursor ih =>
    have hinner : inner.rewound.size? sources.rewound = inner.size? sources := ih
    show (Reader.window inner.rewound limit _).size? sources.rewound = (Reader.window inner limit cursor).size? sources
    rw [Reader.size?, Reader.size?, hinner]

/-- The end of a window is known. -/
theorem isSome_size?_window (v : View) (limit cursor : Nat) : (v.window limit cursor).size?.isSome = true := by
  show ((Reader.window v.1 limit cursor).size? v.2).isSome = true
  rw [Reader.size?]
  cases v.1.size? v.2 <;> rfl

namespace Echoes

variable {start : Nat} {v w v' w' : View}

theorem refl (start : Nat) (v : View) : v.Echoes start v :=
  ⟨fun _ _ => .refl _ _, fun _ _ _ _ => .refl _ _, rfl⟩

/-- What was read before does not matter. -/
theorem of_rewound (h : v.Echoes start w) (hv : v'.rewound = v.rewound) (hw : w'.rewound = w.rewound) :
    v'.Echoes start w' := by
  refine ⟨fun k hk => ?_, fun k amount hk hpos => ?_, ?_⟩
  · rw [← moved_rewound, hv, moved_rewound, ← w'.moved_rewound, hw, moved_rewound]
    exact h.moved k hk
  · rw [← given_rewound, hv, given_rewound, ← w'.given_rewound, hw, given_rewound]
    exact h.given k amount hk hpos
  · rw [← size?_rewound, hv, size?_rewound, ← w'.size?_rewound, hw, size?_rewound]
    exact h.known

/-- Windows of views that echo. -/
theorem window (h : v.Echoes start w) (limit i j : Nat) :
    (v.window limit i).Echoes start (w.window limit j) := by
  refine ⟨fun k hk => ?_, fun k amount hk hpos => ?_, ?_⟩
  · rw [moved_window, moved_window]
    split
    · exact .short rfl rfl
    · exact h.moved k hk
  · rw [given_window, given_window]
    split
    · exact .short rfl rfl
    · exact h.given k amount hk hpos
  · rw [isSome_size?_window, isSome_size?_window]

end Echoes

end View

/-! ## States -/

/-- The views that atoms are loaded from echo. -/
def LoadState.Echoes (start : Nat) (s s' : LoadState κ) : Prop := s.view.Echoes start s'.view

/-- The views echo, and both stand at the offset. -/
structure LoadState.EchoesAt (start k : Nat) (s s' : LoadState κ) : Prop where
  echoes : s.Echoes start s'
  left : s.view.StandsAt k
  right : s'.view.StandsAt k

/-- What became of the same read of two views: both gave the same, and then `ok` holds, or both found
too few bytes, and then `failed` holds. If the first read failed for another reason, anything may have
become of the second. -/
inductive Echoed (ok : α → σ → σ → Prop) (failed : σ → σ → Prop) :
    Except Error α → σ → Except Error α → σ → Prop
  | same {a : α} {t t' : σ} (h : ok a t t') : Echoed ok failed (.ok a) t (.ok a) t'
  | short {e e' : Error} {t t' : σ} (he : e.isConsume = true) (he' : e'.isConsume = true)
    (h : failed t t') : Echoed ok failed (.error e) t (.error e') t'
  | lost {e : Error} {t t' : σ} {right : Except Error α} (he : e.isConsume = false) :
    Echoed ok failed (.error e) t right t'

/-- The same read, after which nothing is known of where the views stand. -/
abbrev ReadEchoed (start : Nat) : Except Error α → LoadState κ → Except Error α → LoadState κ → Prop :=
  Echoed (fun _ t t' => t.Echoes start t') (LoadState.Echoes start)

theorem Error.isConsume_ofSource (e : SourceError) : (Error.ofSource e).isConsume = e.isConsume := by
  cases e <;> rfl

/-- A failure of both, whatever it is. -/
theorem Echoed.failed {ok : α → σ → σ → Prop} {failed : σ → σ → Prop} {t t' : σ} (h : failed t t')
    (e : Error) : Echoed ok failed (.error e) t (.error e) t' := by
  cases he : e.isConsume with
  | true => exact .short he he h
  | false => exact .lost he

namespace LoadM

variable {start k : Nat} {s s' : LoadState κ}

theorem echo_seekTo {offset : Nat} (amount : Nat) (h : s.Echoes start s') (hstart : start ≤ offset) :
    Together (seekTo offset amount) (seekTo offset amount) s s'
      (Echoed (fun _ t t' => t.EchoesAt start offset t') (LoadState.Echoes start)) := by
  obtain ⟨hleft, hstandsLeft⟩ := s.view.seek_moved offset
  obtain ⟨hright, hstandsRight⟩ := s'.view.seek_moved offset
  have hmoved := h.moved offset hstart
  have hkept := h.of_rewound (s.view.rewound_seek offset) (s'.view.rewound_seek offset)
  rw [← hleft, ← hright] at hmoved
  simp only [Together, seekTo, modifyGet, MonadStateOf.modifyGet, StateT.modifyGet, Pure.pure]
  simp only [View.seek, LoadState.view] at hmoved hkept hstandsLeft hstandsRight
  generalize s.reader.seek s.sources offset = one at hmoved hkept hstandsLeft
  generalize s'.reader.seek s'.sources offset = two at hmoved hkept hstandsRight
  obtain ⟨e | i, r, sources⟩ := one
  · obtain ⟨e' | i', r', sources'⟩ := two
    · cases hmoved with
      | short he he' =>
        cases e with
        | consume | outOfBounds =>
          cases e' with
          | consume | outOfBounds => exact .short rfl rfl hkept
          | io | store | readOnly | poisoned => cases he'
        | io | store | readOnly | poisoned => cases he
      | lost he =>
        cases e with
        | consume | outOfBounds => cases he
        | io | store | readOnly | poisoned => exact .lost rfl
    · cases hmoved with
      | lost he =>
        cases e with
        | consume | outOfBounds => cases he
        | io | store | readOnly | poisoned => exact .lost rfl
  · obtain ⟨e' | i', r', sources'⟩ := two
    · cases hmoved
    · exact .same ⟨hkept, hstandsLeft i rfl, hstandsRight i' rfl⟩

/-- The same read where both views stand. -/
theorem echo_next {amount : Nat} (hpos : 0 < amount) (h : s.EchoesAt start k s') (hstart : start ≤ k) :
    Together (next amount) (next amount) s s' fun result t result' t' =>
      Echo SourceError.isConsume result result' ∧ t.Echoes start t'
        ∧ (result.isOk = true → result'.isOk = true → t.EchoesAt start (k + amount) t') := by
  obtain ⟨hleft, hstandsLeft⟩ := View.consume_given h.left amount
  obtain ⟨hright, hstandsRight⟩ := View.consume_given h.right amount
  have hgiven := h.echoes.given k amount hstart hpos
  have hkept := h.echoes.of_rewound (s.view.rewound_consume amount) (s'.view.rewound_consume amount)
  rw [← hleft, ← hright] at hgiven
  simp only [Together, next, modifyGet, MonadStateOf.modifyGet, StateT.modifyGet, Pure.pure]
  simp only [View.consume, LoadState.view] at hgiven hkept hstandsLeft hstandsRight
  generalize s.reader.consume s.sources amount = one at hgiven hkept hstandsLeft
  generalize s'.reader.consume s'.sources amount = two at hgiven hkept hstandsRight
  obtain ⟨e | bytes, r, sources⟩ := one
  · exact ⟨hgiven, hkept, fun h => by cases h⟩
  · obtain ⟨e' | bytes', r', sources'⟩ := two
    · exact ⟨hgiven, hkept, fun _ h => by cases h⟩
    · exact ⟨hgiven, hkept, fun _ _ => ⟨hkept, hstandsLeft bytes rfl, hstandsRight bytes' rfl⟩⟩

/-- Whether the end of a view is known. -/
theorem echo_viewEnd (h : s.Echoes start s') :
    Together viewEnd viewEnd s s' fun result t result' t' =>
      result.isSome = result'.isSome ∧ t.Echoes start t' :=
  ⟨h.known, h⟩

/-- A read at an offset. -/
theorem echo_readAt {offset : Nat} (amount : Nat) (h : s.Echoes start s') (hstart : start ≤ offset) :
    Together (readAt offset amount) (readAt offset amount) s s' (ReadEchoed start) := by
  rw [readAt]
  split
  · exact Together.pure (.same h)
  · rename_i hzero
    refine (echo_seekTo amount h hstart).bind fun result t result' t' ht => ?_
    cases ht with
    | same hat =>
      refine (echo_next (Nat.pos_of_ne_zero hzero) hat hstart).bind fun result u result' u' hu =>
        Together.pure ?_
      obtain ⟨hecho, hkept, -⟩ := hu
      cases hecho with
      | same bytes => exact .same hkept
      | short he he' =>
        exact .short ((Error.isConsume_ofSource _).trans he) ((Error.isConsume_ofSource _).trans he') hkept
      | lost he => exact .lost ((Error.isConsume_ofSource _).trans he)
    | short he he' hkept => exact Together.pure (.short he he' hkept)
    | lost he => exact Echoed.lost he

theorem echo_readUnits {unit : Nat} (hunit : 0 < unit) (limit budget : Nat) (read : Bytes)
    (h : s.EchoesAt start k s') (hstart : start ≤ k) :
    Together (readUnits unit limit budget read) (readUnits unit limit budget read) s s'
      (ReadEchoed start) := by
  induction budget generalizing read s s' k with
  | zero => exact Together.pure (.failed h.echoes _)
  | succ budget ih =>
    rw [readUnits]
    refine (echo_next hunit h hstart).bind fun result t result' t' ht => ?_
    obtain ⟨hecho, hkept, hat⟩ := ht
    cases hecho with
    | same bytes =>
      dsimp only
      split
      · exact Together.pure (.same hkept)
      · exact ih _ (hat rfl rfl) (Nat.le_trans hstart (Nat.le_add_right _ _))
    | short he he' =>
      exact Together.pure (.short ((Error.isConsume_ofSource _).trans he)
        ((Error.isConsume_ofSource _).trans he') hkept)
    | lost he => exact Echoed.lost ((Error.isConsume_ofSource _).trans he)

theorem echo_readText (format : TextFormat) (limit : Nat) {offset : Nat} (h : s.Echoes start s')
    (hstart : start ≤ offset) :
    Together (readText format limit offset) (readText format limit offset) s s' (ReadEchoed start) := by
  rw [readText]
  dsimp only
  split
  · split
    · exact Together.pure (.failed h _)
    · exact echo_readAt _ h hstart
  · refine (echo_seekTo _ h hstart).bind fun result t result' t' ht => ?_
    cases ht with
    | same hat => exact echo_readUnits (unit_pos _) _ _ [] hat hstart
    | short he he' hkept => exact Together.pure (.short he he' hkept)
    | lost he => exact Echoed.lost he
  · rename_i length _
    refine (echo_readAt length.width h hstart).bind fun result t result' t' ht => ?_
    cases ht with
    | same hkept =>
      dsimp only
      split
      · exact Together.pure (.failed hkept _)
      · split
        · exact Together.pure (.failed hkept _)
        · exact Together.pure (.failed hkept _)
        · rename_i hspan _
          obtain ⟨rfl, -⟩ := spanEnd_eq hspan
          refine (echo_readAt _ hkept (Nat.le_trans hstart (Nat.le_add_right _ _))).bind
            fun body u body' u' hu => Together.pure ?_
          cases hu with
          | same hkept => exact .same hkept
          | short he he' hkept => exact .short he he' hkept
          | lost he => exact .lost he
    | short he he' hkept => exact Together.pure (.short he he' hkept)
    | lost he => exact Echoed.lost he

end LoadM

/-- The offset of the directly enclosing atom. -/
def Frame.base (frames : List (Frame κ)) : Nat :=
  match frames with
  | [] => 0
  | f :: _ => f.info.offset

theorem Frame.base_of_context {frames frames' : List (Frame κ)} (h : context frames = context frames') :
    base frames = base frames' := by
  have hbase (frames : List (Frame κ)) : base frames = (context frames).base := by cases frames <;> rfl
  rw [hbase, hbase, h]

theorem alignPadding_eq (frames : List (Frame κ)) (offset alignment : Nat) :
    alignPadding frames offset alignment = alignPad (Frame.base frames) offset alignment := by
  cases frames <;> rfl

/-- The bytes of any settable layout without parts. -/
theorem LoadM.echo_readLeaf {start : Nat} {s s' : LoadState κ} {rules : Rules κ} (config : Config)
    {frames frames' : List (Frame κ)} (hframes : Frame.base frames = Frame.base frames')
    {layout : Layout κ} (hlayout : layout.SettableHere rules) {offset : Nat} (h : s.Echoes start s')
    (hstart : start ≤ offset) :
    Together (readLeaf config frames layout offset) (readLeaf config frames' layout offset) s s'
      (ReadEchoed start) := by
  cases layout with
  | int | block | constant | padding | pointer => exact echo_readAt _ h hstart
  | align alignment =>
    rw [readLeaf, readLeaf, alignPadding_eq, alignPadding_eq, hframes]
    exact echo_readAt _ h hstart
  | text format => exact echo_readText format _ h hstart
  | record | array | union | bits => exact Together.pure (.failed h _)
  | float | fixed | varint => exact hlayout.elim

/-- Loading through windows of views that echo. -/
theorem Together.inWindow {start limit : Nat} {s s' : LoadState κ} {m m' : LoadM κ α}
    (hm : Harmless LoadState.record m) (hm' : Harmless LoadState.record m')
    {post : α → α → Prop} (h : s.Echoes start s')
    (hboth : ∀ t t' : LoadState κ, t.Echoes start t' →
      Together m m' t t' fun a _ a' _ => post a a') :
    Together (LoadM.inWindow limit m) (LoadM.inWindow limit m') s s' fun a t a' t' =>
      post a a' ∧ t.Echoes start t' := by
  have hinside := hboth { s with reader := .window s.reader limit 0 }
    { s' with reader := .window s'.reader limit 0 } (h.window limit 0 0)
  refine ⟨hinside, h.of_rewound ?_ ?_⟩
  · exact (LoadM.harmless_inWindow limit hm s).contents
  · exact (LoadM.harmless_inWindow limit hm' s').contents

end BinaryLayout
