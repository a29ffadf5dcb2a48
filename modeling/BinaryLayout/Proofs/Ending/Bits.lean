import BinaryLayout.Proofs.Ending.Read
import BinaryLayout.Proofs.Span.Bits

/-!
# Bits up to a border

Bits are handed out of bytes that are read one at a time. A byte that is not there lies past the end
of the view, and it is wanted only for bits that are still to be handed out. So an atom whose width is
known beforehand wants no byte past its own last one.

## Main definitions

* `BitLoadState.Ahead`: reading goes on, and not past the border.
* `Outcome.HeedsBits`: what an atom of bits was made into.

## Main statements

* `heedsBits_loadBits`: an atom of bits that was loaded.
* `notShort_allocateBits`: default bits are not short of bytes.
-/

namespace BinaryLayout

variable {κ : Type}

open Atom BitLoadState

/-! ## Handing out bits -/

/-- Reading went on from one state to another, and not past the border. -/
structure BitLoadState.Ahead (B : Border) (s t : BitLoadState κ) : Prop where
  stands : B.At t.next t.base.view
  next : s.next ≤ t.next
  within : t.next ≤ max s.next B.stop
  /-- Bits are handed out and not taken back. -/
  bits : 8 * s.next + t.pending.length ≤ 8 * t.next + s.pending.length

variable {B : Border}

theorem BitLoadState.Ahead.refl {s : BitLoadState κ} (hs : B.At s.next s.base.view) : s.Ahead B s :=
  ⟨hs, Nat.le_refl _, Nat.le_max_left _ _, Nat.le_refl _⟩

theorem BitLoadState.Ahead.trans {s t u : BitLoadState κ} (hst : s.Ahead B t) (htu : t.Ahead B u) :
    s.Ahead B u := by
  have hwithin := hst.within
  have hfurther := htu.within
  have hbits := hst.bits
  have hmore := htu.bits
  exact ⟨htu.stands, Nat.le_trans hst.next htu.next, by omega, by omega⟩

/-- The error is not for want of a byte after the last of `count` bits, handed out from `s` on. -/
def BitLoadState.Asks (s : BitLoadState κ) (count : Nat) (e : Error) : Prop :=
  ∀ limit, 8 * s.next + count ≤ 8 * limit + s.pending.length → e.Wants limit

/-- What is wanted for later bits is wanted for all. -/
theorem BitLoadState.Asks.after {s t : BitLoadState κ} {count first rest : Nat} {e : Error}
    (h : t.Asks rest e) (hhands : s.Hands first t) (hcount : first + rest ≤ count) : s.Asks count e := by
  intro limit hlimit
  refine h limit ?_
  rw [Hands] at hhands
  omega

theorem BitLoadState.asks_of_other {s : BitLoadState κ} {count : Nat} {e : Error}
    (h : e.isConsume = false) : s.Asks count e :=
  fun _ _ => Error.wants_of_other h

theorem BitLoadState.Asks.within {s : BitLoadState κ} {count : Nat} {e : Error} (h : s.Asks count e)
    (outer : Path) : s.Asks count (e.within outer) :=
  fun limit hlimit => (h limit hlimit).within outer

namespace BitLoadM

variable {s : BitLoadState κ}

/-- A byte is read where the view stands. If there is none, it is wanted. -/
theorem ahead_fetch (hs : B.At s.next s.base.view) (hnil : s.pending = []) :
    Ends fetch s fun result t => s.Ahead B t
      ∧ ∀ e, result = .error e → e.Overruns B.stop ∧ e.Wants (s.next + 1) := by
  obtain ⟨hok, hfailed⟩ := LoadM.bordered_next (s := s.base) 1 hs
  refine ends_fetch ?_
  rw [Ends]
  cases hresult : (LoadM.next 1 s.base).1 with
  | ok bytes =>
    obtain ⟨-, hmoved, hinside⟩ := hok bytes hresult
    have hroom := hinside Nat.one_pos
    refine ⟨⟨hmoved, Nat.le_succ _, Nat.le_trans hroom (Nat.le_max_right _ _), ?_⟩,
      fun _ he => by cases he⟩
    show 8 * s.next + (s.reader.refill (bytes.headD 0)).pending.length ≤ 8 * (s.next + 1) + s.pending.length
    rw [BitReader.length_pending, BitReader.remaining_refill, hnil]
    omega
  | error cause =>
    obtain ⟨hstays, hlacks⟩ := hfailed cause hresult
    refine ⟨⟨hstays, Nat.le_refl _, Nat.le_max_left _ _, Nat.le_refl _⟩, fun e he => ?_⟩
    cases he
    cases cause with
    | consume => exact ⟨hlacks.2.2, Nat.le_refl _⟩
    | io | outOfBounds | store | readOnly | poisoned =>
      exact ⟨Error.overruns_ofSource hlacks, Error.wants_ofSource hlacks⟩

/-- A field of bits handed out. -/
theorem ahead_read (width : Nat) (hs : B.At s.next s.base.view) :
    Ends (read width) s fun result t => s.Ahead B t
      ∧ (∀ value, result = .ok value → value.width = width ∧ s.Hands width t)
      ∧ ∀ e, result = .error e → e.Overruns B.stop ∧ s.Asks width e := by
  have hread : Ends (read width) s fun result t => s.Ahead B t
      ∧ ∀ e, result = .error e → e.Overruns B.stop ∧ s.Asks width e := by
    refine (ends_read (fun done t => s.Ahead B t ∧ s.Hands done.length t)
      (fun done t => s.Ahead B t ∧ s.Hands done.length t)
      (fun e t => s.Ahead B t ∧ e.Overruns B.stop ∧ s.Asks width e)
      (fun done t hmore ht hnone => ?_) (fun _ _ ht _ => ht) (fun done t count hpos hle _ ht => ?_)
      ⟨.refl hs, rfl⟩).mono fun result t ht => ?_
    · obtain ⟨hahead, hhands⟩ := ht
      have hnil := t.pending_eq_nil.2 hnone
      refine ((ahead_fetch hahead.stands hnil).and (order_fetch t)).mono fun result u hu => ?_
      obtain ⟨⟨hnext, hfailed⟩, -, hcounts⟩ := hu
      rw [Hands] at hhands
      cases result with
      | ok _ =>
        have hlength := t.length_pending
        have hlength' := u.length_pending
        refine ⟨hahead.trans hnext, ?_⟩
        rw [Hands]
        omega
      | error e =>
        obtain ⟨hover, hwants⟩ := hfailed e rfl
        refine ⟨hahead.trans hnext, hover, fun limit hlimit => hwants.mono ?_⟩
        rw [hnil, List.length_nil] at hhands
        omega
    · obtain ⟨hahead, hhands⟩ := ht
      have hbits := hahead.bits
      have hlength := t.length_pending
      rw [Hands] at hhands
      refine ⟨⟨hahead.stands, hahead.next, hahead.within, ?_⟩, ?_⟩
      · simp only [pending_skip, next_skip, List.length_drop]
        omega
      · rw [Hands]
        simp only [pending_skip, next_skip, List.length_drop, List.length_append, List.length_take]
        omega
    · cases result with
      | ok value => exact ⟨ht.choose_spec.2.2.2.1, fun _ he => by cases he⟩
      | error e => exact ⟨ht.1, fun e' he' => by cases he'; exact ht.2⟩
  refine (hread.and (hands_read width s)).mono fun result t ht => ⟨ht.1.1, fun value hvalue => ?_, ht.1.2⟩
  subst hvalue
  exact ht.2

end BitLoadM

/-! ## Atoms of bits -/

/-- What an atom of bits was made into that had `had` bits before: no more were added than were handed
out. If it is known that it gets so many, exactly those were handed out and none after them wanted. -/
structure Outcome.HeedsBits (B : Border) (had : Nat) (known? : Option Nat) (s : BitLoadState κ)
    (out : Outcome κ) (t : BitLoadState κ) : Prop where
  ahead : s.Ahead B t
  counted : out.error? = none →
    8 * s.next + t.pending.length + out.atom.bitCount ≤ 8 * t.next + s.pending.length + had
  overruns : ∀ e, out.error? = some e → e.Overruns B.stop
  width : ∀ width, known? = some width → out.error? = none →
    out.atom.bitCount = had + width ∧ s.Hands width t
  asks : ∀ width, known? = some width → ∀ e, out.error? = some e → s.Asks width e

namespace Outcome.HeedsBits

variable {had had' : Nat} {known? : Option Nat} {s t u : BitLoadState κ} {out : Outcome κ}

/-- A failure for another reason than a want of bytes. -/
theorem other (h : s.Ahead B t) (a : Atom κ) {e : Error} (he : e.isConsume = false) :
    Outcome.HeedsBits B had known? s ⟨a, some e⟩ t :=
  ⟨h, nofun, fun _ h => by cases h; exact Error.overruns_of_other he, fun _ _ => nofun,
    fun _ _ _ h => by cases h; exact asks_of_other he⟩

/-- Less is known of the width. -/
theorem forget {less? : Option Nat} (h : out.HeedsBits B had known? s t)
    (hless : ∀ width, less? = some width → known? = some width) : out.HeedsBits B had less? s t :=
  ⟨h.ahead, h.counted, h.overruns, fun width hwidth => h.width width (hless width hwidth),
    fun width hwidth => h.asks width (hless width hwidth)⟩

/-- Nothing was handed out before. -/
theorem ofStart (hst : s.Ahead B t) (hhands : s.Hands 0 t) (h : out.HeedsBits B had known? t u) :
    out.HeedsBits B had known? s u := by
  refine ⟨hst.trans h.ahead, fun hnone => ?_, h.overruns, fun width hwidth hnone => ?_,
    fun width hwidth e he => ?_⟩
  · have hcounted := h.counted hnone
    rw [Hands] at hhands
    omega
  · obtain ⟨hcount, hmore⟩ := h.width width hwidth hnone
    rw [Hands] at hhands hmore ⊢
    omega
  · exact (h.asks width hwidth e he).after hhands (by omega)

/-- A part failed, after `first` bits were handed out. -/
theorem ofPart {part : Outcome κ} {partKnown? : Option Nat} {e : Error}
    (h : part.HeedsBits B 0 partKnown? s t) (herror : part.error? = some e) (a : Atom κ) (outer : Path)
    (hknown : ∀ width, known? = some width → ∃ first ≤ width, partKnown? = some first) :
    Outcome.HeedsBits B had known? s ⟨a, some (e.within outer)⟩ t := by
  refine ⟨h.ahead, nofun, fun _ h' => ?_, fun _ _ => nofun, fun width hwidth _ h' => ?_⟩
  · cases h'
    exact (h.overruns e herror).within outer
  · cases h'
    obtain ⟨first, hle, hfirst⟩ := hknown width hwidth
    exact (((h.asks first hfirst e herror).within outer).after (show s.Hands 0 s from rfl) (by omega))

/-- A part was loaded before, and the rest after it. -/
theorem after {part : Outcome κ} {partKnown? restKnown? : Option Nat}
    (hpart : part.HeedsBits B 0 partKnown? s t) (herror : part.error? = none)
    (hhad : had' = had + part.atom.bitCount) (h : out.HeedsBits B had' restKnown? t u)
    (hknown : ∀ width, known? = some width → ∃ first rest, partKnown? = some first
      ∧ restKnown? = some rest ∧ first + rest = width) : out.HeedsBits B had known? s u := by
  have hbefore := hpart.counted herror
  refine ⟨hpart.ahead.trans h.ahead, fun hnone => ?_, h.overruns, fun width hwidth hnone => ?_,
    fun width hwidth e he => ?_⟩
  · have hafter := h.counted hnone
    omega
  · obtain ⟨first, rest, hfirst, hrest, rfl⟩ := hknown width hwidth
    obtain ⟨hcount, hhands⟩ := hpart.width first hfirst herror
    obtain ⟨hcountRest, hhandsRest⟩ := h.width rest hrest hnone
    rw [Hands] at hhands hhandsRest ⊢
    omega
  · obtain ⟨first, rest, hfirst, hrest, rfl⟩ := hknown width hwidth
    exact (h.asks rest hrest e he).after (hpart.width first hfirst herror).2 (Nat.le_refl _)

end Outcome.HeedsBits

/-- What blank atoms of bits are made into. -/
def HeedingBits (part : LoadPart (BitLoadM κ) κ) : Prop :=
  ∀ (B : Border) layout frames a s, a.info.layout = .bits layout → B.At s.next s.base.view →
    Ends (part frames a) s (Outcome.HeedsBits B 0 layout.staticBits s)

/-- A complete atom of bits. -/
theorem Frame.heedsBits (f : Frame κ) {s : BitLoadState κ} (hs : B.At s.next s.base.view) :
    Outcome.HeedsBits B f.close.bitCount (some 0) s ⟨f.close.ready, none⟩ s := by
  refine ⟨.refl hs, fun _ => ?_, nofun, fun width hwidth _ => ?_, fun _ _ => nofun⟩
  · exact Nat.add_le_add_left (Nat.le_of_eq (bitCount_ready f.close)) _
  · cases hwidth
    exact ⟨bitCount_ready f.close, show s.Hands 0 s from rfl⟩

section Load

variable {env : Env κ} {part : LoadPart (BitLoadM κ) κ}

/-- The width of some fields goes on from the width before them. -/
theorem le_of_staticBitsOfFields {total width : Nat} {fields : List (BitField κ (BitLayout κ))}
    (h : staticBitsOfFields total fields = some width) : total ≤ width := by
  induction fields generalizing total with
  | nil =>
    cases h
    exact Nat.le_refl _
  | cons field fields ih =>
    obtain ⟨_, bits, -, -, hrest⟩ := staticBitsOfFields_cons h
    exact Nat.le_trans (Nat.le_add_right _ _) (ih hrest)

/-- A new atom of bits takes no bits. -/
theorem BitLoadM.ahead_spawn (name : String) (layout : AtomLayout κ) (offset : Nat)
    {s : BitLoadState κ} (hs : B.At s.next s.base.view) :
    Ends (BitLoadM.ofLedger (LedgerM.spawn name layout offset)) s fun blank t =>
      blank.info.layout = layout ∧ s.Ahead B t ∧ s.Hands 0 t :=
  ⟨rfl, ⟨hs, Nat.le_refl _, Nat.le_max_left _ _, Nat.le_refl _⟩, rfl⟩

theorem heedsBits_loadBitFields (hpart : HeedingBits part) (frames : List (Frame κ)) {f : Frame κ}
    (hf : f.content = .group) (hright : f.right = []) (index cursor total : Nat)
    (fields : List (BitField κ (BitLayout κ))) {s : BitLoadState κ} (hs : B.At s.next s.base.view) :
    Ends (loadBitFields env part frames f index cursor fields) s
      (Outcome.HeedsBits B f.close.bitCount ((staticBitsOfFields total fields).map (· - total)) s) := by
  induction fields generalizing f index cursor total s with
  | nil =>
    have hnone : (staticBitsOfFields total ([] : List (BitField κ (BitLayout κ)))).map (· - total)
        = some 0 := congrArg some (Nat.sub_self total)
    rw [hnone]
    exact Ends.pure (f.heedsBits hs)
  | cons field fields ih =>
    rw [loadBitFields]
    split
    · rename_i e hresolve
      exact Ends.pure (.other (.refl hs) _
        (by rw [Error.isConsume_within]; exact Env.isConsume_resolveBits hresolve))
    · rename_i layout hresolve
      refine (BitLoadM.ahead_spawn field.name (.bits layout) cursor hs).bind fun blank t ht => ?_
      obtain ⟨hlayout, hahead, hhands⟩ := ht
      refine (hpart B layout _ _ t hlayout hahead.stands).bind fun out u hu => ?_
      have hout := hu.ofStart hahead hhands
      -- A known width of all fields is one of the first field and one of those after it.
      have hknown (width : Nat)
          (h : (staticBitsOfFields total (field :: fields)).map (· - total) = some width) :
          ∃ bits rest, layout.staticBits = some bits
            ∧ (staticBitsOfFields (total + bits) fields).map (· - (total + bits)) = some rest
            ∧ bits + rest = width := by
        rw [Option.map_eq_some_iff] at h
        obtain ⟨all, hall, rfl⟩ := h
        obtain ⟨given, bits, hgiven, hbits, hrest⟩ := staticBitsOfFields_cons hall
        rw [hgiven] at hresolve
        cases hresolve
        have hle := le_of_staticBitsOfFields hrest
        exact ⟨bits, all - (total + bits), hbits, congrArg (Option.map _) hrest, by omega⟩
      dsimp only
      split
      · rename_i e herror
        exact Ends.pure (hout.ofPart herror _ _ fun width h => by
          obtain ⟨bits, rest, hbits, -, rfl⟩ := hknown width h
          exact ⟨bits, Nat.le_add_right _ _, hbits⟩)
      · rename_i herror
        cases hbits : layout.staticBits with
        | none =>
          refine (ih (f := f.push out.atom) hf hright _ _ total hout.ahead.stands).mono fun _ _ hrest => ?_
          refine hout.after herror (Frame.bitCount_push hf hright _) hrest fun width h => ?_
          obtain ⟨bits, rest, hsome, -⟩ := hknown width h
          cases hbits.symm.trans hsome
        | some bits =>
          refine (ih (f := f.push out.atom) hf hright _ _ (total + bits) hout.ahead.stands).mono
            fun _ _ hrest => ?_
          refine hout.after herror (Frame.bitCount_push hf hright _) hrest fun width h => ?_
          obtain ⟨bits', rest, hsome, hrest', hsum⟩ := hknown width h
          cases hbits.symm.trans hsome
          exact ⟨bits, rest, hbits, hrest', hsum⟩

theorem heedsBits_loadBitElements (hpart : HeedingBits part) (element : BitLayout κ)
    (shape : BitShape κ) (frames : List (Frame κ)) (budget : Nat) {f : Frame κ}
    (hf : f.content = .group) (hright : f.right = []) (index cursor : Nat) {known? : Option Nat}
    (hknown : ∀ width, known? = some width → ∃ count bits, shape = .counted count
      ∧ element.staticBits = some bits ∧ width = bits * (count - index))
    {s : BitLoadState κ} (hs : B.At s.next s.base.view) :
    Ends (loadBitElements env part element shape frames budget f index cursor) s
      (Outcome.HeedsBits B f.close.bitCount known? s) := by
  have hcomplete (t : BitLoadState κ) (ht : B.At t.next t.base.view) (index : Nat)
      (known? : Option Nat) (hknown : ∀ width, known? = some width → ∃ count bits,
        shape = .counted count ∧ element.staticBits = some bits ∧ width = bits * (count - index))
      (hdone : shape.isComplete index = true) (f : Frame κ) :
      Outcome.HeedsBits B f.close.bitCount known? t ⟨f.close.ready, none⟩ t := by
    refine (f.heedsBits ht).forget fun width hwidth => ?_
    obtain ⟨count, bits, rfl, -, rfl⟩ := hknown width hwidth
    rw [Nat.sub_eq_zero_of_le (of_decide_eq_true hdone), Nat.mul_zero]
  induction budget generalizing f index cursor known? s with
  | zero =>
    rw [loadBitElements]
    split
    · exact Ends.pure (hcomplete s hs index known? hknown ‹_› f)
    · exact Ends.pure (.other (.refl hs) _ rfl)
  | succ budget ih =>
    rw [loadBitElements]
    split
    · exact Ends.pure (hcomplete s hs index known? hknown ‹_› f)
    · rename_i hmore
      have hremaining (rest : Nat) (hrest : known?.map (· - element.staticBits.getD 0) = some rest) :
          ∃ count bits, shape = .counted count ∧ element.staticBits = some bits
            ∧ rest = bits * (count - (index + 1)) := by
        rw [Option.map_eq_some_iff] at hrest
        obtain ⟨width, hwidth, rfl⟩ := hrest
        obtain ⟨count, bits, rfl, hbits, rfl⟩ := hknown width hwidth
        refine ⟨count, bits, rfl, hbits, ?_⟩
        rw [hbits, Option.getD_some, ← Nat.sub_sub, Nat.mul_sub bits (count - index), Nat.mul_one]
      refine (BitLoadM.ahead_spawn (toString index) (.bits element) cursor hs).bind fun blank t ht => ?_
      obtain ⟨hlayout, hahead, hhands⟩ := ht
      refine (hpart B element _ _ t hlayout hahead.stands).bind fun out u hu => ?_
      have hout := hu.ofStart hahead hhands
      have hpush := Frame.bitCount_push hf hright out.atom
      split
      · rename_i herror
        split
        · rename_i haccepts
          refine Ends.pure (hout.after herror hpush ((f.push out.atom).heedsBits hout.ahead.stands)
            fun width h => ?_)
          obtain ⟨count, _, rfl, -⟩ := hknown width h
          cases haccepts
        · refine (ih (f := f.push out.atom) hf hright (index + 1) _ hremaining
            hout.ahead.stands).mono fun _ _ hrest => hout.after herror hpush hrest fun width h => ?_
          obtain ⟨count, bits, rfl, hbits, rfl⟩ := hknown width h
          refine ⟨bits, _, hbits, congrArg (Option.map _) h, ?_⟩
          have hindex : index < count := by simpa [BitShape.isComplete] using hmore
          have hle : bits ≤ bits * (count - index) := Nat.le_mul_of_pos_right _ (by omega)
          rw [hbits, Option.getD_some]
          exact Nat.add_sub_of_le hle
      · rename_i e count herror
        exact Ends.pure (hout.ofPart herror _ _ fun width h => by
          obtain ⟨count, bits, hshape, hbits, rfl⟩ := hknown width h
          cases hshape
          have hindex : index < count := by simpa [BitShape.isComplete] using hmore
          exact ⟨bits, Nat.le_mul_of_pos_right _ (by omega), hbits⟩)
      · rename_i e rule herror
        have hnone (width : Nat) (h : known? = some width) : False := by
          obtain ⟨count, _, hshape, -⟩ := hknown width h
          cases hshape
        split
        · exact Ends.pure (hout.ofPart herror _ _ fun width h => (hnone width h).elim)
        · refine Ends.via (fun _ v => v.next = u.next ∧ v.pending = u.pending
            ∧ v.base.view = u.base.view) ⟨rfl, rfl, rfl⟩ fun _ v hv => ?_
          obtain ⟨hnext, hpending, hview⟩ := hv
          have hdrop : s.Ahead B v := by
            refine hout.ahead.trans ⟨?_, Nat.le_of_eq hnext.symm, ?_, ?_⟩
            · rw [hnext, hview]
              exact hout.ahead.stands
            · rw [hnext]
              exact Nat.le_max_left _ _
            · exact Nat.le_of_eq (by rw [hnext, hpending])
          have hends (w : BitLoadState κ) (hw : s.Ahead B w) :
              Outcome.HeedsBits B f.close.bitCount known? s ⟨f.close.ready, none⟩ w := by
            refine ⟨hw, fun _ => ?_, (fun _ h => by cases h), fun width h => (hnone width h).elim,
              fun _ _ _ h => by cases h⟩
            have hbits := hw.bits
            rw [bitCount_ready]
            omega
          have hbounded : Ends (BitLoadM.bounded : BitLoadM κ Bool) v fun _ w => w = v := rfl
          refine hbounded.bind fun known w hw => ?_
          subst hw
          split
          · refine Ends.via (fun _ x => s.Ahead B x) ⟨hdrop.stands, hdrop.next, hdrop.within, hdrop.bits⟩
              fun _ x hx => Ends.pure (hends x hx)
          · exact Ends.pure ⟨hdrop, (fun h => by cases h),
              fun _ h => by cases h; exact (hout.overruns e herror).within _,
              (fun _ _ h => by cases h), fun width h => (hnone width h).elim⟩

/-- An atom of bits heeds the end of the view. -/
theorem heedsBits_loadBits (env : Env κ) (depth : Nat) : HeedingBits (loadBits env depth) := by
  induction depth with
  | zero => exact fun _ _ _ _ _ _ hs => Ends.pure (.other (.refl hs) _ rfl)
  | succ depth ih =>
    intro B layout frames a s hlayout hs
    have hempty : (a.fill .group []).frame.close.bitCount = 0 := by
      rw [close_frame]
      rfl
    rw [loadBits, hlayout]
    cases layout with
    | int bits signed =>
      refine (BitLoadM.ahead_read bits hs).bind fun result t ht => ?_
      obtain ⟨hahead, hok, herror⟩ := ht
      cases result with
      | error e =>
        obtain ⟨hover, hasks⟩ := herror e rfl
        exact Ends.pure ⟨hahead, (fun h => by cases h), fun _ h => by cases h; exact hover,
          (fun _ _ h => by cases h),
          fun _ hknown _ h => by cases hknown; cases h; exact hasks⟩
      | ok value =>
        obtain ⟨hwidth, hhands⟩ := hok value rfl
        have hcount : ((a.fill (.bits (value.withSign signed)) []).ready).bitCount = bits := by
          rw [bitCount_ready]
          exact hwidth
        refine Ends.pure ⟨hahead, fun _ => ?_, (fun _ h => by cases h), fun _ hknown _ => ?_,
          fun _ _ _ h => by cases h⟩
        · rw [hcount]
          rw [Hands] at hhands
          omega
        · cases hknown
          exact ⟨hcount.trans (Nat.zero_add _).symm, hhands⟩
    | record name fields =>
      have hfields : Ends (loadBitFields env (loadBits env depth) frames (a.fill .group []).frame 0
          a.info.offset fields) s
          (Outcome.HeedsBits B 0 ((staticBitsOfFields 0 fields).map (· - 0)) s) :=
        hempty ▸ heedsBits_loadBitFields ih frames rfl rfl 0 a.info.offset 0 fields hs
      refine hfields.mono fun _ _ h => h.forget fun width hwidth => ?_
      have hsame : staticBitsOfFields 0 fields = some width := hwidth
      rw [hsame]
      rfl
    | array element shape =>
      rw [← hempty]
      refine heedsBits_loadBitElements ih element shape frames _ rfl rfl 0 _ (fun width hwidth => ?_) hs
      cases shape with
      | terminated rule => cases hwidth
      | counted count =>
        rw [BitLayout.staticBits, Option.bind_eq_some_iff] at hwidth
        obtain ⟨bits, hbits, hword⟩ := hwidth
        exact ⟨count, bits, rfl, hbits, by rw [eq_of_word? hword, Nat.sub_zero]⟩

end Load

/-! ## Default bits -/

section Allocate

variable {env : Env κ} {part : LoadPart (LedgerM κ) κ}

/-- The atom was made, or not for another reason than a want of bytes. -/
def Outcome.NotShort (out : Outcome κ) : Prop := ∀ e, out.error? = some e → e.isConsume = false

theorem notShort_allocateBitFields (hpart : ∀ frames a l, Ends (part frames a) l fun out _ => out.NotShort)
    (frames : List (Frame κ)) (f : Frame κ) (index cursor : Nat)
    (fields : List (BitField κ (BitLayout κ))) (l : Ledger κ) :
    Ends (allocateBitFields env part frames f index cursor fields) l fun out _ => out.NotShort := by
  induction fields generalizing f index cursor l with
  | nil => exact Ends.pure nofun
  | cons field fields ih =>
    rw [allocateBitFields]
    split
    · rename_i e hresolve
      refine Ends.pure fun _ h => ?_
      cases h
      rw [Error.isConsume_within]
      exact Env.isConsume_resolveBits hresolve
    · refine (Ends.trivial _ l).bind fun blank m _ => (hpart _ _ m).bind fun out n hout => ?_
      dsimp only
      split
      · rename_i e herror
        exact Ends.pure fun _ h => by cases h; exact hout e herror
      · exact ih _ _ _ n

theorem notShort_allocateBitElements
    (hpart : ∀ frames a l, Ends (part frames a) l fun out _ => out.NotShort) (element : BitLayout κ)
    (frames : List (Frame κ)) (count : Nat) (f : Frame κ) (index cursor : Nat) (l : Ledger κ) :
    Ends (allocateBitElements part element frames count f index cursor) l
      fun out _ => out.NotShort := by
  induction count generalizing f index cursor l with
  | zero => exact Ends.pure nofun
  | succ count ih =>
    rw [allocateBitElements]
    refine (Ends.trivial _ l).bind fun blank m _ => (hpart _ _ m).bind fun out n hout => ?_
    dsimp only
    split
    · rename_i e herror
      exact Ends.pure fun _ h => by cases h; exact hout e herror
    · exact ih _ _ _ n

/-- Default bits are not short of bytes. -/
theorem notShort_allocateBits (env : Env κ) (depth : Nat) (frames : List (Frame κ)) (a : Atom κ)
    (l : Ledger κ) : Ends (allocateBits env depth frames a) l fun out _ => out.NotShort := by
  induction depth generalizing frames a l with
  | zero => exact Ends.pure fun _ h => by cases h; rfl
  | succ depth ih =>
    rw [allocateBits]
    split
    · exact Ends.pure fun _ h => by cases h; rfl
    · refine (Ends.trivial _ l).bind fun b m _ => ?_
      split
      · exact Ends.pure fun _ h => by cases h
      · exact notShort_allocateBitFields ih _ _ _ _ _ m
      · exact notShort_allocateBitElements ih _ _ _ _ _ _ m

end Allocate

end BinaryLayout
