import BinaryLayout.Load.Bits
import BinaryLayout.Proofs.Bitmap.Packing
import BinaryLayout.Proofs.Run

/-!
# Fields handed out bit by bit

A field is read in pieces, and a byte is fetched between them where the last one is used up. So there
are two things that reading does: a byte is fetched when nothing is pending, and the next pending bits
are handed out. What both of them keep holds after a field, whatever its width is and wherever in it
bytes end.

## Main definitions

* `BitLoadState.pending`: the bits that were fetched and not handed out.
* `BitLoadState.Hands`: how many bits are handed out between two states.

## Main statements

* `BitLoadM.ends_fetch`: what holds after a byte was fetched, or could not be.
* `BitLoadM.ends_readFrom`, `BitLoadM.ends_read`: what is kept by each step holds after a field.
* `BitLoadM.hands_read`: a field is made of as many bits as it has.
* `BitLoadM.twice_readFrom`, `BitLoadM.twice_read`: what two runs have in common after a field.
* `BitLoadM.kept_read`: what stays true, however reading a field ends.
-/

namespace BinaryLayout

variable {κ α : Type}

namespace BitLoadState

variable (s : BitLoadState κ) (base : LoadState κ) (reader : BitReader) (next count : Nat)

def order : ByteOrder := s.reader.order

/-- The bits that were fetched and not handed out. -/
def pending : List Bool := s.reader.pending

/-- The state after so many pending bits were handed out. -/
def skip : BitLoadState κ := { s with reader := s.reader.skip count }

@[simp] theorem pending_mk : (⟨base, reader, next⟩ : BitLoadState κ).pending = reader.pending := rfl

@[simp] theorem next_skip : (s.skip count).next = s.next := rfl

@[simp] theorem pending_skip : (s.skip count).pending = s.pending.drop count :=
  s.reader.pending_skip count

theorem length_pending : s.pending.length = s.reader.remaining := s.reader.length_pending

theorem pending_le : s.pending.length ≤ 8 := s.length_pending ▸ s.reader.remaining_le

/-- What becomes of the next byte when it was read, or could not be. -/
def fetched (result : Except SourceError Bytes) (after : LoadState κ) : Except Error Unit × BitLoadState κ :=
  match result with
  | .ok bytes => (.ok (), ⟨after, s.reader.refill (bytes.headD 0), s.next + 1⟩)
  | .error e => (.error (BitLoadM.fetchError s.next e), { s with base := after })

/-- So many bits were handed out between two states. -/
def Hands (count : Nat) (s t : BitLoadState κ) : Prop :=
  8 * s.next + t.pending.length + count = 8 * t.next + s.pending.length

theorem length_append_pending (done : List Bool) {n : Nat} (hcount : n ≤ s.reader.remaining) :
    (done ++ s.pending.take n).length = done.length + n := by
  rw [List.length_append, List.length_take, length_pending, Nat.min_eq_left hcount]

theorem pending_eq_nil : s.pending = [] ↔ s.reader.remaining = 0 := by
  rw [← length_pending, List.length_eq_zero_iff]

end BitLoadState

namespace BitLoadM

open BitLoadState

variable {s : BitLoadState κ}

theorem run_fetch (s : BitLoadState κ) :
    fetch s = s.fetched (LoadM.next 1 s.base).1 (LoadM.next 1 s.base).2 := by
  show (match (LoadM.next 1 s.base).1 with
    | .ok bytes => _
    | .error e => _ : BitLoadM κ (Except Error Unit)) { s with base := (LoadM.next 1 s.base).2 } = _
  cases (LoadM.next 1 s.base).1 <;> rfl

/-- What holds after a byte was fetched, or could not be. -/
theorem ends_fetch {post : Except Error Unit → BitLoadState κ → Prop}
    (h : Ends (LoadM.next 1) s.base fun result base => post (s.fetched result base).1 (s.fetched result base).2) :
    Ends fetch s post := by
  rw [Ends, run_fetch]
  exact h

/-- What holds after two runs that fetched a byte, or could not. -/
theorem together_fetch {s' : BitLoadState κ}
    {post : Except Error Unit → BitLoadState κ → Except Error Unit → BitLoadState κ → Prop}
    (h : Together (LoadM.next 1) (LoadM.next 1) s.base s'.base fun result base result' base' =>
      post (s.fetched result base).1 (s.fetched result base).2 (s'.fetched result' base').1
        (s'.fetched result' base').2) :
    Together fetch fetch s s' post := by
  rw [Together, run_fetch, run_fetch]
  exact h

/-- A byte that was fetched has eight bits, and otherwise nothing changes. The order stays. -/
theorem order_fetch (s : BitLoadState κ) :
    Ends fetch s fun result t => t.order = s.order
      ∧ match result with
        | .ok () => t.reader.remaining = 8 ∧ t.next = s.next + 1
        | .error _ => t.reader = s.reader ∧ t.next = s.next := by
  refine ends_fetch ?_
  rw [Ends]
  cases (LoadM.next 1 s.base).1 with
  | ok bytes => exact ⟨rfl, rfl, rfl⟩
  | error e => exact ⟨rfl, rfl, rfl⟩

/-- Bits are read from a place in a view of bytes. -/
theorem ends_run {m : BitLoadM κ α} {order : ByteOrder} {offset : Nat} {base : LoadState κ}
    {post : α × Bitmap → LoadState κ → Prop}
    (h : Ends m ⟨base, .new order, offset⟩ fun a t => post (a, t.reader.pad) t.base) :
    Ends (run order offset m) base post :=
  h

/-- The bits that are handed out come after those of the field that were there. -/
theorem join_chunk {done : List Bool} {count : Nat} (t : BitLoadState κ) (hcount : count ≤ t.reader.remaining) :
    t.reader.order.join (Bitmap.ofStream t.order done) (t.reader.chunk count)
      = Bitmap.ofStream t.order (done ++ t.pending.take count) := by
  refine Bitmap.eq_ofStream ?_ ?_
  · show (t.reader.order.join _ (t.reader.chunk count)).stream t.reader.order = _
    rw [Bitmap.stream_join, t.reader.stream_chunk hcount]
    show Bitmap.stream t.order (Bitmap.ofStream t.order done) ++ _ = _
    rw [Bitmap.stream_ofStream]
    rfl
  · rw [Bitmap.signed_join, Bitmap.signed_ofStream]

/-- The next piece of a field, from the bits that are pending, and what is read after it. -/
theorem run_piece (fuel left : Nat) {field : Bitmap} {done : List Bool} (t : BitLoadState κ) {count : Nat}
    (hcount : count = min left t.reader.remaining) (hfield : field = Bitmap.ofStream t.order done) :
    (do
      let piece ← hand left
      readFrom fuel (left - piece.width) ((← get).reader.order.join field piece)) t
    = readFrom fuel (left - count) (Bitmap.ofStream t.order (done ++ t.pending.take count)) (t.skip count) := by
  rw [hfield, ← join_chunk t (by omega), hcount]
  rfl

section Read

variable {width : Nat} (held full : List Bool → BitLoadState κ → Prop)
  (failed : Error → BitLoadState κ → Prop)

/-- What holds before the next piece of a field when `done` was handed out for it: nothing was fetched, or
some bits are pending now. -/
theorem ends_ready {done : List Bool}
    (hfetch : held done s → s.reader.remaining = 0 → Ends fetch s fun result t =>
      match result with
      | .ok () => full done t
      | .error e => failed e t)
    (hkeep : held done s → s.reader.remaining ≠ 0 → full done s) (hs : held done s) :
    Ends ready s fun result t =>
      match result with
      | .ok () => full done t ∧ t.order = s.order ∧ 0 < t.reader.remaining
      | .error e => failed e t := by
  refine Ends.via (fun t u => t = s ∧ u = s) ⟨rfl, rfl⟩ fun t u hu => ?_
  obtain ⟨rfl, rfl⟩ := hu
  split
  · rename_i hnone
    refine ((hfetch hs hnone).and (order_fetch u)).mono fun result t ht => ?_
    cases result with
    | ok done => exact ⟨ht.1, ht.2.1, by rw [ht.2.2.1]; decide⟩
    | error e => exact ht.1
  · rename_i hsome
    exact Ends.pure ⟨hkeep hs hsome, rfl, Nat.pos_of_ne_zero hsome⟩

/-- **What each step keeps holds after a field.** While a field is read, `held` holds of the bits that were
handed out for it and of the state, and `full` after a byte was fetched as well. -/
theorem ends_readFrom
    (hfetch : ∀ done s, done.length < width → held done s → s.reader.remaining = 0 →
      Ends fetch s fun result t =>
        match result with
        | .ok () => full done t
        | .error e => failed e t)
    (hkeep : ∀ done s, held done s → s.reader.remaining ≠ 0 → full done s)
    (hskip : ∀ done s count, 0 < count → count ≤ s.reader.remaining → done.length + count ≤ width →
      full done s → held (done ++ s.pending.take count) (s.skip count))
    (fuel left : Nat) {field : Bitmap} {done : List Bool} (hfuel : left ≤ fuel)
    (hleft : done.length + left = width) (hfield : field = Bitmap.ofStream s.order done) (hs : held done s) :
    Ends (readFrom fuel left field) s fun result t =>
      match result with
      | .ok value => ∃ bits, bits.length = width ∧ value = Bitmap.ofStream s.order bits ∧ t.order = s.order
        ∧ held bits t
      | .error e => failed e t := by
  induction fuel generalizing left field done s with
  | zero =>
    cases Nat.le_zero.1 hfuel
    exact Ends.pure ⟨done, hleft, hfield, rfl, hs⟩
  | succ fuel ih =>
    cases left with
    | zero => exact Ends.pure ⟨done, hleft, hfield, rfl, hs⟩
    | succ left =>
      refine (ends_ready held full failed (hfetch done s (by omega)) (hkeep done s) hs).bind fun result t ht => ?_
      cases result with
      | error e => exact Ends.pure ht
      | ok _ =>
        obtain ⟨hfull, horder, hpos⟩ := ht
        obtain ⟨count, hcount⟩ : ∃ count, count = min (left + 1) t.reader.remaining := ⟨_, rfl⟩
        have hlength := t.length_append_pending done (n := count) (by omega)
        refine .ofRun (run_piece fuel (left + 1) t hcount (horder ▸ hfield)) ?_
        refine (ih (left + 1 - count) (by omega) (by omega) rfl
          (hskip done t count (by omega) (by omega) (by omega) hfull)).mono fun result u hu => ?_
        cases result with
        | error e => exact hu
        | ok value =>
          obtain ⟨bits, hbits, hvalue, hlast, hu⟩ := hu
          exact ⟨bits, hbits, horder ▸ hvalue, hlast.trans horder, hu⟩

/-- What each step keeps holds after a field of so many bits. -/
theorem ends_read
    (hfetch : ∀ done s, done.length < width → held done s → s.reader.remaining = 0 →
      Ends fetch s fun result t =>
        match result with
        | .ok () => full done t
        | .error e => failed e t)
    (hkeep : ∀ done s, held done s → s.reader.remaining ≠ 0 → full done s)
    (hskip : ∀ done s count, 0 < count → count ≤ s.reader.remaining → done.length + count ≤ width →
      full done s → held (done ++ s.pending.take count) (s.skip count))
    (hs : held [] s) :
    Ends (read width) s fun result t =>
      match result with
      | .ok value => ∃ bits, bits.length = width ∧ value = Bitmap.ofStream s.order bits ∧ t.order = s.order
        ∧ held bits t
      | .error e => failed e t :=
  ends_readFrom held full failed hfetch hkeep hskip width width (Nat.le_refl _) (Nat.zero_add _) (by cases s.order <;> rfl) hs

end Read

section Twice

variable {width : Nat} (held full : List Bool → BitLoadState κ → BitLoadState κ → Prop)
  (astray : BitLoadState κ → Prop) (failed : Error → BitLoadState κ → Except Error Unit → BitLoadState κ → Prop)

/-- What became of the same read in two states: it gave the same, or the first run failed or went astray. -/
def Twice (same : α → BitLoadState κ → BitLoadState κ → Prop) (astray : BitLoadState κ → Prop)
    (failed : Error → BitLoadState κ → Except Error Unit → BitLoadState κ → Prop) (result : Except Error α)
    (t : BitLoadState κ) (result' : Except Error α) (t' : BitLoadState κ) : Prop :=
  match result with
  | .ok a => astray t ∨ result' = .ok a ∧ same a t t'
  | .error e => failed e t (result'.map fun _ => ()) t'

/-- **What two runs have in common after a field.** While the same field is read from two states with the
same reader, `held` relates them, and `full` after a byte was fetched as well. Once the first went astray,
nothing brings it back. -/
theorem twice_readFrom (hheld : ∀ done s s', held done s s' → s'.reader = s.reader)
    (hfull : ∀ done s s', full done s s' → s'.reader = s.reader)
    (hfetch : ∀ done s s', done.length < width → held done s s' → s.reader.remaining = 0 →
      Together fetch fetch s s' (Twice (fun _ => full done) astray failed))
    (hkeep : ∀ done s s', held done s s' → s.reader.remaining ≠ 0 → full done s s')
    (hskip : ∀ done s s' count, 0 < count → count ≤ s.reader.remaining → done.length + count ≤ width →
      full done s s' → held (done ++ s.pending.take count) (s.skip count) (s'.skip count))
    (hfailed : ∀ e t t', failed e t (.ok ()) t' → ∀ result u, failed e t result u)
    (hstray : ∀ s, astray s → s.reader.remaining = 0 → Ends fetch s fun result t =>
      match result with
      | .ok () => astray t
      | .error e => ∀ result' t', failed e t result' t')
    (hstrayed : ∀ s count, astray s → astray (s.skip count))
    (fuel left : Nat) {field : Bitmap} {done : List Bool} {s s' : BitLoadState κ} (hfuel : left ≤ fuel)
    (hleft : done.length + left = width) (hfield : field = Bitmap.ofStream s.order done) (hs : held done s s') :
    Together (readFrom fuel left field) (readFrom fuel left field) s s'
      (Twice (fun value t t' => ∃ bits, bits.length = width ∧ value = Bitmap.ofStream s.order bits
        ∧ t.order = s.order ∧ held bits t t') astray failed) := by
  induction fuel generalizing left field done s s' with
  | zero =>
    cases Nat.le_zero.1 hfuel
    exact Together.pure (.inr ⟨rfl, done, hleft, hfield, rfl, hs⟩)
  | succ fuel ih =>
    cases left with
    | zero => exact Together.pure (.inr ⟨rfl, done, hleft, hfield, rfl, hs⟩)
    | succ left =>
      have hready : Together ready ready s s' (Twice (fun _ t t' =>
          full done t t' ∧ t.order = s.order ∧ 0 < t.reader.remaining)
          (fun t => astray t ∧ t.order = s.order ∧ 0 < t.reader.remaining) failed) := by
        refine Together.via (fun t u t' u' => t = s ∧ u = s ∧ t' = s' ∧ u' = s') ⟨rfl, rfl, rfl, rfl⟩
          fun t u t' u' hu => ?_
        obtain ⟨rfl, rfl, rfl, rfl⟩ := hu
        rw [hheld done u u' hs]
        split
        · rename_i hnone
          refine ((hfetch done u u' (by omega) hs hnone).andLeft (order_fetch u)).mono fun result t result' t' ht => ?_
          obtain ⟨⟨horder, hbyte⟩, ht⟩ := ht
          cases result with
          | error e => exact ht
          | ok _ =>
            have hpos : 0 < t.reader.remaining := by rw [hbyte.1]; decide
            exact ht.imp (fun h => ⟨h, horder, hpos⟩) fun h => ⟨h.1, h.2, horder, hpos⟩
        · rename_i hsome
          exact Together.pure (.inr ⟨rfl, hkeep done u u' hs hsome, rfl, Nat.pos_of_ne_zero hsome⟩)
      refine hready.bind fun result t result' t' ht => ?_
      cases result with
      | error e =>
        cases result' with
        | error e' => exact Together.pure ht
        | ok _ =>
          exact Together.left (p := fun result u => result = .error e ∧ u = t) ⟨rfl, rfl⟩
            fun result u result' u' hu => by
              obtain ⟨rfl, rfl⟩ := hu
              exact hfailed e u t' ht _ u'
      | ok _ =>
        obtain ⟨count, hcount⟩ : ∃ count, count = min (left + 1) t.reader.remaining := ⟨_, rfl⟩
        have hlength := t.length_append_pending done (n := count) (by omega)
        rcases ht with ⟨hgone, horder, hpos⟩ | ⟨rfl, hboth, horder, hpos⟩
        · -- only the first run matters now
          refine Together.left (p := fun result u => match result with
            | .ok _ => astray u
            | .error e => ∀ result' u', failed e u result' u') ?_ fun result u result' u' hu => ?_
          · refine .ofRun (run_piece fuel (left + 1) t hcount (horder ▸ hfield)) ?_
            refine (ends_readFrom (fun _ => astray) (fun _ => astray) (fun e t => ∀ result' t', failed e t result' t')
              (fun _ u _ hu hnone => hstray u hu hnone) (fun _ _ hu _ => hu)
              (fun _ u count _ _ _ hu => hstrayed u count hu) fuel (left + 1 - count) (by omega) rfl rfl
              (hstrayed t count hgone)).mono fun result u hu => ?_
            cases result with
            | error e => exact hu
            | ok value => exact hu.choose_spec.2.2.2
          · cases result with
            | error e => exact hu _ u'
            | ok value => exact .inl hu
        · have hreader := hfull done t t' hboth
          have horder' : t'.order = s.order := (congrArg BitReader.order hreader).trans horder
          have hpending : t'.pending = t.pending := congrArg BitReader.pending hreader
          refine .ofRun (run_piece fuel (left + 1) t hcount (horder ▸ hfield))
            (run_piece fuel (left + 1) t' (hreader ▸ hcount) (horder' ▸ hfield)) ?_
          rw [hpending, horder', ← horder]
          exact ih (left + 1 - count) (by omega) (by omega) rfl
            (hskip done t t' count (by omega) (by omega) (by omega) hboth)

/-- What two runs have in common after a field of so many bits. -/
theorem twice_read (hheld : ∀ done s s', held done s s' → s'.reader = s.reader)
    (hfull : ∀ done s s', full done s s' → s'.reader = s.reader)
    (hfetch : ∀ done s s', done.length < width → held done s s' → s.reader.remaining = 0 →
      Together fetch fetch s s' (Twice (fun _ => full done) astray failed))
    (hkeep : ∀ done s s', held done s s' → s.reader.remaining ≠ 0 → full done s s')
    (hskip : ∀ done s s' count, 0 < count → count ≤ s.reader.remaining → done.length + count ≤ width →
      full done s s' → held (done ++ s.pending.take count) (s.skip count) (s'.skip count))
    (hfailed : ∀ e t t', failed e t (.ok ()) t' → ∀ result u, failed e t result u)
    (hstray : ∀ s, astray s → s.reader.remaining = 0 → Ends fetch s fun result t =>
      match result with
      | .ok () => astray t
      | .error e => ∀ result' t', failed e t result' t')
    (hstrayed : ∀ s count, astray s → astray (s.skip count)) {s s' : BitLoadState κ} (hs : held [] s s') :
    Together (read width) (read width) s s' (Twice (fun value t t' => ∃ bits, bits.length = width
      ∧ value = Bitmap.ofStream s.order bits ∧ t.order = s.order ∧ held bits t t') astray failed) :=
  twice_readFrom held full astray failed hheld hfull hfetch hkeep hskip hfailed hstray hstrayed width width (Nat.le_refl _)
    (Nat.zero_add _) (by cases s.order <;> rfl) hs

end Twice

/-- As many bits are handed out as the field has, or less of them where a byte is missing. -/
theorem hands_read (width : Nat) (s : BitLoadState κ) :
    Ends (read width) s fun result t =>
      match result with
      | .ok value => value.width = width ∧ s.Hands width t
      | .error _ => ∃ count < width, s.Hands count t := by
  refine (ends_read (fun done t => s.Hands done.length t) (fun done t => s.Hands done.length t)
    (fun _ t => ∃ count < width, s.Hands count t) (fun done t hmore ht hnone => ?_)
    (fun _ _ ht _ => ht) (fun done t count hpos hle _ ht => ?_) rfl).mono fun result t ht => ?_
  · refine (order_fetch t).mono fun result u hu => ?_
    rw [Hands] at ht
    cases result with
    | ok _ =>
      obtain ⟨-, height, hnext⟩ := hu
      have hlength := t.length_pending
      have hlength' := u.length_pending
      show s.Hands done.length u
      rw [Hands]
      omega
    | error e =>
      obtain ⟨-, hsame, hnext⟩ := hu
      refine ⟨done.length, hmore, ?_⟩
      rw [Hands, length_pending, hsame, hnext, ← length_pending]
      exact ht
  · have hlength := t.length_pending
    rw [Hands] at ht ⊢
    simp only [pending_skip, next_skip, List.length_drop, List.length_append, List.length_take]
    omega
  · cases result with
    | error e => exact ht
    | ok value =>
      obtain ⟨bits, hlength, rfl, -, ht⟩ := ht
      exact ⟨by simp [hlength], hlength ▸ ht⟩

/-- What reading a byte and handing out bits keep is kept while a field is read. -/
theorem kept_read (inv : BitLoadState κ → Prop) (hfetch : ∀ s, inv s → Ends fetch s fun _ t => inv t)
    (hskip : ∀ s count, inv s → inv (s.skip count)) (width : Nat) (hs : inv s) :
    Ends (read width) s fun _ t => inv t := by
  have hread : Ends (read width) s fun result t => match result with
      | .ok value => ∃ bits, bits.length = width ∧ value = Bitmap.ofStream s.order bits ∧ t.order = s.order
        ∧ inv t
      | .error _ => inv t := by
    refine ends_read (fun _ => inv) (fun _ => inv) (fun _ => inv) (fun _ t _ ht _ => ?_) (fun _ _ ht _ => ht)
      (fun _ t count _ _ _ ht => hskip t count ht) hs
    refine (hfetch t ht).mono fun result u hu => ?_
    cases result <;> exact hu
  refine hread.mono fun result t ht => ?_
  cases result with
  | ok value => exact ht.choose_spec.2.2.2
  | error e => exact ht

/-- What reading a byte and handing out bits does not see does not change while a field is read. -/
theorem leaves_read {view : BitLoadState κ → α} (hfetch : Leaves view fetch)
    (hskip : ∀ s count, view (skip s count) = view s) (width : Nat) : Leaves view (read width) :=
  fun s => kept_read (fun t => view t = view s)
    (fun t ht => (hfetch t).mono fun _ _ hu => hu.trans ht) (fun t count ht => (hskip t count).trans ht) width rfl

end BitLoadM

end BinaryLayout
