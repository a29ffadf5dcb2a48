import BinaryLayout.Proofs.Bitmap.Vector
import Mathlib.Data.List.Chain

/-!
# Bitmaps in pieces

Chunks are cut off at the top and what is left gets shorter; runs are read out from the bottom and
the index of the next one goes up. Put together again in the order in which they were taken, the
pieces of either kind are the whole bitmap.

## Main definitions

* `Bitmap.Chunked`: chunks of a size that make up a bitmap.
* `Bitmap.Constant`: a bitmap of equal bits, of one bit at least.
* `Bitmap.Alternating`: runs that make up a bitmap.

## Main statements

* `Bitmap.chunked_split`, `Bitmap.alternating_runs`: the chunks and the runs of a bitmap.
* `Bitmap.split_and_runs`: pieces lose nothing.
-/

namespace BinaryLayout.Bitmap

variable {b : Bitmap} {v : Bool} {n size start fuel : Nat}

/-! ## Chunks -/

/-- Chunks that are the bitmap when each is pushed below those before it. None is empty, and only
the last one may be shorter than `size` bits. -/
structure Chunked (chunks : List Bitmap) (size : Nat) (b : Bitmap) : Prop where
  joined : chunks.foldl push empty = b.withSign false
  full : ∀ c ∈ chunks.dropLast, c.width = size
  nonempty : ∀ c ∈ chunks, 0 < c.width
  le : ∀ c ∈ chunks, c.width ≤ size

theorem push_of_width_eq_zero (acc : Bitmap) (h : b.width = 0) : acc.push b = acc := by
  apply eq_of_bits
  · simp [bits_eq_nil h]
  · rfl

theorem empty_push (b : Bitmap) : empty.push b = b.withSign false := by
  apply eq_of_bits
  · simp
  · rfl

theorem width_shift_fst (b : Bitmap) (size : Nat) :
    (b.shift size).1.width = b.width - size := by
  simp [shift, low]

theorem width_shift_snd (b : Bitmap) (size : Nat) :
    (b.shift size).2.width = min size b.width := by
  simp [shift, high]
  omega

/-- The top that is cut off and then the rest, pushed below a bitmap, are all of it. -/
theorem push_shift (acc b : Bitmap) (size : Nat) :
    (acc.push (b.shift size).2).push (b.shift size).1 = acc.push b := by
  apply eq_of_bits
  · simp [shift, ← List.append_assoc]
  · rfl

theorem chunks_of_width_eq_zero (h : b.width = 0) : chunks size fuel b = [] := by
  cases fuel with
  | zero => rfl
  | succ fuel => simp [chunks, h]

/-- What has been pushed so far, with the rest below it, is the same after each chunk. -/
theorem foldl_push_chunks (hsize : 0 < size) (hfuel : b.width ≤ fuel) (acc : Bitmap) :
    (chunks size fuel b).foldl push acc = acc.push b := by
  induction fuel generalizing b acc with
  | zero =>
    have hwidth : b.width = 0 := Nat.le_zero.1 hfuel
    simp [chunks, push_of_width_eq_zero acc hwidth]
  | succ fuel ih =>
    by_cases hwidth : b.width = 0
    · simp [chunks, hwidth, push_of_width_eq_zero acc hwidth]
    · have hrest : (b.shift size).1.width ≤ fuel := by
        rw [width_shift_fst]
        omega
      simp only [chunks, hwidth, if_false, List.foldl_cons]
      rw [ih hrest, push_shift]

theorem width_of_mem_chunks (hsize : 0 < size) :
    ∀ c ∈ chunks size fuel b, 0 < c.width ∧ c.width ≤ size := by
  induction fuel generalizing b with
  | zero => simp [chunks]
  | succ fuel ih =>
    by_cases hwidth : b.width = 0
    · simp [chunks, hwidth]
    · have htop : 0 < (b.shift size).2.width ∧ (b.shift size).2.width ≤ size := by
        rw [width_shift_snd]
        omega
      simpa [chunks, hwidth, htop] using ih

/-- Another chunk follows only where bits were left, and then this one has its full size. -/
theorem width_of_mem_dropLast_chunks :
    ∀ c ∈ (chunks size fuel b).dropLast, c.width = size := by
  induction fuel generalizing b with
  | zero => simp [chunks]
  | succ fuel ih =>
    by_cases hwidth : b.width = 0
    · simp [chunks, hwidth]
    · by_cases hrest : (b.shift size).1.width = 0
      · simp [chunks, hwidth, chunks_of_width_eq_zero hrest]
      · have htop : (b.shift size).2.width = size := by
          rw [width_shift_fst] at hrest
          rw [width_shift_snd]
          omega
        simp only [chunks, hwidth, if_false]
        intro c hc
        cases hnext : chunks size fuel (b.shift size).1 with
        | nil => simp [hnext] at hc
        | cons next rest =>
          rw [hnext, List.dropLast_cons_cons, List.mem_cons] at hc
          cases hc with
          | inl heq => rw [heq, htop]
          | inr hmem => exact ih c (hnext ▸ hmem)

theorem chunked_split (b : Bitmap) (hsize : 0 < size) : Chunked (b.split size) size b := by
  have hne : size ≠ 0 := by omega
  rw [split, if_neg hne]
  constructor
  · rw [foldl_push_chunks hsize (Nat.le_refl _), empty_push]
  · exact width_of_mem_dropLast_chunks
  · exact fun c hc => (width_of_mem_chunks hsize c hc).1
  · exact fun c hc => (width_of_mem_chunks hsize c hc).2

/-! ## Runs -/

/-- Equal bits, and one of them at least. -/
structure Constant (b : Bitmap) (v : Bool) : Prop where
  nonempty : 0 < b.width
  bits_eq : b.bits = List.replicate b.width v

/-- Runs that are the bitmap when each is put above those before it. Each is of equal bits, and
neighbours hold opposite ones. -/
structure Alternating (runs : List Bitmap) (b : Bitmap) : Prop where
  joined : runs.foldl append empty = b.withSign false
  constant : ∀ r ∈ runs, ∃ v, r.Constant v
  opposite : runs.IsChain fun r next => ∃ v, r.Constant v ∧ next.Constant !v

theorem IsRun.add_le (h : IsRun b.bits start v n) : start + n ≤ b.width := by
  have hpos := h.pos
  have hlast := (getElem?_bits_eq_some.1 (h.constant (n - 1) (by omega))).1
  omega

/-- The stretch that is read out. -/
theorem bits_get_of_isRun (h : IsRun b.bits start v n) :
    (b.get start n).bits = List.replicate n v := by
  rw [bits_get]
  apply List.ext_getElem
  · simp
  · intro i hi _
    have hin : i < n := by simpa using hi
    simp [h.constant i hin]

theorem constant_get (h : IsRun b.bits start v n) : (b.get start n).Constant v :=
  ⟨h.pos, bits_get_of_isRun h⟩

/-- A field within the width. -/
theorem bits_get_of_le (h : start + n ≤ b.width) :
    (b.get start n).bits = (b.bits.drop start).take n := by
  rw [bits_get]
  apply List.ext_getElem
  · simp
    omega
  · intro i hi _
    have hin : start + i < b.width := by
      simp at hi
      omega
    simp [hin]

/-- A field and then what is above it, put above a bitmap, are all from the field on. -/
theorem append_get (acc : Bitmap) (h : start + n ≤ b.width) :
    (acc.append (b.get start n)).append (b.high (start + n)) = acc.append (b.high start) := by
  apply eq_of_bits
  · rw [bits_append, bits_append, bits_append, bits_get_of_le h, bits_high, bits_high,
      List.append_assoc, ← List.drop_drop, List.take_append_drop]
  · rfl

theorem append_high_of_le (acc : Bitmap) (h : b.width ≤ start) :
    acc.append (b.high start) = acc := by
  apply eq_of_bits
  · simp [h]
  · rfl

theorem empty_append_high_zero (b : Bitmap) : empty.append (b.high 0) = b.withSign false := by
  apply eq_of_bits
  · simp
  · rfl

/-- What has been put together so far, with all from the next run on above it, is the same after
each run. -/
theorem foldl_append_runsFrom (hfuel : b.width ≤ start + fuel) (acc : Bitmap) :
    (b.runsFrom fuel start).foldl append acc = acc.append (b.high start) := by
  induction fuel generalizing start acc with
  | zero =>
    have hend : b.width ≤ start := by omega
    simp [runsFrom, append_high_of_le acc hend]
  | succ fuel ih =>
    cases hrun : b.run start with
    | none =>
      have hend : b.width ≤ start := by
        by_contra hlt
        simp [run, Nat.lt_of_not_le hlt] at hrun
      simp [runsFrom, hrun, append_high_of_le acc hend]
    | some found =>
      have h := (run_eq_some_iff b start found.1 found.2).1 hrun
      have hpos := h.pos
      simp only [runsFrom, hrun, List.foldl_cons]
      rw [ih (by omega), append_get acc h.add_le]

/-- The first run starts where the search does. -/
theorem isRun_of_head?_runsFrom {r : Bitmap} (h : (b.runsFrom fuel start).head? = some r) :
    ∃ v n, IsRun b.bits start v n ∧ r = b.get start n := by
  cases fuel with
  | zero => simp [runsFrom] at h
  | succ fuel =>
    cases hrun : b.run start with
    | none => simp [runsFrom, hrun] at h
    | some found =>
      simp only [runsFrom, hrun, List.head?_cons, Option.some.injEq] at h
      exact ⟨found.1, found.2, (run_eq_some_iff b start _ _).1 hrun, h.symm⟩

theorem constant_of_mem_runsFrom : ∀ r ∈ b.runsFrom fuel start, ∃ v, r.Constant v := by
  induction fuel generalizing start with
  | zero => simp [runsFrom]
  | succ fuel ih =>
    cases hrun : b.run start with
    | none => simp [runsFrom, hrun]
    | some found =>
      have h := (run_eq_some_iff b start found.1 found.2).1 hrun
      simp only [runsFrom, hrun, List.forall_mem_cons]
      exact ⟨⟨found.1, constant_get h⟩, ih⟩

/-- The bit at which a run ends is the first one of the next run. -/
theorem isChain_runsFrom :
    (b.runsFrom fuel start).IsChain fun r next => ∃ v, r.Constant v ∧ next.Constant !v := by
  induction fuel generalizing start with
  | zero => simp [runsFrom]
  | succ fuel ih =>
    cases hrun : b.run start with
    | none => simp [runsFrom, hrun]
    | some found =>
      have h := (run_eq_some_iff b start found.1 found.2).1 hrun
      simp only [runsFrom, hrun]
      rw [List.isChain_cons]
      refine ⟨?_, ih⟩
      intro next hnext
      obtain ⟨w, m, hrun', rfl⟩ := isRun_of_head?_runsFrom hnext
      have hne : w ≠ found.1 := by
        intro heq
        have hfirst := hrun'.constant 0 hrun'.pos
        exact h.ends (heq ▸ hfirst)
      have hw : w = !found.1 := by
        cases w <;> cases hv : found.1 <;> simp [hv] at hne ⊢
      exact ⟨found.1, constant_get h, hw ▸ constant_get hrun'⟩

theorem alternating_runs (b : Bitmap) : Alternating b.runs b where
  joined := by rw [runs, foldl_append_runsFrom (by omega), empty_append_high_zero]
  constant := constant_of_mem_runsFrom
  opposite := isChain_runsFrom

/-- **Pieces lose nothing**: the chunks of a bitmap, pushed in order onto the bitmap without bits,
are the bitmap, and so are its runs when they are appended in order. All chunks but the last one
have the size that was asked for; each run is of equal bits, opposite to those of its neighbours. -/
theorem split_and_runs (b : Bitmap) (size : Nat) (hsize : 0 < size) :
    Chunked (b.split size) size b ∧ Alternating b.runs b :=
  ⟨chunked_split b hsize, alternating_runs b⟩

/-- Seven bits in chunks of three, and in runs. -/
theorem split_and_runs_seven :
    Chunked ((ofNat 0b1100010 7 true).split 3) 3 (ofNat 0b1100010 7 true)
      ∧ (ofNat 0b1100010 7 true).split 3 = [ofNat 0b110 3 true, ofNat 0b001 3 true, ofNat 0 1 true]
      ∧ Alternating (ofNat 0b1100010 7 true).runs (ofNat 0b1100010 7 true)
      ∧ (ofNat 0b1100010 7 true).runs
          = [ofNat 0 1 false, ofNat 1 1 false, ofNat 0 3 false, ofNat 0b11 2 false] :=
  have h := split_and_runs (ofNat 0b1100010 7 true) 3 (by decide)
  ⟨h.1, by decide, h.2, by decide⟩

end BinaryLayout.Bitmap
