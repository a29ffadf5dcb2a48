import BinaryLayout.Proofs.Codec.Varint
import BinaryLayout.Proofs.Exact.Document

/-!
# Bits given to integers

Bits have a magnitude and, under their sign flag, a value; the two are the same unless the value is negative.
An unsigned integer takes the magnitude, whatever the flag says, and signed groups of seven bits take the value.
The number that was taken is the one that is there afterwards. Negative bits that are given to a signed integer
of fixed width are left out here.

## Main definitions

* `Layout.IsWhole`: the layouts of integers.
* `Bitmap.number`: the number that an integer takes.

## Main statements

* `Layout.IsWhole.encode_bits_of_range`, `Layout.IsWhole.encode_bits_of_not_range`: the bits that are taken.
* `Document.Reachable.assign_bitmap`: bits that are assigned to an integer of a document.
-/

namespace BinaryLayout

variable {κ : Type}

/-- The layouts of integers, with whether they are signed and how many bytes their range has. Groups of seven
bits have that of 128 bits. -/
inductive Layout.IsWhole : Layout κ → Bool → Nat → Prop
  | int (format : IntFormat) : IsWhole (.int format) format.signed format.width
  | varint (signed : Bool) : IsWhole (.varint signed) signed 16

namespace Bitmap

variable {b : Bitmap}

/-- The number that a signed integer takes for the bits, their value, or an unsigned one, their magnitude. -/
def number (signed : Bool) (b : Bitmap) : Int := if signed then b.toInt else b.value

/-- Bits that stand for no negative number stand for their magnitude. -/
theorem toInt_eq_value (h : 0 ≤ b.toInt) : b.toInt = b.value := by
  have hlt := b.value_lt
  cases b.toInt_cases with
  | inl hsame => exact hsame.1
  | inr hnegative =>
    have := hnegative.1
    omega

theorem number_eq_value {signed : Bool} (h : signed = true → 0 ≤ b.toInt) : b.number signed = b.value := by
  cases signed with
  | false => rfl
  | true => exact toInt_eq_value (h rfl)

theorem toInt128?_eq_some (h : Codec.InRange true 16 b.toInt) : b.toInt128? = some b.toInt :=
  if_pos (Varint.inRange_iff.1 h)

theorem toInt128?_eq_none (h : ¬ Codec.InRange true 16 b.toInt) : b.toInt128? = none :=
  if_neg fun hrange => h (Varint.inRange_iff.2 hrange)

end Bitmap

/-! ## Encoding -/

/-- No range has more than 128 bits. -/
theorem Codec.lt_of_inRange {signed : Bool} {width : Nat} {n : Int} (hwidth : width ≤ 16)
    (h : InRange signed width n) : n < pow2 128 := by
  have hunsigned : pow2 (8 * width) ≤ pow2 128 := pow2_le_pow2 (by omega)
  have hsigned : pow2 (8 * width - 1) ≤ pow2 128 := pow2_le_pow2 (by omega)
  rw [InRange] at h
  cases signed with
  | true =>
    rw [if_pos rfl] at h
    omega
  | false =>
    rw [if_neg Bool.false_ne_true] at h
    omega

/-- Bits whose magnitude 128 bits hold are an unsigned number to an integer of fixed width. -/
theorem IntFormat.encode_bits (format : IntFormat) {b : Bitmap} (h : b.value < pow2 128) :
    format.encode (.bits b) = format.encode (.unsigned b.value) := by
  have hnat : (Value.bits b).toNat? = some b.value := if_pos h
  rw [encode.eq_def, encode.eq_def]
  simp only [hnat]
  rfl

namespace Layout.IsWhole

variable {layout : Layout κ} {signed : Bool} {width : Nat} {b : Bitmap}

/-- Bits whose number is in range are taken, and that number is read. -/
theorem encode_bits_of_range (hwhole : layout.IsWhole signed width)
    (hsigned : ∀ format, layout = .int format → format.signed = true → 0 ≤ b.toInt)
    (h : Codec.InRange signed width (b.number signed)) :
    ∃ raw v, layout.encode (.bits b) = .ok raw ∧ layout.decode raw = .ok v
      ∧ v.number? = some (b.number signed) := by
  cases hwhole with
  | int format =>
    have hnumber : b.number format.signed = b.value := Bitmap.number_eq_value (hsigned format rfl)
    rw [hnumber] at h ⊢
    have hwide : b.value < pow2 128 := by
      have := Codec.lt_of_inRange format.width_mem.2 h
      omega
    refine ⟨Codec.wrapInt format.order format.width b.value, _, ?_, rfl, format.number?_toValue_wrapInt h⟩
    exact (format.encode_bits hwide).trans (format.encode_of_range rfl h)
  | varint =>
    cases signed with
    | true =>
      have hrange : Codec.InRange true 16 b.toInt := h
      have hint : (Value.bits b).toInt? = some b.toInt := Bitmap.toInt128?_eq_some hrange
      refine ⟨Varint.writeInt b.toInt, .signed b.toInt, ?_, ?_, rfl⟩
      · simp only [Layout.encode, encodeVarint, hint, if_true]
      · simp only [Layout.decode, decodeVarint, Varint.readInt_writeInt hrange, if_true]
        rfl
    | false =>
      have hwide : b.value < pow2 128 := by
        have := Codec.lt_of_inRange (Nat.le_refl 16) h
        simp only [Bitmap.number, Bool.false_eq_true, if_false] at this
        omega
      have hnat : (Value.bits b).toNat? = some b.value := if_pos hwide
      refine ⟨Varint.writeNat b.value, .unsigned b.value, ?_, ?_, rfl⟩
      · simp only [Layout.encode, encodeVarint, hnat, Bool.false_eq_true, if_false]
      · simp only [Layout.decode, decodeVarint, Varint.readNat_writeNat hwide, Bool.false_eq_true, if_false]
        rfl

/-- Other bits are refused. -/
theorem encode_bits_of_not_range (hwhole : layout.IsWhole signed width)
    (hsigned : ∀ format, layout = .int format → format.signed = true → 0 ≤ b.toInt)
    (h : ¬ Codec.InRange signed width (b.number signed)) :
    ∃ fault, layout.encode (.bits b) = .error (.value fault) := by
  cases hwhole with
  | int format =>
    have hnumber : b.number format.signed = b.value := Bitmap.number_eq_value (hsigned format rfl)
    rw [hnumber] at h
    by_cases hwide : b.value < pow2 128
    · obtain ⟨fault, hfault⟩ := format.encode_of_not_range (v := .unsigned b.value) rfl h
      exact ⟨fault, (format.encode_bits hwide).trans hfault⟩
    · have hnat : (Value.bits b).toNat? = none := if_neg hwide
      refine ⟨.mismatch "an integer" "bits", ?_⟩
      simp only [Layout.encode, IntFormat.encode, hnat]
      rfl
  | varint =>
    cases signed with
    | true =>
      have hint : (Value.bits b).toInt? = none := Bitmap.toInt128?_eq_none h
      refine ⟨.mismatch "an integer" "bits", ?_⟩
      simp only [Layout.encode, encodeVarint, hint, if_true]
      rfl
    | false =>
      have hwide : ¬ b.value < pow2 128 := by
        intro hlt
        exact h ⟨Int.natCast_nonneg _, Int.ofNat_lt.2 hlt⟩
      have hnat : (Value.bits b).toNat? = none := if_neg hwide
      refine ⟨.mismatch "an unsigned integer" "bits", ?_⟩
      simp only [Layout.encode, encodeVarint, hnat, Bool.false_eq_true, if_false]
      rfl

theorem isScalar (hwhole : layout.IsWhole signed width) : layout.IsScalar := by
  cases hwhole with
  | int format => exact Layout.isScalar_int format
  | varint => exact ⟨rfl, fun _ _ h => nomatch h⟩

end Layout.IsWhole

/-- The value of an integer. -/
theorem Atom.Holds.valueAt_whole {a b : Atom κ} {raw : Bytes} {layout : Layout κ} {signed : Bool}
    {width : Nat} (h : Holds (.raw raw) a b) (hlayout : a.info.layout = .bytes layout)
    (hwhole : layout.IsWhole signed width) (hnull : a.info.null = false) (path : Path) :
    b.valueAt path = layout.decode raw := by
  obtain ⟨info, content, parts⟩ := b
  have hinfo : info.layout = .bytes layout := h.layout.trans hlayout
  have hnull : info.null = false := h.null.trans hnull
  have hcontent : content = .raw raw := h.content
  rw [valueAt.eq_def]
  dsimp only
  rw [readable, hnull, hinfo, hcontent]
  cases hwhole with
  | int | varint => rfl

/-! ## Documents -/

namespace Document

variable {d : Document κ} {p : Place κ}

/-- **Bits that are given to an integer keep their number.** What a null pointer refers to takes no bits. Any
other integer refuses bits exactly when the number that it takes for them is out of its range, and otherwise
it is that number from then on, if it can be read as an integer at all. The assignment succeeds if what
surrounds the integer can follow the change, and always if nothing there depends on it. Negative bits for a
signed integer of fixed width are left out. -/
theorem Reachable.assign_bitmap (hd : d.Reachable) (hp : p ∈ d.places) {layout : Layout κ} {signed : Bool}
    {width : Nat} (hlayout : p.atom.info.layout = .bytes layout) (hwhole : layout.IsWhole signed width)
    (b : Bitmap) :
    (p.atom.info.null = true → (assign p.atom.info.id (.bits b)).run d
        = (.error (.located p.path .nullDereference), d))
      ∧ (p.atom.info.null = false →
        (∀ format, layout = .int format → format.signed = true → 0 ≤ b.toInt) →
        ∃ r t, (assign p.atom.info.id (.bits b)).run d = (r, t)
          ∧ (¬ Codec.InRange signed width (b.number signed) → ∃ fault, d.Refuses t r p fault)
          ∧ (Codec.InRange signed width (b.number signed) → ∃ raw q, d.Stores t r p q (.raw raw)
            ∧ (b.number signed < pow2 127 → q.int = .ok (b.number signed)))) := by
  have hencodes : p.atom.info.layout.Encodes (.bits b) ((layout.encode (.bits b)).map .raw) :=
    hlayout ▸ .bytes hwhole.isScalar
  refine ⟨fun hnull => hd.balanced.assign_null hp hnull _, fun hnull hsigned => ?_⟩
  obtain ⟨r, t, hrun, hsettles⟩ := hd.balanced.assign_scalar hp hencodes hnull
  refine ⟨r, t, hrun, fun hrange => ?_, fun hrange => ?_⟩
  · obtain ⟨fault, hfault⟩ := hwhole.encode_bits_of_not_range hsigned hrange
    rw [hfault] at hsettles
    exact ⟨fault, hsettles.refuses fault rfl⟩
  · obtain ⟨raw, v, hencode, hdecode, hnumber⟩ := hwhole.encode_bits_of_range hsigned hrange
    rw [hencode] at hsettles
    obtain ⟨q, hq⟩ := hsettles.stores _ rfl
    refine ⟨raw, q, hq, fun hsmall => ?_⟩
    have hvalue : q.value = .ok v := (hq.holds.valueAt_whole hlayout hwhole hnull q.path).trans hdecode
    rw [Place.int, hvalue]
    simp only [Value.toInt?_of_number? hnumber hsmall]

/-- Four bits that are all set and stand for -1. -/
def minusOne : Bitmap := Bitmap.ofInt (-1) 4 true

/-- A document with one integer, which is zero. -/
def zeroWhole (layout : Layout Empty) : Document Empty :=
  ((Operation.allocateNew layout "n").run.run (overBytes #[])).2

def zeroWholePlace (layout : Layout Empty) : Place Empty :=
  ⟨.node { id := 0, name := "n", layout := .bytes layout, offset := 0, initialized := true } (.raw [0]) [], []⟩

/-- Groups of seven bits that are signed take the value of the bits, and an unsigned byte takes their
magnitude. -/
theorem assign_bitmap_of_minusOne :
    (zeroWhole (.varint true)).Reachable ∧ zeroWholePlace (.varint true) ∈ (zeroWhole (.varint true)).places
      ∧ (∃ t q, (assign 0 (.bits minusOne)).run (zeroWhole (.varint true)) = (.ok (), t)
        ∧ t.find? 0 = some q ∧ q.int = .ok (-1))
      ∧ (zeroWhole (.int .u8)).Reachable ∧ zeroWholePlace (.int .u8) ∈ (zeroWhole (.int .u8)).places
      ∧ ∃ t q, (assign 0 (.bits minusOne)).run (zeroWhole (.int .u8)) = (.ok (), t)
        ∧ t.find? 0 = some q ∧ q.int = .ok 15 := by
  have hd (layout : Layout Empty) : (zeroWhole layout).Reachable :=
    .step (.allocateNew layout "n") (.empty _ _ _) nofun
  have hgroups : zeroWholePlace (.varint true) ∈ (zeroWhole (.varint true)).places :=
    List.mem_of_getElem? (i := 0) rfl
  have hbyte : zeroWholePlace (.int .u8) ∈ (zeroWhole (.int .u8)).places := List.mem_of_getElem? (i := 0) rfl
  refine ⟨hd _, hgroups, ?_, hd _, hbyte, ?_⟩
  · have hvalue : Codec.InRange true 16 (minusOne.number true) := by decide +kernel
    obtain ⟨r, t, hrun, -, hstores⟩ := ((hd _).assign_bitmap hgroups rfl (.varint true) minusOne).2 rfl nofun
    obtain ⟨raw, q, hq, hint⟩ := hstores hvalue
    obtain rfl : r = .ok () := hq.unaffected trivial
    exact ⟨t, q, hrun, hq.found, hint (by decide +kernel)⟩
  · have hvalue : Codec.InRange false 1 (minusOne.number false) := by decide +kernel
    obtain ⟨r, t, hrun, -, hstores⟩ := ((hd _).assign_bitmap hbyte rfl (.int .u8) minusOne).2 rfl
      (by rintro _ ⟨⟩ ⟨⟩)
    obtain ⟨raw, q, hq, hint⟩ := hstores hvalue
    obtain rfl : r = .ok () := hq.unaffected trivial
    exact ⟨t, q, hrun, hq.found, hint (by decide +kernel)⟩

/-- The byte takes the bits, and it is not -1 afterwards. And bits that stand for one are in the range of a byte,
but one that a later field cannot follow refuses them, and so does what a null pointer refers to. -/
theorem assign_bitmap_ne_of_unsigned :
    (¬ ∀ n, minusOne.toInt128? = some n →
      ((assign 0 (.bits minusOne)).run (zeroWhole (.int .u8))).1.toOption = some () →
      ((((assign 0 (.bits minusOne)).run (zeroWhole (.int .u8))).2.find? 0).bind fun q => q.int.toOption)
        = some n)
      ∧ Codec.InRange false 1 ((Bitmap.ofNat 1 8 false).number false)
      ∧ ((assign 1 (.bits (Bitmap.ofNat 1 8 false))).run TiedNumber.record).1.toOption = none
      ∧ ((assign 1 (.bits (Bitmap.ofNat 1 8 false))).run TiedNumber.referent).1.toOption = none := by
  refine ⟨?_, by decide +kernel, by decide +kernel, by decide +kernel⟩
  intro h
  have hvalue : minusOne.toInt128? = some (-1) := by decide +kernel
  have hok : ((assign 0 (.bits minusOne)).run (zeroWhole (.int .u8))).1.toOption = some () := by
    decide +kernel
  have hint : ((((assign 0 (.bits minusOne)).run (zeroWhole (.int .u8))).2.find? 0).bind fun q =>
      q.int.toOption) = some 15 := by decide +kernel
  have hsame := hint.symm.trans (h (-1) hvalue hok)
  cases hsame

end Document

end BinaryLayout
