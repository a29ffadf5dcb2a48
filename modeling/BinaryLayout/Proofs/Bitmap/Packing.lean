import BinaryLayout.Bitmap.Packing
import BinaryLayout.Proofs.Bitmap.Vector

/-!
# Readers and writers as streams of bits

A reader slices a byte by shifts that depend on the order, and puts the pieces of a field together the
other way round in the other order; a writer cuts fields and fills bytes by shifts in the same way. In
terms of the stream of bits both do the same in either order: the reader takes the bits that come next,
and the writer adds bits to those that are there, wherever bytes end between them.

## Main definitions

* `Bitmap.place`: which bit of a field is the one of a number in the stream.
* `BitReader.pending`: the bits of the byte that were not handed out.
* `BitWriter.Holds`: the bits that were written.

## Main statements

* `BitReader.stream_chunk`, `BitReader.pending_skip`: a chunk is what comes next, and the rest stays.
* `BitReader.pad_eq`: the pad is made of the bits that were not handed out.
* `BitWriter.Holds.write`: a field adds its bits to those that were written.
* `BitWriter.Holds.finish`: the bytes are those of the stream, and of the pad if it fills the last one.
-/

namespace BinaryLayout

variable {order : ByteOrder} {bits : List Bool} {count : Nat}

namespace Bitmap

/-- Which bit of a field of so many bits is the one of number `i` in a stream. -/
def place (order : ByteOrder) (width i : Nat) : Nat :=
  match order with
  | .big => width - 1 - i
  | .little => i

/-- A field that was read from a stretch of a stream holds its bits. -/
theorem bit_ofStream (order : ByteOrder) {bits : List Bool} {i : Nat} (hi : i < bits.length) :
    (ofStream order bits).bit (place order bits.length i) = bits[i] := by
  cases order with
  | little => rw [ofStream, place, bit, value_ofBits, testBit_natOfBits, List.getElem?_eq_getElem hi,
      Option.getD_some]
  | big =>
    have hplace : bits.length - 1 - i < bits.reverse.length := by
      rw [List.length_reverse]
      omega
    have hback : bits.length - 1 - (bits.length - 1 - i) = i := by omega
    rw [ofStream, place, bit, value_ofBits, testBit_natOfBits, List.getElem?_eq_getElem hplace,
      Option.getD_some, List.getElem_reverse]
    exact getElem_congr_idx hback

/-- A field that is read from its own bits is the field, without a sign. -/
theorem ofStream_stream (order : ByteOrder) (b : Bitmap) :
    ofStream order (b.stream order) = b.withSign false := by
  refine ext_value (value_ofStream_stream order b) ?_ ?_
  · rw [width_ofStream, length_stream, width_withSign]
  · cases order <;> rfl

/-- A field of a stream holds the bits of its stretch. -/
theorem getElem_stream (order : ByteOrder) (b : Bitmap) {i : Nat} (hi : i < (b.stream order).length) :
    (b.stream order)[i] = b.bit (place order b.width i) := by
  have hbit := bit_ofStream order hi
  rw [← hbit, ofStream_stream, length_stream]
  rfl

/-- The stretch of a field is known by its bits. -/
theorem stream_eq_of_bit {b : Bitmap} (hwidth : b.width = bits.length)
    (hbit : ∀ i (hi : i < bits.length), b.bit (place order b.width i) = bits[i]) :
    b.stream order = bits := by
  apply List.ext_getElem
  · simp [hwidth]
  · intro i hi hi'
    rw [getElem_stream, hbit i hi']

/-- A field without a sign is read from its own stretch. -/
theorem eq_ofStream {b : Bitmap} (hstream : b.stream order = bits) (hsigned : b.signed = false) :
    b = ofStream order bits := by
  rw [← hstream, ofStream_stream, withSign, ← hsigned]

@[simp] theorem signed_ofStream (order : ByteOrder) (bits : List Bool) :
    (ofStream order bits).signed = false := by
  cases order <;> rfl

/-- The next piece of a field comes after those before it in the stream. -/
@[simp] theorem stream_join (order : ByteOrder) (field piece : Bitmap) :
    (order.join field piece).stream order = field.stream order ++ piece.stream order := by
  cases order <;> simp [ByteOrder.join, stream]

@[simp] theorem signed_join (order : ByteOrder) (field piece : Bitmap) :
    (order.join field piece).signed = field.signed := by
  cases order <;> rfl

/-- Bits cut out of a field are a stretch of its own stretch. -/
theorem stream_get (order : ByteOrder) (b : Bitmap) {left : Nat} (h : count ≤ left) (hleft : left ≤ b.width) :
    (b.get (order.shiftOutOf b.width left count) count).stream order
      = ((b.stream order).drop (b.width - left)).take count := by
  apply stream_eq_of_bit
  · simp [get]
    omega
  · intro i hi
    have hin : i < count := by
      simp at hi
      omega
    rw [List.getElem_take, List.getElem_drop, getElem_stream, get, bit_ofNat, width_ofNat,
      Nat.testBit_shiftRight]
    cases order with
    | big =>
      have hplace : left - count + (count - 1 - i) = b.width - 1 - (b.width - left + i) := by omega
      have hlow : count - 1 - i < count := by omega
      simp [place, ByteOrder.shiftOutOf, hplace, hlow, bit]
    | little => simp [place, ByteOrder.shiftOutOf, hin, bit]

end Bitmap

/-! ## Bytes -/

namespace BitStream

/-- The bits of a byte that was made of at most eight bits. -/
theorem ofByte_toByte (order : ByteOrder) {bits : List Bool} (h : bits.length ≤ 8) :
    ofByte order (toByte order bits) = bits ++ List.replicate (8 - bits.length) false := by
  have hlength : (bits ++ List.replicate (8 - bits.length) false).length = 8 := by
    rw [List.length_append, List.length_replicate]
    omega
  rw [toByte, ofByte]
  generalize bits ++ List.replicate (8 - bits.length) false = byte at hlength
  have hlt := (Bitmap.ofStream order byte).value_lt
  rw [Bitmap.width_ofStream, hlength] at hlt
  have hwidth : (Bitmap.ofStream order byte).width = 8 := by rw [Bitmap.width_ofStream, hlength]
  rw [UInt8.toNat_ofNat_of_lt' hlt, ← hwidth, Bitmap.ofNat_value, Bitmap.stream_withSign,
    Bitmap.stream_ofStream]

theorem getElem_ofByte (order : ByteOrder) (b : UInt8) {i : Nat} (hi : i < (ofByte order b).length) :
    (ofByte order b)[i] = b.toNat.testBit (Bitmap.place order 8 i) := by
  have hlt : b.toNat < pow2 8 := b.toNat_lt
  have hlength := length_ofByte order b
  have hbit := Bitmap.bit_ofStream order hi
  rw [← hbit, hlength, Bitmap.bit, ofByte, Bitmap.value_ofStream_stream, Bitmap.value_ofNat,
    Nat.mod_eq_of_lt hlt]

/-- The bits of a byte are known one by one. -/
theorem ofByte_eq {b : UInt8} (hlength : bits.length = 8)
    (hbit : ∀ i (hi : i < bits.length), b.toNat.testBit (Bitmap.place order 8 i) = bits[i]) :
    ofByte order b = bits := by
  apply List.ext_getElem
  · simp [hlength]
  · intro i hi hi'
    rw [getElem_ofByte, hbit i hi']

/-- The bytes of whole bytes and more bits. -/
theorem pack_flatMap_append (order : ByteOrder) (bytes : Bytes) (rest : List Bool) :
    pack order (bytes.flatMap (ofByte order) ++ rest) = bytes ++ pack order rest := by
  induction bytes with
  | nil => rfl
  | cons b bytes ih =>
    rw [List.flatMap_cons, List.append_assoc, pack_append order (length_ofByte order b), toByte_ofByte,
      ih, List.cons_append]

/-- Less bits than a byte has are one byte. -/
theorem pack_short (hsome : bits ≠ []) (hfew : bits.length < 8) : pack order bits = [toByte order bits] := by
  refine pack.eq_3 order bits (fun _ _ _ _ _ _ _ _ _ h => ?_) hsome
  have hmany := congrArg List.length h
  simp at hmany
  omega

end BitStream

theorem testBit_lowOfByte (value : Nat) {bits i : Nat} (h : i < bits) :
    (lowOfByte value bits).testBit i = value.testBit i := by
  rw [lowOfByte]
  split
  · rfl
  · simp [Bitmap.testBit_mask, h]

/-! ## Readers -/

namespace BitReader

variable (r : BitReader)

/-- The bits of the byte that were not handed out. -/
def pending : List Bool := (BitStream.ofByte r.order r.current).drop (8 - r.remaining)

@[simp] theorem length_pending : r.pending.length = r.remaining := by
  have hle := r.remaining_le
  simp [pending]
  omega

@[simp] theorem pending_new (order : ByteOrder) : (new order).pending = [] :=
  List.eq_nil_of_length_eq_zero (length_pending _)

@[simp] theorem pending_refill (byte : UInt8) :
    (r.refill byte).pending = BitStream.ofByte r.order byte := rfl

theorem getElem_pending {i : Nat} (hi : i < r.pending.length) :
    r.pending[i] = r.current.toNat.testBit (Bitmap.place r.order 8 (8 - r.remaining + i)) := by
  simp only [pending]
  rw [List.getElem_drop, BitStream.getElem_ofByte]

/-- The bits after those that are skipped are left. -/
theorem pending_skip (count : Nat) : (r.skip count).pending = r.pending.drop count := by
  have hle := r.remaining_le
  rw [pending, pending, List.drop_drop, order_skip, remaining_skip]
  by_cases h : count ≤ r.remaining
  · have hplace : 8 - (r.remaining - count) = 8 - r.remaining + count := by omega
    rw [hplace]
    rfl
  · have hall (n : Nat) (hn : 8 ≤ n) : (BitStream.ofByte r.order r.current).drop n = [] :=
      List.drop_of_length_le (by simp [hn])
    rw [hall _ (by omega)]
    exact hall _ (by omega)

/-- A chunk is made of the bits that come next. -/
theorem stream_chunk (h : count ≤ r.remaining) :
    (r.chunk count).stream r.order = r.pending.take count := by
  have hle := r.remaining_le
  apply Bitmap.stream_eq_of_bit
  · simp [h]
  · intro i hi
    have hin : i < count := by
      simp at hi
      omega
    rw [List.getElem_take, getElem_pending, chunk, Bitmap.bit_ofNat, Bitmap.width_ofNat]
    cases r.order with
    | big =>
      have hplace : r.remaining - count + (count - 1 - i) = 8 - 1 - (8 - r.remaining + i) := by omega
      have hlow : count - 1 - i < count := by omega
      simp [Bitmap.place, testBit_lowOfByte _ hlow, hlow, hplace]
    | little => simp [Bitmap.place, testBit_lowOfByte _ hin, hin]

/-- The pad is made of all bits that were not handed out. -/
theorem pad_eq : r.pad = Bitmap.ofStream r.order r.pending := by
  have hle := r.remaining_le
  refine Bitmap.eq_ofStream (Bitmap.stream_eq_of_bit (by simp) fun i hi => ?_) rfl
  have hin : i < r.remaining := by simpa using hi
  have hsome : r.remaining ≠ 0 := by omega
  rw [getElem_pending, pad, Bitmap.bit_ofNat, Bitmap.width_ofNat]
  cases r.order with
  | big =>
    have hplace : r.remaining - 1 - i = 7 - (8 - r.remaining + i) := by omega
    have hlow : 7 - (8 - r.remaining + i) < r.remaining := by omega
    simp [Bitmap.place, hplace, testBit_lowOfByte _ hlow, hlow]
  | little => simp [Bitmap.place, hin, hsome]

/-- Bits that were handed out are followed by the pad where that fills their last byte. -/
theorem close_pad (hfew : r.pending.length < 8) (hwhole : (bits.length + r.pending.length) % 8 = 0) :
    BitStream.close r.order bits r.pad = bits ++ r.pending := by
  rw [BitStream.close, pad_eq, Bitmap.width_ofStream, Bitmap.stream_ofStream]
  split
  · rfl
  · have hnil : r.pending = [] := List.eq_nil_of_length_eq_zero (by omega)
    rw [hnil, List.append_nil]

end BitReader

/-! ## Writers -/

namespace BitWriter

variable {w : BitWriter}

/-- The bits that were written: those of the full bytes and the first ones of the byte that is being
filled, which has no others. -/
structure Holds (w : BitWriter) (order : ByteOrder) (bits : List Bool) : Prop where
  order_eq : w.order = order
  bits_eq : w.out.toList.flatMap (BitStream.ofByte order)
    ++ (BitStream.ofByte order w.current).take w.filled = bits
  clear : ∀ i, w.filled ≤ i → i < 8 → w.current.toNat.testBit (Bitmap.place order 8 i) = false

theorem holds_new (order : ByteOrder) : (new order).Holds order [] :=
  ⟨rfl, rfl, fun _ _ _ => Nat.zero_testBit _⟩

/-- Each bit of a byte to which a piece was added is one of the byte or one of the piece. -/
theorem testBit_or_shiftInto (current : UInt8) (piece : Bitmap) {filled i : Nat}
    (h : piece.width ≤ 8 - filled) (hi : i < 8)
    (hclear : ∀ i, filled ≤ i → i < 8 → current.toNat.testBit (Bitmap.place order 8 i) = false) :
    (current ||| UInt8.ofNat (piece.value <<< order.shiftInto filled piece.width)).toNat.testBit
        (Bitmap.place order 8 i)
      = if i < filled then current.toNat.testBit (Bitmap.place order 8 i)
        else if i < filled + piece.width then piece.bit (Bitmap.place order piece.width (i - filled))
        else false := by
  have hpast {j : Nat} (hj : piece.width ≤ j) : piece.value.testBit j = false := Bitmap.bit_eq_false hj
  have hplace : Bitmap.place order 8 i < 8 := by
    cases order <;> simp [Bitmap.place] <;> omega
  have hbyte (n : Nat) : (n % 2 ^ 8).testBit (Bitmap.place order 8 i)
      = n.testBit (Bitmap.place order 8 i) := by
    rw [Nat.testBit_mod_two_pow]
    simp [hplace]
  rw [UInt8.toNat_or, UInt8.toNat_ofNat', Nat.testBit_or, hbyte, Nat.testBit_shiftLeft]
  by_cases hbefore : i < filled
  · rw [if_pos hbefore]
    cases order with
    | big =>
      rw [hpast (by simp only [Bitmap.place, ByteOrder.shiftInto]; omega), Bool.and_false, Bool.or_false]
    | little => simp [Bitmap.place, ByteOrder.shiftInto, Nat.not_le.2 hbefore]
  · rw [hclear i (Nat.le_of_not_lt hbefore) hi, Bool.false_or, if_neg hbefore]
    by_cases hwithin : i < filled + piece.width
    · rw [if_pos hwithin]
      cases order with
      | big =>
        have hback : 7 - i - (8 - filled - piece.width) = piece.width - 1 - (i - filled) := by omega
        have hle : 8 - filled - piece.width ≤ 7 - i := by omega
        simp [Bitmap.place, ByteOrder.shiftInto, hback, hle, Bitmap.bit]
      | little => simp [Bitmap.place, ByteOrder.shiftInto, Nat.le_of_not_lt hbefore, Bitmap.bit]
    · rw [if_neg hwithin]
      cases order with
      | big =>
        have hle : ¬ 8 - filled - piece.width ≤ 7 - i := by omega
        simp [Bitmap.place, ByteOrder.shiftInto, hle]
      | little =>
        rw [hpast (by simp only [Bitmap.place, ByteOrder.shiftInto]; omega), Bool.and_false]

/-- A piece of at most as many bits as are left in the byte comes after those that are there. -/
theorem Holds.fill (hw : w.Holds order bits) (piece : Bitmap) (h : piece.width ≤ 8 - w.filled) :
    (w.fill piece.value piece.width h).Holds order (bits ++ piece.stream order) := by
  obtain ⟨hpacking, hbits, hclear⟩ := hw
  have hlt := w.filled_lt
  have hor := fun i (hi : i < 8) => testBit_or_shiftInto w.current piece h hi hclear
  simp only [BitWriter.fill, hpacking]
  generalize w.current ||| UInt8.ofNat (piece.value <<< order.shiftInto w.filled piece.width) = current
    at hor
  -- What was written of the byte is what it held, and the piece.
  have htaken : (BitStream.ofByte order current).take (w.filled + piece.width)
      = (BitStream.ofByte order w.current).take w.filled ++ piece.stream order := by
    apply List.ext_getElem
    · simp
      omega
    · intro i hi hi'
      have hin : i < 8 := by
        simp at hi
        omega
      rw [List.getElem_take, BitStream.getElem_ofByte, hor i hin]
      by_cases hbefore : i < w.filled
      · rw [if_pos hbefore, List.getElem_append_left (by simp; omega), List.getElem_take,
          BitStream.getElem_ofByte]
      · have hfield : i < w.filled + piece.width := by
          simp at hi
          omega
        have hlength : ((BitStream.ofByte order w.current).take w.filled).length = w.filled := by
          simp
          omega
        rw [if_neg hbefore, if_pos hfield, List.getElem_append_right (by omega), Bitmap.getElem_stream]
        simp only [hlength]
  by_cases hfull : w.filled + piece.width = 8
  · have hall : BitStream.ofByte order current
        = (BitStream.ofByte order w.current).take w.filled ++ piece.stream order := by
      rw [← htaken, hfull, List.take_of_length_le (by simp)]
    simp only [hfull, dite_true]
    exact ⟨rfl, by simp [← hbits, hall], fun _ _ _ => Nat.zero_testBit _⟩
  · simp only [hfull, dite_false]
    refine ⟨rfl, by simp [← hbits, htaken], fun i hi hlast => ?_⟩
    have hbefore : ¬ i < w.filled := by
      dsimp only at hi
      omega
    rw [hor i hlast, if_neg hbefore, if_neg (Nat.not_lt.2 hi)]

/-- The bits of a field of which so many are left come after those that are there. -/
theorem Holds.put (field : Bitmap) (fuel left : Nat) (hfuel : left ≤ fuel) (hleft : left ≤ field.width)
    (hw : w.Holds order bits) :
    (put field fuel left w).Holds order (bits ++ (field.stream order).drop (field.width - left)) := by
  have hend (bits : List Bool) : bits ++ (field.stream order).drop (field.width - 0) = bits := by
    rw [List.drop_of_length_le (by simp), List.append_nil]
  induction fuel generalizing left w bits with
  | zero =>
    cases Nat.le_zero.1 hfuel
    rw [hend]
    exact hw
  | succ fuel ih =>
    cases left with
    | zero =>
      rw [hend]
      exact hw
    | succ left =>
      have hlt := w.filled_lt
      obtain ⟨count, hcount⟩ : ∃ count, count = min (left + 1) (8 - w.filled) := ⟨_, rfl⟩
      have hpiece : (field.get (order.shiftOutOf field.width (left + 1) count) count).width = count := rfl
      have hnext := hw.fill (field.get (order.shiftOutOf field.width (left + 1) count) count)
        (by rw [hpiece]; omega)
      have hrest : (field.stream order).drop (field.width - (left + 1 - count))
          = ((field.stream order).drop (field.width - (left + 1))).drop count := by
        rw [List.drop_drop]
        congr 1
        omega
      have hsplit : bits ++ (field.stream order).drop (field.width - (left + 1))
          = bits ++ (field.get (order.shiftOutOf field.width (left + 1) count) count).stream order
            ++ (field.stream order).drop (field.width - (left + 1 - count)) := by
        rw [Bitmap.stream_get order field (by omega) hleft, hrest, List.append_assoc,
          List.take_append_drop]
      rw [hsplit, BitWriter.put]
      simp only [hw.order_eq, ← hcount]
      exact ih _ (by omega) (by omega) hnext

/-- A field comes after the bits that are there. -/
theorem Holds.write (hw : w.Holds order bits) (field : Bitmap) :
    (w.write field).Holds order (bits ++ field.stream order) := by
  have hput := hw.put field field.width field.width (Nat.le_refl _) (Nat.le_refl _)
  rwa [Nat.sub_self, List.drop_zero] at hput

/-- Fields come one after another. -/
theorem Holds.foldl_write (hw : w.Holds order bits) (fields : List Bitmap) :
    (fields.foldl BitWriter.write w).Holds order (bits ++ fields.flatMap (Bitmap.stream order)) := by
  induction fields generalizing w bits with
  | nil => simpa using hw
  | cons field fields ih => simpa using ih (hw.write field)

theorem Holds.length_eq (hw : w.Holds order bits) : bits.length = 8 * w.out.size + w.filled := by
  have hlt := w.filled_lt
  rw [← hw.bits_eq]
  simp
  omega

/-- A writer whose last byte is full has the bytes of the bits. -/
theorem Holds.toList_out (hw : w.Holds order bits) (h : w.filled = 0) :
    w.out.toList = BitStream.pack order bits := by
  rw [← hw.bits_eq, h, List.take_zero, List.append_nil, BitStream.pack_flatMap]

/-- The byte that is being filled is that of its bits. -/
theorem Holds.toByte_take (hw : w.Holds order bits) :
    BitStream.toByte order ((BitStream.ofByte order w.current).take w.filled) = w.current := by
  have hlt := w.filled_lt
  have hlength : ((BitStream.ofByte order w.current).take w.filled).length = w.filled := by
    simp
    omega
  have hall : BitStream.ofByte order w.current = (BitStream.ofByte order w.current).take w.filled
      ++ List.replicate (8 - w.filled) false := by
    apply BitStream.ofByte_eq
    · simp
      omega
    · intro i hi
      by_cases hbefore : i < w.filled
      · rw [List.getElem_append_left (by omega), List.getElem_take, BitStream.getElem_ofByte]
      · have hin : i < 8 := by
          simp at hi
          omega
        rw [List.getElem_append_right (by omega), List.getElem_replicate,
          hw.clear i (Nat.le_of_not_lt hbefore) hin]
  have hsame : BitStream.ofByte order (BitStream.toByte order
      ((BitStream.ofByte order w.current).take w.filled)) = BitStream.ofByte order w.current := by
    rw [BitStream.ofByte_toByte order (by omega), hlength]
    exact hall.symm
  rw [← BitStream.toByte_ofByte order (BitStream.toByte order _), hsame, BitStream.toByte_ofByte]

/-- **The bytes that were written are those of the stream**, with the pad if that fills the last one. -/
theorem Holds.finish (hw : w.Holds order bits) (pad : Bitmap) :
    w.finish pad = BitStream.pack order (BitStream.close order bits pad) := by
  have hlt := w.filled_lt
  have hlength := hw.length_eq
  have hmod : bits.length % 8 = w.filled := by omega
  rw [BitWriter.finish, BitStream.close, hmod]
  by_cases hfull : w.filled = 0
  · rw [if_pos hfull, if_neg (by simp [hfull])]
    exact hw.toList_out hfull
  · rw [if_neg hfull]
    by_cases hpad : pad.width = 8 - w.filled
    · have hnext := hw.write pad
      have hnone : (w.write pad).filled = 0 := by
        have hlast := (w.write pad).filled_lt
        have hsize := hnext.length_eq
        rw [List.length_append, Bitmap.length_stream] at hsize
        omega
      rw [if_pos hpad, if_pos ⟨hfull, hpad⟩]
      exact hnext.toList_out hnone
    · have hlast : ((BitStream.ofByte order w.current).take w.filled).length < 8 := by
        simp
        omega
      have hsome : ((BitStream.ofByte order w.current).take w.filled) ≠ [] := by
        intro hnil
        have hnone := congrArg List.length hnil
        simp at hnone
        omega
      rw [if_neg hpad, if_neg (fun h => hpad h.2), ← hw.bits_eq, BitStream.pack_flatMap_append,
        BitStream.pack_short hsome hlast, hw.toByte_take, Array.toList_push]

end BitWriter

end BinaryLayout
