import Mathlib.Data.List.SplitLengths
import BinaryLayout.Proofs.Codec.Integer
import BinaryLayout.Proofs.Replay.Bits

/-!
# Fields of bits, written and read

Fields are written one after another into whole bytes, and read from bytes one after another. Whatever
their widths are, and wherever bytes end between them, the same fields come back, and so do the bytes
that were read, if the bits left of the last one are written with the fields.

The fields are those stretches of the stream of bits that their widths cut it into. This stream starts
with the highest bit of each byte in big-endian order, and with the lowest one in little-endian order.

## Main definitions

* `BitWriter.bytes`: the bytes of fields.
* `BitLoadM.readFields`: fields of given widths.
* `BitStream.bitAt`: the bits of the stream of bytes.
* `BitLoadState.Offers`: the bits that come next.

## Main statements

* `BitStream.flatMap_pack`: the bits of the bytes of a stream.
* `BitLoadM.offers_readFields`: fields read from the bits that come next.
* `BitWriter.bytes_inverse`: fields that were written are read, and bytes that were read are written.
-/

namespace BinaryLayout

variable {κ : Type} {order : ByteOrder}

/-! ## Bits and bytes -/

namespace Bitmap

/-- A field in a stream of fields starts where those before it end. -/
theorem getElem?_flatMap_stream (order : ByteOrder) (fields : List Bitmap) {k i : Nat}
    (hk : k < fields.length) (hi : i < fields[k].width) :
    (fields.flatMap (stream order))[((fields.map width).take k).sum + i]? =
      some (fields[k].bit (place order fields[k].width i)) := by
  induction fields generalizing k with
  | nil => exact absurd hk (Nat.not_lt_zero k)
  | cons field fields ih =>
    cases k with
    | zero =>
      have hlt : i < (field.stream order).length := by rwa [length_stream]
      rw [List.flatMap_cons, List.take_zero, List.sum_nil, Nat.zero_add, List.getElem?_append_left hlt,
        List.getElem?_eq_getElem hlt, getElem_stream]
      rfl
    | succ k =>
      rw [List.flatMap_cons, List.map_cons, List.take_succ_cons, List.sum_cons, Nat.add_assoc,
        ← length_stream order, List.getElem?_append_right (Nat.le_add_right _ _), Nat.add_sub_cancel_left]
      exact ih (Nat.lt_of_succ_lt_succ hk) hi

end Bitmap

namespace BitStream

/-- The bits of the bytes of a stream are those of the stream, and zeros in the last byte. -/
theorem flatMap_pack (order : ByteOrder) (bits : List Bool) :
    (pack order bits).flatMap (ofByte order) =
      bits ++ List.replicate ((8 - bits.length % 8) % 8) false := by
  fun_induction pack order bits with
  | case1 a b c d e f g h rest ih =>
    have hbyte : ofByte order (toByte order [a, b, c, d, e, f, g, h]) = [a, b, c, d, e, f, g, h] :=
      ofByte_toByte order (Nat.le_refl 8)
    have hlength : (a :: b :: c :: d :: e :: f :: g :: h :: rest).length % 8 = rest.length % 8 := by
      simp only [List.length_cons]
      omega
    rw [List.flatMap_cons, ih, hbyte, hlength]
    rfl
  | case2 => rfl
  | case3 bits hlong hempty =>
    have hlength := length_pack order bits
    rw [pack.eq_3 order bits hlong hempty, List.length_singleton] at hlength
    have hpad : (8 - bits.length % 8) % 8 = 8 - bits.length := by omega
    rw [List.flatMap_cons, List.flatMap_nil, List.append_nil, ofByte_toByte order (by omega), hpad]

/-- The bit of number `i` in the stream of bytes. -/
def bitAt (order : ByteOrder) (bytes : Bytes) (i : Nat) : Bool :=
  (bytes.getD (i / 8) 0).toNat.testBit (Bitmap.place order 8 (i % 8))

/-- The stream of bytes holds each bit at its number. -/
theorem getElem_flatMap_ofByte (order : ByteOrder) (bytes : Bytes) {i : Nat}
    (hi : i < (bytes.flatMap (ofByte order)).length) :
    (bytes.flatMap (ofByte order))[i] = bitAt order bytes i := by
  induction bytes generalizing i with
  | nil => exact absurd hi (Nat.not_lt_zero i)
  | cons b bytes ih =>
    rw [bitAt]
    simp only [List.flatMap_cons]
    by_cases hhere : i < 8
    · rw [List.getElem_append_left (by rwa [length_ofByte]), getElem_ofByte, Nat.div_eq_of_lt hhere,
        Nat.mod_eq_of_lt hhere, List.getD_cons_zero]
    · obtain ⟨j, rfl⟩ := Nat.exists_eq_add_of_le' (Nat.le_of_not_lt hhere)
      have hlength := length_ofByte order b
      have hj : j < (bytes.flatMap (ofByte order)).length := by
        rw [List.flatMap_cons, List.length_append, hlength] at hi
        omega
      have hdiv : (j + 8) / 8 = j / 8 + 1 := Nat.add_div_right j (by decide)
      have hsub : j + 8 - 8 = j := Nat.add_sub_cancel j 8
      rw [List.getElem_append_right (by omega), hdiv, Nat.add_mod_right, List.getD_cons_succ]
      simp only [hlength, hsub]
      exact ih hj

/-- What the stream of bytes starts with is made of the bits of the first numbers. -/
theorem eq_map_bitAt (order : ByteOrder) {bytes : Bytes} {bits rest : List Bool}
    (h : bytes.flatMap (ofByte order) = bits ++ rest) :
    bits = (List.range bits.length).map (bitAt order bytes) := by
  refine List.ext_getElem (by rw [List.length_map, List.length_range]) fun i hi _ => ?_
  have hlong : i < (bytes.flatMap (ofByte order)).length := by
    rw [h, List.length_append]
    omega
  rw [List.getElem_map, List.getElem_range, ← getElem_flatMap_ofByte order bytes hlong]
  simp only [h, List.getElem_append_left hi]

/-- A stream that is long enough is cut into stretches of the given lengths. -/
theorem exists_stretches {bits : List Bool} {widths : List Nat} (h : widths.sum ≤ bits.length) :
    ∃ (stretches : List (List Bool)) (rest : List Bool),
      stretches.map List.length = widths ∧ bits = stretches.flatten ++ rest := by
  have htaken : (bits.take widths.sum).length = widths.sum := by
    rw [List.length_take, Nat.min_eq_left h]
  refine ⟨widths.splitLengths (bits.take widths.sum), bits.drop widths.sum, ?_, ?_⟩
  · exact List.map_splitLengths_length _ widths (Nat.le_of_eq htaken.symm)
  · rw [List.flatten_splitLengths _ widths (Nat.le_of_eq htaken), List.take_append_drop]

/-- Fields that were read from stretches of a stream are these stretches. -/
theorem flatMap_stream_ofStream (order : ByteOrder) (stretches : List (List Bool)) :
    (stretches.map (Bitmap.ofStream order)).flatMap (Bitmap.stream order) = stretches.flatten := by
  rw [List.flatMap_map]
  simp only [Bitmap.stream_ofStream]
  rw [List.flatMap_id']

/-- The first bytes hold the first bits. -/
theorem take_flatMap_ofByte (order : ByteOrder) (bytes : Bytes) (n : Nat) :
    (bytes.flatMap (ofByte order)).take (8 * n) = (bytes.take n).flatMap (ofByte order) := by
  induction n generalizing bytes with
  | zero => rw [Nat.mul_zero, List.take_zero, List.take_zero, List.flatMap_nil]
  | succ n ih =>
    cases bytes with
    | nil => rw [List.flatMap_nil, List.take_nil, List.take_nil, List.flatMap_nil]
    | cons b bytes =>
      have hcount : 8 * (n + 1) = (ofByte order b).length + 8 * n := by rw [length_ofByte]; omega
      rw [List.flatMap_cons, hcount, List.take_length_add_append, ih, List.take_succ_cons,
        List.flatMap_cons]

end BitStream

namespace BitWriter

/-- The bytes of fields that are written one after another. -/
def bytes (order : ByteOrder) (fields : List Bitmap) (pad : Bitmap) : Bytes :=
  (fields.foldl write (.new order)).finish pad

/-- The bytes of fields are those of their stream. -/
theorem bytes_eq (order : ByteOrder) (fields : List Bitmap) (pad : Bitmap) :
    bytes order fields pad =
      BitStream.pack order (BitStream.close order (fields.flatMap (Bitmap.stream order)) pad) :=
  ((holds_new order).foldl_write fields).finish pad

/-- The stream of the bytes of fields starts with the fields, whatever fills the last byte. -/
theorem prefix_flatMap_bytes (order : ByteOrder) (fields : List Bitmap) (pad : Bitmap) :
    fields.flatMap (Bitmap.stream order) <+: (bytes order fields pad).flatMap (BitStream.ofByte order) := by
  rw [bytes_eq, BitStream.flatMap_pack, BitStream.close]
  split
  · rw [List.append_assoc]
    exact List.prefix_append _ _
  · exact List.prefix_append _ _

end BitWriter

/-! ## Reading fields -/

/-- These bits come next, from the bit of number `start` on: those that are pending, and those of bytes
that the view gives. -/
structure BitLoadState.Holds (order : ByteOrder) (start : Nat) (bits : List Bool) (s : BitLoadState κ) :
    Prop where
  packing : s.order = order
  stands : s.base.view.StandsAt s.next
  position : 8 * s.next = start + s.pending.length
  bytes : ∃ bytes, s.base.view.Spells s.next bytes
    ∧ s.pending ++ bytes.flatMap (BitStream.ofByte order) = bits

/-- These bits come next, and no whole byte is pending. -/
structure BitLoadState.Offers (order : ByteOrder) (start : Nat) (bits : List Bool) (s : BitLoadState κ) :
    Prop extends Holds order start bits s where
  few : s.pending.length < 8

namespace BitLoadM

open BitLoadState

variable {start : Nat} {bit : Bool} {bits rest : List Bool} {s : BitLoadState κ}

def readFields : List Nat → BitLoadM κ (Except Error (List Bitmap))
  | [] => return .ok []
  | width :: widths => do
    match ← read width with
    | .error e => return .error e
    | .ok field => return (← readFields widths).map (field :: ·)

/-- A byte is fetched when bits come next and none is pending. -/
theorem holds_fetch (hs : s.Holds order start bits) (hnil : s.pending = []) (hsome : bits ≠ []) :
    Ends fetch s fun result t => result = .ok () ∧ t.Holds order start bits := by
  obtain ⟨horder, hstands, hposition, bytes, hbytes, rfl⟩ := hs
  rw [hnil, List.nil_append] at hsome ⊢
  cases bytes with
  | nil => exact absurd rfl hsome
  | cons b bytes =>
    refine (fetched_fetch hstands hbytes.1).mono fun result t ht => ⟨ht.1, ?_⟩
    obtain ⟨-, hfetched⟩ := ht
    have hpending : t.pending = BitStream.ofByte order b := by
      rw [pending, hfetched.reader, BitReader.pending_refill]
      exact congrArg (BitStream.ofByte · b) horder
    refine ⟨?_, hfetched.stands, ?_, bytes, ?_, by rw [hpending, List.flatMap_cons]⟩
    · rw [BitLoadState.order, hfetched.reader]
      exact horder
    · rw [hpending, BitStream.length_ofByte, hfetched.next]
      rw [hnil, List.length_nil] at hposition
      omega
    · rw [hfetched.next]
      exact hbytes.2.of_rewound hfetched.view

/-- The pending bits are handed out in their order. -/
theorem offers_skip (hs : s.Holds order start bits) {count : Nat} (hpos : 0 < count)
    (hcount : count ≤ s.pending.length) : (s.skip count).Offers order (start + count) (bits.drop count) := by
  obtain ⟨horder, hstands, hposition, bytes, hbytes, rfl⟩ := hs
  have hmost := s.pending_le
  refine ⟨⟨horder, hstands, ?_, bytes, hbytes, ?_⟩, ?_⟩
  · rw [next_skip, pending_skip, List.length_drop]
    omega
  · rw [pending_skip, List.drop_append_of_le_length hcount]
  · rw [pending_skip, List.length_drop]
    omega

/-- A field is read from the bits that come next. -/
theorem offers_read (hs : s.Offers order start (bits ++ rest)) :
    Ends (read bits.length) s fun result t =>
      result = .ok (Bitmap.ofStream order bits) ∧ t.Offers order (start + bits.length) rest := by
  refine (ends_read
    (fun done t => ∃ more, done ++ more = bits ++ rest ∧ t.Offers order (start + done.length) more)
    (fun done t => ∃ more, done ++ more = bits ++ rest ∧ t.Holds order (start + done.length) more)
    (fun _ _ => False) (fun done t hmore ht hnone => ?_)
    (fun _ _ ⟨more, hmore, ht⟩ _ => ⟨more, hmore, ht.toHolds⟩) (fun done t count hpos hle _ ht => ?_)
    ⟨_, rfl, by simpa using hs⟩).mono fun result t ht => ?_
  · obtain ⟨more, hall, ht⟩ := ht
    have hsome : more ≠ [] := by
      rintro rfl
      have hlength := congrArg List.length hall
      simp only [List.length_append, List.length_nil] at hlength
      omega
    refine (holds_fetch ht.toHolds (t.pending_eq_nil.2 hnone) hsome).mono fun result u hu => ?_
    obtain ⟨rfl, hu⟩ := hu
    exact ⟨more, hall, hu⟩
  · obtain ⟨more, hall, ht⟩ := ht
    rw [← length_pending] at hle
    have htaken : t.pending.take count = more.take count := by
      obtain ⟨bytes, -, rfl⟩ := ht.bytes
      rw [List.take_append_of_le_length hle]
    refine ⟨more.drop count, ?_, ?_⟩
    · rw [htaken, List.append_assoc, List.take_append_drop, hall]
    · rw [List.length_append, List.length_take, Nat.min_eq_left hle, ← Nat.add_assoc]
      exact offers_skip ht hpos hle
  · cases result with
    | error e => exact ht.elim
    | ok value =>
      obtain ⟨done, hlength, rfl, -, more, hall, ht⟩ := ht
      obtain ⟨rfl, rfl⟩ := List.append_inj hall hlength
      exact ⟨by rw [hs.packing], ht⟩

/-- Fields are read from the bits that come next, each from its own stretch. -/
theorem offers_readFields (stretches : List (List Bool))
    (hs : s.Offers order start (stretches.flatten ++ rest)) :
    Ends (readFields (stretches.map List.length)) s fun result t =>
      result = .ok (stretches.map (Bitmap.ofStream order))
        ∧ t.Offers order (start + stretches.flatten.length) rest := by
  induction stretches generalizing start s with
  | nil => exact Ends.pure ⟨rfl, hs⟩
  | cons bits stretches ih =>
    rw [List.flatten_cons, List.append_assoc] at hs
    rw [List.map_cons, readFields]
    refine (offers_read hs).bind fun result t ht => ?_
    obtain ⟨rfl, ht⟩ := ht
    refine (ih ht).bind fun result u hu => ?_
    obtain ⟨rfl, hu⟩ := hu
    refine Ends.pure ⟨rfl, ?_⟩
    rw [List.flatten_cons, List.length_append, ← Nat.add_assoc]
    exact hu

/-- A view of bytes offers their bits. -/
theorem offers_start (order : ByteOrder) {base : LoadState κ} {offset : Nat} {bytes : Bytes}
    (hstands : base.view.StandsAt offset) (hbytes : base.view.Spells offset bytes) :
    Offers order (8 * offset) (bytes.flatMap (BitStream.ofByte order)) ⟨base, .new order, offset⟩ :=
  ⟨⟨rfl, hstands, by simp, bytes, hbytes, by simp⟩, by simp⟩

end BitLoadM

/-- The fields that were read, with the bits left, are written as the bytes that they were read from. -/
theorem BitLoadState.Offers.bytes_ofStream {start : Nat} {bytes : Bytes} {stretches : List (List Bool)}
    {rest : List Bool} {s : BitLoadState κ}
    (h : s.Offers order (8 * start + stretches.flatten.length) rest)
    (hbits : bytes.flatMap (BitStream.ofByte order) = stretches.flatten ++ rest) :
    s.next = start + bytesOfBits stretches.flatten.length
      ∧ BitWriter.bytes order (stretches.map (Bitmap.ofStream order)) s.reader.pad
        = bytes.take (bytesOfBits stretches.flatten.length) := by
  obtain ⟨⟨horder, -, hposition, more, -, rfl⟩, hfew⟩ := h
  have hnext : s.next = start + bytesOfBits stretches.flatten.length := by
    rw [bytesOfBits]
    omega
  have hcount : stretches.flatten.length + s.pending.length = 8 * bytesOfBits stretches.flatten.length := by
    omega
  refine ⟨hnext, ?_⟩
  have hclose : BitStream.close order stretches.flatten s.reader.pad = stretches.flatten ++ s.pending := by
    rw [← horder]
    exact s.reader.close_pad hfew (by rw [← BitLoadState.pending]; omega)
  have htaken : stretches.flatten ++ s.pending =
      (bytes.take (bytesOfBits stretches.flatten.length)).flatMap (BitStream.ofByte order) := by
    rw [← BitStream.take_flatMap_ofByte, hbits, ← List.append_assoc,
      List.take_left' (by rw [List.length_append, hcount])]
  rw [BitWriter.bytes_eq, BitStream.flatMap_stream_ofStream, hclose, htaken, BitStream.pack_flatMap]

/-- Bits are written and read without loss, in both orders. Fields that were written, with whatever fills
the last byte, are read with their widths and values. Conversely, if fields are read from bytes that
have enough bits, and written with the bits left, these are the bytes that were read. Then the fields
are the first bits of the stream of bytes, the bits of each one where the fields before it end. -/
theorem BitWriter.bytes_inverse (order : ByteOrder) {offset : Nat} {s : LoadState κ}
    (hs : s.view.StandsAt offset) :
    (∀ fields pad, s.view.Spells offset (bytes order fields pad) →
      Ends (BitLoadM.run order offset (BitLoadM.readFields (fields.map Bitmap.width))) s fun result _ =>
        result.1 = .ok (fields.map (Bitmap.withSign · false)))
    ∧ ∀ bytes widths, s.view.Spells offset bytes → widths.sum ≤ 8 * bytes.length →
      Ends (BitLoadM.run order offset (BitLoadM.readFields widths)) s fun result t =>
        ∃ fields, result.1 = .ok fields ∧ fields.map Bitmap.width = widths
          ∧ t.view.StandsAt (offset + bytesOfBits widths.sum)
          ∧ BitWriter.bytes order fields result.2 = bytes.take (bytesOfBits widths.sum)
          ∧ fields.flatMap (Bitmap.stream order) = (List.range widths.sum).map (BitStream.bitAt order bytes)
          ∧ ∀ k (hk : k < fields.length) i, i < fields[k].width →
            fields[k].bit (Bitmap.place order fields[k].width i)
              = BitStream.bitAt order bytes ((widths.take k).sum + i) := by
  constructor
  · intro fields pad hbytes
    obtain ⟨rest, hrest⟩ := prefix_flatMap_bytes order fields pad
    have hoffers := BitLoadM.offers_start order hs hbytes
    rw [← hrest, List.flatMap_def] at hoffers
    have hread := BitLoadM.offers_readFields (fields.map (Bitmap.stream order)) hoffers
    have hwidths : (fields.map (Bitmap.stream order)).map List.length = fields.map Bitmap.width := by
      simp only [List.map_map, Function.comp_def, Bitmap.length_stream]
    have hread' : (fields.map (Bitmap.stream order)).map (Bitmap.ofStream order)
        = fields.map (Bitmap.withSign · false) := by
      simp only [List.map_map, Function.comp_def, Bitmap.ofStream_stream]
    rw [hwidths, hread'] at hread
    exact BitLoadM.ends_run (hread.mono fun result t ht => ht.1)
  · intro bytes widths hbytes hfits
    obtain ⟨stretches, rest, rfl, hbits⟩ :=
      BitStream.exists_stretches (by rwa [BitStream.length_flatMap_ofByte order bytes])
    have hoffers := BitLoadM.offers_start order hs hbytes
    rw [hbits] at hoffers
    have hread := BitLoadM.offers_readFields stretches hoffers
    refine BitLoadM.ends_run (hread.mono fun result t ht => ?_)
    obtain ⟨hresult, ht⟩ := ht
    obtain ⟨hnext, hwrite⟩ := ht.bytes_ofStream hbits
    have hstream : (stretches.map (Bitmap.ofStream order)).flatMap (Bitmap.stream order) =
        (List.range (stretches.map List.length).sum).map (BitStream.bitAt order bytes) := by
      rw [BitStream.flatMap_stream_ofStream, ← List.length_flatten]
      exact BitStream.eq_map_bitAt order hbits
    have hwidths : (stretches.map (Bitmap.ofStream order)).map Bitmap.width =
        stretches.map List.length := by
      simp only [List.map_map, Function.comp_def, Bitmap.width_ofStream]
    rw [← List.length_flatten]
    refine ⟨_, hresult, hwidths, hnext ▸ ht.stands, hwrite, ?_, fun k hk i hi => ?_⟩
    · rw [List.length_flatten]
      exact hstream
    · have hbit := Bitmap.getElem?_flatMap_stream order _ hk hi
      rw [hstream, List.getElem?_map, hwidths] at hbit
      obtain ⟨j, hj, hvalue⟩ := Option.map_eq_some_iff.1 hbit
      obtain ⟨_, rfl⟩ := List.getElem?_eq_some_iff.1 hj
      rw [← hvalue, List.getElem_range]

/-- Fields of three and of nine bits are read from two bytes, and written as these bytes again. -/
theorem BitWriter.bytes_inverse_of_two_bytes :
    let s : LoadState Unit := ⟨{}, [], .ofBytes [0xA3, 0x7F] 0⟩
    s.view.StandsAt 0 ∧ s.view.Spells 0 [0xA3, 0x7F] ∧ [3, 9].sum ≤ 16 ∧
      Ends (BitLoadM.run .big 0 (BitLoadM.readFields [3, 9])) s fun result _ =>
        ∃ fields, result.1 = .ok fields ∧ fields.map Bitmap.width = [3, 9]
          ∧ bytes .big fields result.2 = [0xA3, 0x7F] := by
  intro s
  have hstands : s.view.StandsAt 0 := rfl
  have hbytes : s.view.Spells 0 [0xA3, 0x7F] := ⟨rfl, rfl, trivial⟩
  refine ⟨hstands, hbytes, by decide, ?_⟩
  refine ((bytes_inverse .big hstands).2 _ [3, 9] hbytes (by decide)).mono fun result t ht => ?_
  obtain ⟨fields, hresult, hwidths, -, hwrite, -⟩ := ht
  exact ⟨fields, hresult, hwidths, hwrite⟩

end BinaryLayout
