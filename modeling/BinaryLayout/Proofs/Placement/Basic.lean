import Mathlib.Algebra.GroupWithZero.Nat
import BinaryLayout.Proofs.Bitmap.Packing
import BinaryLayout.Proofs.Tree.Arrange

/-!
# Where atoms stand

The parts of a record or an array stand one after another from its own offset, the members of a
union at its offset, and the root of a host of bits at the first bit of the host. A sum of offsets
that leaves the address space is the last offset.

How many bytes an atom stands for does not depend on what its bytes are, and it is also the length of
its bytes, as long as the unused bits of each host fill its last byte and no atom of bits has a tail.
So this is part of what is kept about each atom.

## Main definitions

* `Atom.InTurn`, `Atom.turnEnd`: atoms one after another, and where the next one would stand.
* `Atom.stream`: the bits that an atom of bits stands for.
* `Bitmap.Fits`: unused bits that fill a last byte.
* `Atom.LaidOut`: the parts of an atom stand where its offset and its content put them.
* `Atom.SameFooting`: atoms that those around them cannot tell apart.

## Main statements

* `Atom.serialize_of_bits`, `Atom.serialize_of_bytes`: the bytes of an atom.
* `Atom.length_serialize`: how many they are.
* `Atom.SameFooting.laidOut_assemble`: an atom replaced in its surroundings.
* `Atom.laidOut_moveTo`, `Atom.laidOut_arranged`: atoms moved, and put in order.
-/

namespace BinaryLayout

variable {κ : Type}

/-! ## Offsets -/

theorem spanEnd_eq {offset amount limit : Nat} (h : spanEnd offset amount = .ok limit) :
    limit = offset + amount ∧ satAdd offset amount = limit := by
  rw [spanEnd] at h
  split at h
  · cases h
    rw [satAdd]
    omega
  · cases h

/-- The end of a span of bytes is an offset. -/
theorem lt_of_spanEnd {offset amount limit : Nat} (h : spanEnd offset amount = .ok limit) :
    offset + amount < pow2 64 := by
  rw [spanEnd] at h
  split at h
  · assumption
  · cases h

theorem hostedAt_of_bitPosition {offset position : Nat} (h : bitPosition offset = .ok position) :
    position = Atom.hostedAt offset := by
  rw [bitPosition, word?] at h
  rw [Atom.hostedAt]
  split at h
  · rename_i word hword
    split at hword
    · cases hword
      cases h
      omega
    · cases hword
  · cases h

namespace Atom

/-! ## One after another -/

/-- Where the atom after these stands, when the first of them stands at `cursor`. -/
def turnEnd (inBits : Bool) (cursor : Nat) : List (Atom κ) → Nat
  | [] => cursor
  | a :: as => turnEnd inBits (satAdd cursor (a.step inBits)) as

/-- The atoms stand one after another, the first at `cursor`. -/
def InTurn (inBits : Bool) (cursor : Nat) : List (Atom κ) → Prop
  | [] => True
  | a :: as => a.info.offset = cursor ∧ InTurn inBits (satAdd cursor (a.step inBits)) as

theorem turnEnd_append (inBits : Bool) (cursor : Nat) (as bs : List (Atom κ)) :
    turnEnd inBits cursor (as ++ bs) = turnEnd inBits (turnEnd inBits cursor as) bs := by
  induction as generalizing cursor with
  | nil => rfl
  | cons a as ih => rw [List.cons_append, turnEnd, turnEnd, ih]

theorem inTurn_append {inBits : Bool} {cursor : Nat} {as bs : List (Atom κ)} :
    InTurn inBits cursor (as ++ bs)
      ↔ InTurn inBits cursor as ∧ InTurn inBits (turnEnd inBits cursor as) bs := by
  induction as generalizing cursor with
  | nil => simp [InTurn, turnEnd]
  | cons a as ih => rw [List.cons_append, InTurn, InTurn, turnEnd, ih, and_assoc]

theorem moveInTurn_append (inBits : Bool) (cursor : Nat) (as bs : List (Atom κ)) :
    moveInTurn inBits cursor (as ++ bs) =
      moveInTurn inBits cursor as ++ moveInTurn inBits (turnEnd inBits cursor as) bs := by
  induction as generalizing cursor with
  | nil => rfl
  | cons a as ih => rw [List.cons_append, moveInTurn, moveInTurn, turnEnd, ih, List.cons_append]

/-- An atom that stands at an offset is not moved there. -/
theorem moveTo_self {offset : Nat} {a : Atom κ} (h : a.info.offset = offset) :
    moveTo offset a = a := by
  obtain ⟨info, content, parts⟩ := a
  rw [moveTo_node]
  exact if_pos h

@[simp] theorem offset_moveTo (offset : Nat) (a : Atom κ) : (moveTo offset a).info.offset = offset := by
  obtain ⟨info, content, parts⟩ := a
  rw [moveTo_node]
  split
  · assumption
  · rfl

@[simp] theorem step_moveTo (inBits : Bool) (offset : Nat) (a : Atom κ) :
    (moveTo offset a).step inBits = a.step inBits := by
  rw [← step_unplaced, unplaced_moveTo, step_unplaced]

/-- Atoms that stand one after another are not moved. -/
theorem moveInTurn_self {inBits : Bool} {cursor : Nat} {as : List (Atom κ)}
    (h : InTurn inBits cursor as) : moveInTurn inBits cursor as = as := by
  induction as generalizing cursor with
  | nil => rfl
  | cons a as ih => rw [moveInTurn, moveTo_self h.1, ih h.2]

theorem inTurn_moveInTurn (inBits : Bool) (cursor : Nat) (as : List (Atom κ)) :
    InTurn inBits cursor (moveInTurn inBits cursor as) := by
  induction as generalizing cursor with
  | nil => exact trivial
  | cons a as ih =>
    rw [moveInTurn]
    refine ⟨offset_moveTo cursor a, ?_⟩
    rw [step_moveTo]
    exact ih _

theorem offset_of_mem_moveAll {offset : Nat} {a : Atom κ} {as : List (Atom κ)}
    (h : a ∈ moveAll offset as) : a.info.offset = offset := by
  induction as with
  | nil => cases h
  | cons b as ih =>
    rw [moveAll, List.mem_cons] at h
    rcases h with rfl | h
    · exact offset_moveTo offset b
    · exact ih h

/-- Atoms that all stand at an offset are not moved there. -/
theorem moveAll_self {offset : Nat} {as : List (Atom κ)} (h : ∀ a ∈ as, a.info.offset = offset) :
    moveAll offset as = as := by
  induction as with
  | nil => rfl
  | cons a as ih =>
    rw [List.forall_mem_cons] at h
    rw [moveAll, moveTo_self h.1, ih h.2]

end Atom

/-! ## Measures -/

/-- Unused bits that a host with so many used bits may have: none, or as many as fill its last
byte. -/
def Bitmap.Fits (used : Nat) (pad : Bitmap) : Prop :=
  pad.width = 0 ∨ (used + pad.width) % 8 = 0 ∧ pad.width < 8

/-- The bytes of a host are as many as its bits and its unused bits need. -/
theorem BitStream.length_pack_close {order : ByteOrder} {bits : List Bool} {pad : Bitmap}
    (h : pad.Fits bits.length) :
    (pack order (close order bits pad)).length = bytesOfBits (bits.length + pad.width) := by
  rw [length_pack, close, bytesOfBits]
  unfold Bitmap.Fits at h
  split
  · rw [List.length_append, Bitmap.length_stream]
  · omega

namespace Atom

mutual

/-- The bits of an atom of bits, in the order in which its host packs them. -/
def stream (order : ByteOrder) : Atom κ → List Bool
  | node _ (.bits value) _ => value.stream order
  | node _ .group parts => streams order parts
  | node _ _ _ => []

/-- The bits of atoms of bits, one after another. -/
def streams (order : ByteOrder) : List (Atom κ) → List Bool
  | [] => []
  | a :: as => stream order a ++ streams order as

end

mutual

/-- The stream of an atom has as many bits as the atom. -/
theorem length_stream (order : ByteOrder) : ∀ a : Atom κ, (stream order a).length = a.bitCount
  | .node _ content parts => by
    cases content <;> simp [stream, bitCount, length_streams order parts]

/-- The stream of atoms has as many bits as the atoms. -/
theorem length_streams (order : ByteOrder) : ∀ as : List (Atom κ),
    (streams order as).length = bitCounts as
  | [] => rfl
  | a :: as => by simp [streams, bitCounts, length_stream order a, length_streams order as]

end

mutual

/-- The bits of an atom come after those that were written before. -/
theorem holds_writeBits {order : ByteOrder} : ∀ (a : Atom κ) {w : BitWriter} {bits : List Bool},
    w.Holds order bits → (a.writeBits w).Holds order (bits ++ a.stream order)
  | .node _ content parts, w, bits, hw => by
    cases content with
    | bits value => exact hw.write value
    | group => exact holds_writeAllBits parts hw
    | empty | raw | overlay | pointer | host => simpa [writeBits, stream] using hw

theorem holds_writeAllBits {order : ByteOrder} : ∀ (as : List (Atom κ)) {w : BitWriter} {bits : List Bool},
    w.Holds order bits → (writeAllBits as w).Holds order (bits ++ streams order as)
  | [], _, _, hw => by simpa [writeAllBits, streams] using hw
  | a :: as, _, _, hw => by
    rw [streams, ← List.append_assoc]
    exact holds_writeAllBits as (holds_writeBits a hw)

end

/-- The parts stand where an atom at the offset, measured in bits or in bytes, puts them. -/
def Seats (inBits : Bool) (offset : Nat) (parts : List (Atom κ)) : Content → Prop
  | .empty | .raw _ | .bits _ => parts = []
  | .group => InTurn inBits offset parts
  | .overlay _ => ∀ part ∈ parts, part.info.offset = offset
  | .pointer _ => True
  | .host pad => (∀ part ∈ parts, part.info.offset = hostedAt offset) ∧ pad.Fits (bitCounts parts)

/-- The parts of the atom stand where its offset and its content put them, its bytes are as many as
its measure says, and a pointer's number has the bytes that its layout asks for. -/
structure LaidOut (a : Atom κ) : Prop where
  seats : Seats a.isBits a.info.offset a.parts a.content
  tail : a.isBits = true → a.info.tail = []
  wire : ∀ wire, a.content = .pointer wire → ∃ format target policy,
    a.info.layout = .bytes (.pointer format target policy) ∧ wire.length = format.width

theorem sizes_eq (as : List (Atom κ)) : sizes as = (as.map size).sum := by
  induction as with
  | nil => rfl
  | cons a as ih => rw [sizes, ih, List.map_cons, List.sum_cons, size]

theorem bitCounts_eq (as : List (Atom κ)) : bitCounts as = (as.map bitCount).sum := by
  induction as with
  | nil => rfl
  | cons a as ih => rw [bitCounts, ih, List.map_cons, List.sum_cons]

theorem streams_append (order : ByteOrder) (as bs : List (Atom κ)) :
    streams order (as ++ bs) = streams order as ++ streams order bs := by
  induction as with
  | nil => rfl
  | cons a as ih => rw [List.cons_append, streams, streams, ih, List.append_assoc]

theorem serializeAll_append (order : ByteOrder) (as bs : List (Atom κ)) :
    serializeAll order (as ++ bs) = serializeAll order as ++ serializeAll order bs := by
  induction as with
  | nil => rfl
  | cons a as ih => rw [List.cons_append, serializeAll, serializeAll, ih, List.append_assoc]

/-- The bytes of an atom of bytes, without its tail. -/
def contentBytes (order : ByteOrder) (a : Atom κ) : Bytes :=
  match a.content with
  | .empty | .bits _ => []
  | .raw bytes | .overlay bytes | .pointer bytes => bytes
  | .group => serializeAll order a.parts
  | .host pad =>
    let hostOrder := a.info.layout.bitOrder?.getD order
    BitStream.pack hostOrder (BitStream.close hostOrder (streams hostOrder a.parts) pad)

theorem serialize_of_bits (order : ByteOrder) {a : Atom κ} (h : a.isBits = true) :
    serialize order a = BitStream.pack order (stream order a) := by
  have hwritten := holds_writeBits a (BitWriter.holds_new order)
  have hclose : BitStream.close order (stream order a) .empty = stream order a := if_neg fun hpad => by
    have hwidth : Bitmap.empty.width = 0 := rfl
    omega
  rw [List.nil_append] at hwritten
  rw [← hclose, ← hwritten.finish]
  obtain ⟨info, content, parts⟩ := a
  rw [isBits, info_node] at h
  cases content <;> simp [serialize, h]

theorem serialize_of_bytes (order : ByteOrder) {a : Atom κ} (h : a.isBits = false) :
    serialize order a = a.contentBytes order ++ a.info.tail := by
  obtain ⟨info, content, parts⟩ := a
  rw [isBits, info_node] at h
  cases content with
  | host pad =>
    have hwritten := holds_writeAllBits parts (BitWriter.holds_new (info.layout.bitOrder?.getD order))
    simp [serialize, contentBytes, h, hwritten.finish]
  | empty | raw | group | overlay | pointer | bits => simp [serialize, contentBytes, h]

theorem contentSize_of_bits {a : Atom κ} (h : a.isBits = true) :
    a.contentSize = bytesOfBits a.bitCount := by
  obtain ⟨info, content, parts⟩ := a
  rw [isBits, info_node] at h
  cases content <;> simp [contentSize, h]

theorem contentSize_of_bytes {a : Atom κ} (h : a.isBits = false) :
    a.contentSize =
      match a.content with
      | .empty | .bits _ => 0
      | .raw bytes | .overlay bytes | .pointer bytes => bytes.length
      | .group => sizes a.parts
      | .host pad => bytesOfBits (bitCounts a.parts + pad.width) := by
  obtain ⟨info, content, parts⟩ := a
  rw [isBits, info_node] at h
  cases content <;> simp [contentSize, h]

/-- The bytes of the content, when those of the parts are as many as their measure says. -/
theorem length_contentBytes {order : ByteOrder} {a : Atom κ} (ha : a.LaidOut)
    (hbits : a.isBits = false) (hparts : (serializeAll order a.parts).length = sizes a.parts) :
    (a.contentBytes order).length = a.contentSize := by
  have hseats := ha.seats
  rw [contentBytes, contentSize_of_bytes hbits]
  cases hcontent : a.content with
  | empty | bits | raw | overlay | pointer => rfl
  | group => exact hparts
  | host pad =>
    rw [hcontent] at hseats
    have hfits := hseats.2
    rw [← length_streams (a.info.layout.bitOrder?.getD order)] at hfits ⊢
    exact BitStream.length_pack_close hfits

mutual

/-- The bytes of an atom are as many as its measure says. -/
theorem length_serialize (order : ByteOrder) : ∀ a : Atom κ, Everywhere LaidOut a →
    (serialize order a).length = a.size
  | .node info content parts, h => by
    have hparts := length_serializeAll order parts h.2
    have hhere : LaidOut (.node info content parts) := h.1
    rw [size]
    cases hbits : isBits (.node info content parts) with
    | true =>
      rw [serialize_of_bits order hbits, contentSize_of_bits hbits, BitStream.length_pack,
        length_stream, hhere.tail hbits]
      rfl
    | false =>
      rw [serialize_of_bytes order hbits, List.length_append,
        length_contentBytes hhere hbits hparts]

theorem length_serializeAll (order : ByteOrder) : ∀ as : List (Atom κ), EverywhereIn LaidOut as →
    (serializeAll order as).length = sizes as
  | [], _ => rfl
  | a :: as, h => by
    rw [serializeAll, sizes, List.length_append, length_serialize order a h.1,
      length_serializeAll order as h.2, size]

end

/-! ## Replacing and moving -/

/-- The atoms around them cannot tell the two atoms apart. -/
structure SameFooting (a b : Atom κ) : Prop where
  offset : b.info.offset = a.info.offset
  isBits : b.isBits = a.isBits
  size : b.size = a.size
  bitCount : b.bitCount = a.bitCount

namespace SameFooting

variable {a b : Atom κ} {f : Frame κ}

theorem step (h : SameFooting a b) (inBits : Bool) : b.step inBits = a.step inBits := by
  rw [Atom.step, Atom.step, bits, bits, h.isBits, h.size, h.bitCount]

theorem plug (h : SameFooting a b) : SameFooting (f.plug a) (f.plug b) := by
  have hsizes : sizes (f.plug b).parts = sizes (f.plug a).parts := by
    simp [sizes_eq, h.size]
  have hcounts : bitCounts (f.plug b).parts = bitCounts (f.plug a).parts := by
    simp [bitCounts_eq, h.bitCount]
  have hcount : (f.plug b).bitCount = (f.plug a).bitCount := by
    obtain ⟨info, content, left, right⟩ := f
    cases content <;> first | rfl | exact hcounts
  refine ⟨rfl, rfl, ?_, hcount⟩
  rw [Atom.size, Atom.size, Frame.info_plug, Frame.info_plug]
  congr 1
  cases hbits : f.info.layout.isBits with
  | true =>
    have hplug (c : Atom κ) : (f.plug c).isBits = true := hbits
    rw [contentSize_of_bits (hplug b), contentSize_of_bits (hplug a), hcount]
  | false =>
    have hplug (c : Atom κ) : (f.plug c).isBits = false := hbits
    rw [contentSize_of_bytes (hplug b), contentSize_of_bytes (hplug a), hsizes, hcounts]
    rfl

theorem inTurn (h : SameFooting a b) {inBits : Bool} {cursor : Nat} {left right : List (Atom κ)}
    (hturn : InTurn inBits cursor (left ++ a :: right)) :
    InTurn inBits cursor (left ++ b :: right) := by
  rw [inTurn_append, InTurn] at hturn ⊢
  rw [h.offset, h.step]
  exact hturn

/-- The atom around them does not tell them apart. -/
theorem laidOut_plug (h : SameFooting a b) (ha : (f.plug a).LaidOut) : (f.plug b).LaidOut := by
  have hseats := ha.seats
  refine ⟨?_, ha.tail, ha.wire⟩
  have hall {offset : Nat} (hparts : ∀ part ∈ (f.plug a).parts, part.info.offset = offset) :
      ∀ part ∈ (f.plug b).parts, part.info.offset = offset := by
    simp only [Frame.parts_plug, List.mem_append, List.mem_cons] at hparts ⊢
    rintro part (hpart | rfl | hpart)
    · exact hparts part (.inl hpart)
    · rw [h.offset]
      exact hparts a (.inr (.inl rfl))
    · exact hparts part (.inr (.inr hpart))
  simp only [Frame.content_plug] at hseats ⊢
  cases hcontent : f.content with
  | empty | raw | bits =>
    rw [hcontent] at hseats
    simp [Seats] at hseats
  | group =>
    rw [hcontent] at hseats
    simp only [Seats, Frame.parts_plug] at hseats ⊢
    exact h.inTurn hseats
  | overlay backing =>
    rw [hcontent] at hseats
    exact hall hseats
  | pointer wire => exact trivial
  | host pad =>
    rw [hcontent] at hseats
    refine ⟨hall hseats.1, ?_⟩
    have hcounts : bitCounts (f.plug b).parts = bitCounts (f.plug a).parts := by
      simp [bitCounts_eq, h.bitCount]
    rw [hcounts]
    exact hseats.2

/-- An atom replaced in its surroundings. -/
theorem laidOut_assemble (h : SameFooting a b) {frames : List (Frame κ)} (hb : Everywhere LaidOut b)
    (ha : Everywhere LaidOut (Place.assemble a frames)) :
    Everywhere LaidOut (Place.assemble b frames) :=
  everywhere_assemble_of (fun _ _ _ h ha => ⟨h.laidOut_plug ha, h.plug⟩) h hb ha

end SameFooting

theorem bitCounts_moveAll (offset : Nat) (as : List (Atom κ)) :
    bitCounts (moveAll offset as) = bitCounts as := by
  have hsame := congrArg bitCounts (map_unplaced_moveAll offset as)
  rwa [← unplacedAll_eq, ← unplacedAll_eq, bitCounts_unplacedAll, bitCounts_unplacedAll] at hsame

/-- Parts put where an atom at the offset has them. Those of a record or an array may have stood
anywhere before. -/
theorem seats_partsAt {inBits : Bool} {content : Content} {parts : List (Atom κ)} (offset : Nat)
    (hold : content = .group ∨ ∃ old, Seats inBits old parts content) :
    Seats inBits offset (partsAt inBits content offset parts) content := by
  cases content with
  | empty | raw | bits =>
    obtain ⟨_, hnil⟩ := hold.resolve_left nofun
    exact hnil
  | group => exact inTurn_moveInTurn inBits offset parts
  | overlay backing => exact fun _ hpart => offset_of_mem_moveAll hpart
  | pointer wire => exact trivial
  | host pad =>
    obtain ⟨_, -, hfits⟩ := hold.resolve_left nofun
    refine ⟨fun _ hpart => offset_of_mem_moveAll hpart, ?_⟩
    rw [partsAt, bitCounts_moveAll]
    exact hfits

mutual

/-- A laid out atom is laid out wherever it is moved. -/
theorem laidOut_moveTo (offset : Nat) : ∀ a : Atom κ, Everywhere LaidOut a →
    Everywhere LaidOut (moveTo offset a)
  | .node info content parts, h => by
    have hhere : LaidOut (.node info content parts) := h.1
    have hturn (cursor : Nat) := laidOut_moveInTurn info.layout.isBits cursor parts h.2
    have hall (offset : Nat) := laidOut_moveAll offset parts h.2
    rw [moveTo_node]
    split
    · exact h
    · refine ⟨⟨seats_partsAt offset (.inr ⟨_, hhere.seats⟩), hhere.tail, hhere.wire⟩, ?_⟩
      exact partsAt_cases (P := EverywhereIn LaidOut) content (hturn offset) hall h.2

theorem laidOut_moveInTurn (inBits : Bool) (cursor : Nat) : ∀ as : List (Atom κ),
    EverywhereIn LaidOut as → EverywhereIn LaidOut (moveInTurn inBits cursor as)
  | [], _ => trivial
  | a :: as, h => ⟨laidOut_moveTo cursor a h.1, laidOut_moveInTurn inBits _ as h.2⟩

theorem laidOut_moveAll (offset : Nat) : ∀ as : List (Atom κ),
    EverywhereIn LaidOut as → EverywhereIn LaidOut (moveAll offset as)
  | [], _ => trivial
  | a :: as, h => ⟨laidOut_moveTo offset a h.1, laidOut_moveAll offset as h.2⟩

end

/-- An atom whose parts are put in order. Those of a record or an array may have stood anywhere
before. -/
theorem laidOut_arranged {a : Atom κ} (hparts : ∀ part ∈ a.parts, Everywhere LaidOut part)
    (htail : a.isBits = true → a.info.tail = [])
    (hold : a.content = .group ∨ ∃ offset, LaidOut (a.mapInfo fun info => { info with offset })) :
    Everywhere LaidOut a.arranged := by
  have hin : EverywhereIn LaidOut a.parts := everywhereIn_iff.2 hparts
  rw [arranged_eq]
  refine ⟨⟨seats_partsAt _ ?_, htail, ?_⟩, ?_⟩
  · refine hold.imp_right fun ⟨offset, h⟩ => ⟨offset, ?_⟩
    have hseats := h.seats
    rw [isBits, info_mapInfo, content_mapInfo, parts_mapInfo] at hseats
    exact hseats
  · intro wire hwire
    rcases hold with hgroup | ⟨offset, h⟩
    · rw [content_node, hgroup] at hwire
      cases hwire
    · have := h.wire wire (by rw [content_mapInfo]; exact hwire)
      rwa [info_mapInfo] at this
  · exact partsAt_cases (P := EverywhereIn LaidOut) a.content (laidOut_moveInTurn _ _ _ hin)
      (fun offset => laidOut_moveAll offset _ hin) hin

/-- An atom moved on its own. -/
theorem laidOut_relocate (offset : Nat) {a : Atom κ} (ha : Everywhere LaidOut a) :
    Everywhere LaidOut (a.relocate offset) := by
  rw [relocate]
  generalize (if a.isBits then hostedAt offset else offset) = offset
  obtain ⟨info, content, parts⟩ := a
  exact laidOut_arranged (everywhere_iff.1 ha).2 ha.here.tail (.inr ⟨info.offset, ha.here⟩)

/-- The unused bits of a host are made to fill its last byte. -/
theorem exists_fixPad (info : Info κ) (pad : Bitmap) (parts : List (Atom κ)) :
    ∃ pad' : Bitmap, pad'.Fits (bitCounts parts)
      ∧ (Atom.node info (.host pad) parts).fixPad = .node info (.host pad') parts := by
  refine ⟨_, .inr ?_, rfl⟩
  have hwidth : (if pad.width = (8 - bitCounts parts % 8) % 8 then pad
      else Bitmap.ofNat 0 ((8 - bitCounts parts % 8) % 8) false).width
        = (8 - bitCounts parts % 8) % 8 := by
    split
    · assumption
    · exact Bitmap.width_ofNat ..
  rw [hwidth]
  omega

/-- Unused bits that fill the last byte of a host. -/
theorem laidOut_fixPad {a : Atom κ} (hparts : ∀ part ∈ a.parts, Everywhere LaidOut part)
    (htail : a.isBits = true → a.info.tail = []) {pad : Bitmap} (hcontent : a.content = .host pad)
    (hroot : ∀ part ∈ a.parts, part.info.offset = hostedAt a.info.offset) :
    Everywhere LaidOut a.fixPad := by
  obtain ⟨info, content, parts⟩ := a
  cases hcontent
  obtain ⟨pad', hfits, hfixed⟩ := exists_fixPad info pad parts
  rw [hfixed]
  exact everywhere_iff.2 ⟨⟨⟨hroot, hfits⟩, htail, nofun⟩, hparts⟩

end Atom

end BinaryLayout
