import BinaryLayout.Proofs.Codec.Text

/-!
# Texts that were written are read again

A character has one written form in each encoding, and reading takes this form and no other: so reading and
writing are inverse to each other. Writing refuses the characters that ASCII has no byte for. Reading UTF-16
refuses half a code unit and half a pair.

## Main definitions

* `Utf16.Unpaired`: a surrogate whose other half is not where it has to be.

## Main statements

* `Utf8.encodeChar_eq`: the bytes of a character are the standard ones.
* `Utf8.decodeFrom_encodeChar`, `Utf16.decode_encodeChar`: a character is read again.
* `Utf16.decode_error_iff`: code units that are no text.
* `Encoding.decode_of_encode`: a text is read again.
* `Encoding.inverse`: reading and writing, and what each of them refuses.
-/

namespace BinaryLayout

/-- Characters are the code points but for the surrogates. -/
theorem codePoint_toNat (c : Char) : c.toNat < 0xD800 ∨ (0xDFFF < c.toNat ∧ c.toNat < 0x110000) := c.valid

/-- A number below 256 is that of its byte. -/
theorem toNat_byteOf {n : Nat} (h : n < 0x100) : (UInt8.ofNat n).toNat = n := UInt8.toNat_ofNat_of_lt' h

/-! ## ASCII -/

theorem Encoding.decodeAscii_map {text : List Char} (h : ∀ c ∈ text, c.toNat < 0x80) (index : Nat) :
    decodeAscii index (text.map fun c => UInt8.ofNat c.toNat) = .ok text := by
  induction text generalizing index with
  | nil => rfl
  | cons c text ih =>
    obtain ⟨hc, hrest⟩ := List.forall_mem_cons.1 h
    rw [List.map_cons, decodeAscii, toNat_byteOf (by omega), if_pos hc, ih hrest, Char.ofNat_toNat]
    rfl

/-! ## UTF-8 -/

namespace Utf8

/-- The bytes of a character are those of the standard library. -/
theorem encodeChar_eq (c : Char) : encodeChar c = String.utf8EncodeChar c := by
  have hc := codePoint_toNat c
  have hval : c.val.toNat = c.toNat := rfl
  rw [encodeChar, String.utf8EncodeChar]
  simp only [tailByte, hval]
  generalize c.toNat = n at hc
  by_cases hone : n < 0x80
  · rw [if_pos hone, if_pos (by omega)]
  by_cases htwo : n < 0x800
  · have hfirst : n / 64 % 32 + 192 = 0xC0 + n / 0x40 := by omega
    rw [if_neg hone, if_pos htwo, if_neg (by omega), if_pos (by omega), hfirst, Nat.add_comm (n % 64)]
  by_cases hthree : n < 0x10000
  · have hfirst : n / 4096 % 16 + 224 = 0xE0 + n / 0x1000 := by omega
    rw [if_neg hone, if_neg htwo, if_pos hthree, if_neg (by omega), if_neg (by omega), if_pos (by omega),
      hfirst, Nat.add_comm (n / 64 % 64), Nat.add_comm (n % 64)]
  · have hfirst : n / 262144 % 8 + 240 = 0xF0 + n / 0x40000 := by omega
    rw [if_neg hone, if_neg htwo, if_neg hthree, if_neg (by omega), if_neg (by omega), if_neg (by omega),
      hfirst, Nat.add_comm (n / 4096 % 64), Nat.add_comm (n / 64 % 64), Nat.add_comm (n % 64)]

/-- The bytes of a text are those of the standard library. -/
theorem encode_eq (text : List Char) : encode text = text.flatMap String.utf8EncodeChar :=
  congrArg text.flatMap (funext encodeChar_eq)

theorem toNat_tailByte (bits : Nat) : (tailByte bits).toNat = 0x80 + bits % 0x40 := toNat_byteOf (by omega)

theorem isTail_tailByte (bits : Nat) : isTail (tailByte bits) = true := by
  rw [isTail, toNat_tailByte]
  exact decide_eq_true (by omega)

theorem tail_tailByte (bits : Nat) : tail (tailByte bits) = bits % 0x40 := by
  rw [tail, toNat_tailByte]
  omega

/-- What may follow the first byte of a character. -/
theorem isSecond_of_bounds {a b : UInt8} (hb : 0x80 ≤ b.toNat ∧ b.toNat < 0xC0)
    (hE0 : a.toNat = 0xE0 → 0xA0 ≤ b.toNat) (hED : a.toNat = 0xED → b.toNat < 0xA0)
    (hF0 : a.toNat = 0xF0 → 0x90 ≤ b.toNat) (hF4 : a.toNat = 0xF4 → b.toNat < 0x90) : isSecond a b = true := by
  have hbyte (n : UInt8) : a = n ↔ a.toNat = n.toNat := UInt8.toNat_inj.symm
  refine decide_eq_true ?_
  simp only [hbyte]
  repeat' split
  all_goals simp_all
  all_goals omega

variable {a b c d : UInt8}

theorem decodeFrom_one (index : Nat) (ha : a.toNat < 0x80) (rest : Bytes) :
    decodeFrom index (a :: rest) = (decodeFrom (index + 1) rest).map (Char.ofNat a.toNat :: ·) := by
  rw [decodeFrom.eq_def]
  dsimp only
  rw [if_pos ha]

theorem decodeFrom_two (index : Nat) (ha : 0xC2 ≤ a.toNat) (ha' : a.toNat < 0xE0) (hb : isSecond a b = true)
    (rest : Bytes) : decodeFrom index (a :: b :: rest)
      = (decodeFrom (index + 2) rest).map (Char.ofNat (a.toNat % 0x20 * 0x40 + tail b) :: ·) := by
  rw [decodeFrom.eq_def]
  dsimp only
  rw [if_neg (by omega), if_neg (by omega), hb, if_neg (by decide), if_pos ha']

theorem decodeFrom_three (index : Nat) (ha : 0xE0 ≤ a.toNat) (ha' : a.toNat < 0xF0) (hb : isSecond a b = true)
    (hc : isTail c = true) (rest : Bytes) : decodeFrom index (a :: b :: c :: rest)
      = (decodeFrom (index + 3) rest).map
        (Char.ofNat (a.toNat % 0x10 * 0x1000 + tail b * 0x40 + tail c) :: ·) := by
  rw [decodeFrom.eq_def]
  dsimp only
  rw [if_neg (by omega), if_neg (by omega), hb, if_neg (by decide), if_neg (by omega), hc, if_neg (by decide),
    if_pos ha']

theorem decodeFrom_four (index : Nat) (ha : 0xF0 ≤ a.toNat) (ha' : a.toNat < 0xF5) (hb : isSecond a b = true)
    (hc : isTail c = true) (hd : isTail d = true) (rest : Bytes) :
    decodeFrom index (a :: b :: c :: d :: rest) = (decodeFrom (index + 4) rest).map (Char.ofNat
      (a.toNat % 0x08 * 0x40000 + tail b * 0x1000 + tail c * 0x40 + tail d) :: ·) := by
  rw [decodeFrom.eq_def]
  dsimp only
  rw [if_neg (by omega), if_neg (by omega), hb, if_neg (by decide), if_neg (by omega), hc, if_neg (by decide),
    if_neg (by omega), hd, if_neg (by decide)]

/-- A character is read again, whatever follows. -/
theorem decodeFrom_encodeChar (index : Nat) (c : Char) (rest : Bytes) :
    ∃ next, decodeFrom index (encodeChar c ++ rest) = (decodeFrom next rest).map (c :: ·) := by
  have hc := codePoint_toNat c
  rw [encodeChar]
  -- One case for each number of bytes. That the form is not overlong and no surrogate is in the second byte.
  by_cases hone : c.toNat < 0x80
  · have hfirst : (UInt8.ofNat c.toNat).toNat = c.toNat := toNat_byteOf (by omega)
    have hread := decodeFrom_one index (a := UInt8.ofNat c.toNat) (by omega) rest
    rw [hfirst, Char.ofNat_toNat] at hread
    rw [if_pos hone]
    exact ⟨_, hread⟩
  by_cases htwo : c.toNat < 0x800
  · have hfirst : (UInt8.ofNat (0xC0 + c.toNat / 0x40)).toNat = 0xC0 + c.toNat / 0x40 := toNat_byteOf (by omega)
    have hsecond : isSecond (UInt8.ofNat (0xC0 + c.toNat / 0x40)) (tailByte c.toNat) = true := by
      refine isSecond_of_bounds ?_ ?_ ?_ ?_ ?_ <;> rw [toNat_tailByte] <;> omega
    have hvalue : (0xC0 + c.toNat / 0x40) % 0x20 * 0x40 + c.toNat % 0x40 = c.toNat := by omega
    have hread := decodeFrom_two index (by omega) (by omega) hsecond rest
    rw [hfirst, tail_tailByte, hvalue, Char.ofNat_toNat] at hread
    rw [if_neg hone, if_pos htwo]
    exact ⟨_, hread⟩
  by_cases hthree : c.toNat < 0x10000
  · have hfirst : (UInt8.ofNat (0xE0 + c.toNat / 0x1000)).toNat = 0xE0 + c.toNat / 0x1000 :=
      toNat_byteOf (by omega)
    have hsecond : isSecond (UInt8.ofNat (0xE0 + c.toNat / 0x1000)) (tailByte (c.toNat / 0x40)) = true := by
      refine isSecond_of_bounds ?_ ?_ ?_ ?_ ?_ <;> rw [toNat_tailByte] <;> omega
    have hvalue : (0xE0 + c.toNat / 0x1000) % 0x10 * 0x1000 + c.toNat / 0x40 % 0x40 * 0x40 + c.toNat % 0x40
        = c.toNat := by omega
    have hread := decodeFrom_three index (by omega) (by omega) hsecond (isTail_tailByte c.toNat) rest
    rw [hfirst, tail_tailByte, tail_tailByte, hvalue, Char.ofNat_toNat] at hread
    rw [if_neg hone, if_neg htwo, if_pos hthree]
    exact ⟨_, hread⟩
  · have hfirst : (UInt8.ofNat (0xF0 + c.toNat / 0x40000)).toNat = 0xF0 + c.toNat / 0x40000 :=
      toNat_byteOf (by omega)
    have hsecond : isSecond (UInt8.ofNat (0xF0 + c.toNat / 0x40000)) (tailByte (c.toNat / 0x1000)) = true := by
      refine isSecond_of_bounds ?_ ?_ ?_ ?_ ?_ <;> rw [toNat_tailByte] <;> omega
    have hvalue : (0xF0 + c.toNat / 0x40000) % 0x08 * 0x40000 + c.toNat / 0x1000 % 0x40 * 0x1000
        + c.toNat / 0x40 % 0x40 * 0x40 + c.toNat % 0x40 = c.toNat := by omega
    have hread := decodeFrom_four index (by omega) (by omega) hsecond (isTail_tailByte (c.toNat / 0x40))
      (isTail_tailByte c.toNat) rest
    rw [hfirst, tail_tailByte, tail_tailByte, tail_tailByte, hvalue, Char.ofNat_toNat] at hread
    rw [if_neg hone, if_neg htwo, if_neg hthree]
    exact ⟨_, hread⟩

/-- Only the zero character has a zero byte. -/
theorem ne_zero_of_mem_encodeChar {c : Char} (hc : c.toNat ≠ 0) {b : UInt8} (hb : b ∈ encodeChar c) : b ≠ 0 := by
  have hpoint := codePoint_toNat c
  have htail (bits : Nat) : tailByte bits ≠ 0 := fun h => by
    have hbyte := toNat_tailByte bits
    rw [h] at hbyte
    exact absurd hbyte (by show 0 ≠ _; omega)
  have hbyte {n : Nat} (hn : n < 0x100) (hne : n ≠ 0) : UInt8.ofNat n ≠ 0 := fun h => by
    have hsame := toNat_byteOf hn
    rw [h] at hsame
    exact hne hsame.symm
  rw [encodeChar] at hb
  by_cases hone : c.toNat < 0x80
  · rw [if_pos hone, List.mem_singleton] at hb
    exact hb ▸ hbyte (by omega) hc
  by_cases htwo : c.toNat < 0x800
  · rw [if_neg hone, if_pos htwo, List.mem_cons, List.mem_singleton] at hb
    obtain rfl | rfl := hb
    · exact hbyte (by omega) (by omega)
    · exact htail _
  by_cases hthree : c.toNat < 0x10000
  · rw [if_neg hone, if_neg htwo, if_pos hthree, List.mem_cons, List.mem_cons, List.mem_singleton] at hb
    obtain rfl | rfl | rfl := hb
    · exact hbyte (by omega) (by omega)
    · exact htail _
    · exact htail _
  · rw [if_neg hone, if_neg htwo, if_neg hthree, List.mem_cons, List.mem_cons, List.mem_cons,
      List.mem_singleton] at hb
    obtain rfl | rfl | rfl | rfl := hb
    · exact hbyte (by omega) (by omega)
    · exact htail _
    · exact htail _
    · exact htail _

/-- A text is read again. -/
theorem decodeFrom_encode (index : Nat) (text : List Char) : decodeFrom index (encode text) = .ok text := by
  induction text generalizing index with
  | nil => exact decodeFrom.eq_def index []
  | cons c text ih =>
    obtain ⟨next, hread⟩ := decodeFrom_encodeChar index c (encode text)
    rw [encode, List.flatMap_cons]
    exact hread.trans (by rw [ih]; rfl)

end Utf8

/-! ## UTF-16 -/

namespace Utf16

/-- The unit at this position is a surrogate without its other half: it opens a pair and none that closes one
follows, or it closes a pair and none that opens one precedes. -/
def Unpaired (units : List Nat) (i : Nat) : Prop :=
  ∃ u, units[i]? = some u ∧ ((isHigh u = true ∧ ∀ v, units[i + 1]? = some v → isLow v = false)
    ∨ (isLow u = true ∧ ∀ j v, j + 1 = i → units[j]? = some v → isHigh v = false))

/-- A unit that closes a pair opens none. -/
theorem isHigh_of_isLow {u : Nat} (h : isLow u = true) : isHigh u = false := by
  have hu := of_decide_eq_true h
  exact decide_eq_false (by omega)

variable {u v : Nat}

/-- What precedes a pair does not matter to it. -/
theorem unpaired_succ_succ (u : Nat) (units : List Nat) (i : Nat) :
    Unpaired (u :: units) (i + 2) ↔ Unpaired units (i + 1) := by
  constructor
  · rintro ⟨v, hv, h⟩
    refine ⟨v, hv, h.imp_right fun ⟨hlow, hbefore⟩ => ⟨hlow, fun j w hj hw => ?_⟩⟩
    exact hbefore (j + 1) w (by omega) hw
  · rintro ⟨v, hv, h⟩
    refine ⟨v, hv, h.imp_right fun ⟨hlow, hbefore⟩ => ⟨hlow, fun j w hj hw => ?_⟩⟩
    obtain rfl : j = i + 1 := by omega
    exact hbefore i w rfl hw

/-- Nor does what opens no pair. -/
theorem unpaired_succ (hu : isHigh u = false) (units : List Nat) (i : Nat) :
    Unpaired (u :: units) (i + 1) ↔ Unpaired units i := by
  cases i with
  | succ i => exact unpaired_succ_succ u units i
  | zero =>
    constructor
    · rintro ⟨v, hv, h⟩
      exact ⟨v, hv, h.imp_right fun h => ⟨h.1, fun j w hj _ => by omega⟩⟩
    · rintro ⟨v, hv, h⟩
      refine ⟨v, hv, h.imp_right fun h => ⟨h.1, fun j w hj hw => ?_⟩⟩
      obtain rfl : j = 0 := by omega
      cases hw
      exact hu

/-- A unit that is no surrogate is not unpaired, and leaves no other one so. -/
theorem exists_unpaired_cons (hhigh : isHigh u = false) (hlow : isLow u = false) (units : List Nat) :
    (∃ i, Unpaired (u :: units) i) ↔ ∃ i, Unpaired units i := by
  constructor
  · rintro ⟨i | i, h⟩
    · obtain ⟨_, ⟨⟩, h | h⟩ := h
      · cases hhigh.symm.trans h.1
      · cases hlow.symm.trans h.1
    · exact ⟨i, (unpaired_succ hhigh units i).1 h⟩
  · rintro ⟨i, h⟩
    exact ⟨i + 1, (unpaired_succ hhigh units i).2 h⟩

/-- The same goes for the two units of a pair. -/
theorem exists_unpaired_pair (hhigh : isHigh u = true) (hlow : isLow v = true) (units : List Nat) :
    (∃ i, Unpaired (u :: v :: units) i) ↔ ∃ i, Unpaired units i := by
  have hv := isHigh_of_isLow hlow
  constructor
  · rintro ⟨i | i | i, h⟩
    · obtain ⟨_, ⟨⟩, h | h⟩ := h
      · cases hlow.symm.trans (h.2 v rfl)
      · cases (isHigh_of_isLow h.1).symm.trans hhigh
    · obtain ⟨_, ⟨⟩, h | h⟩ := h
      · cases hv.symm.trans h.1
      · cases hhigh.symm.trans (h.2 0 u rfl rfl)
    · exact ⟨i, (unpaired_succ hv units i).1 ((unpaired_succ_succ u _ i).1 h)⟩
  · rintro ⟨i, h⟩
    exact ⟨i + 2, (unpaired_succ_succ u _ i).2 ((unpaired_succ hv units i).2 h)⟩

/-- A character in front does not make a fault. -/
theorem error_map_iff {result : Except DecodeFault (List Char)} {c : Char} :
    (∃ fault, result.map (c :: ·) = .error fault) ↔ ∃ fault, result = .error fault := by
  cases result with
  | error fault => exact ⟨fun _ => ⟨fault, rfl⟩, fun _ => ⟨fault, rfl⟩⟩
  | ok text => constructor <;> rintro ⟨_, ⟨⟩⟩

/-- Code units are refused exactly where a surrogate has no other half. -/
theorem decode_error_iff (units : List Nat) : (∃ fault, decode units = .error fault) ↔ ∃ i, Unpaired units i := by
  fun_induction decode units with
  | case1 =>
    constructor
    · rintro ⟨_, ⟨⟩⟩
    · rintro ⟨_, _, ⟨⟩, _⟩
  | case2 u rest hlow => exact ⟨fun _ => ⟨0, u, rfl, .inr ⟨hlow, by omega⟩⟩, fun _ => ⟨_, rfl⟩⟩
  | case3 u hlow hhigh =>
    refine ⟨fun _ => ⟨0, u, rfl, .inl ⟨hhigh, fun v hv => ?_⟩⟩, fun _ => ⟨_, rfl⟩⟩
    cases hv
  | case4 u hlow hhigh v rest hpair ih =>
    exact error_map_iff.trans (ih.trans (exists_unpaired_pair hhigh hpair rest).symm)
  | case5 u hlow hhigh v rest hpair =>
    refine ⟨fun _ => ⟨0, u, rfl, .inl ⟨hhigh, fun w hw => ?_⟩⟩, fun _ => ⟨_, rfl⟩⟩
    cases hw
    exact Bool.eq_false_iff.2 hpair
  | case6 u rest hlow hhigh ih =>
    exact error_map_iff.trans
      (ih.trans (exists_unpaired_cons (Bool.eq_false_iff.2 hhigh) (Bool.eq_false_iff.2 hlow) rest).symm)

/-- A character is read again, whatever follows. -/
theorem decode_encodeChar (c : Char) (units : List Nat) :
    decode (encodeChar c ++ units) = (decode units).map (c :: ·) := by
  have hc := codePoint_toNat c
  rw [encodeChar]
  by_cases hone : c.toNat < 0x10000
  · have hlow : isLow c.toNat = false := decide_eq_false (by omega)
    have hhigh : isHigh c.toNat = false := decide_eq_false (by omega)
    rw [if_pos hone, List.singleton_append, decode.eq_def]
    dsimp only
    rw [hlow, if_neg Bool.false_ne_true, hhigh, if_neg Bool.false_ne_true, Char.ofNat_toNat]
  · have hhigh : isHigh (0xD800 + (c.toNat - 0x10000) / 0x400) = true := decide_eq_true (by omega)
    have hlow : isLow (0xDC00 + (c.toNat - 0x10000) % 0x400) = true := decide_eq_true (by omega)
    have hopen : isLow (0xD800 + (c.toNat - 0x10000) / 0x400) = false := decide_eq_false (by omega)
    have hvalue : 0x10000 + (0xD800 + (c.toNat - 0x10000) / 0x400 - 0xD800) * 0x400
        + (0xDC00 + (c.toNat - 0x10000) % 0x400 - 0xDC00) = c.toNat := by omega
    rw [if_neg hone, List.cons_append, List.singleton_append, decode.eq_def]
    dsimp only
    rw [hopen, if_neg Bool.false_ne_true, hhigh, if_pos rfl, hlow, if_pos rfl, hvalue, Char.ofNat_toNat]

/-- Only the zero character has a zero unit. -/
theorem ne_zero_of_mem_encodeChar {c : Char} (hc : c.toNat ≠ 0) {u : Nat} (hu : u ∈ encodeChar c) : u ≠ 0 := by
  rw [encodeChar] at hu
  by_cases hone : c.toNat < 0x10000
  · rw [if_pos hone, List.mem_singleton] at hu
    omega
  · rw [if_neg hone, List.mem_cons, List.mem_singleton] at hu
    omega

/-- A text is read again. -/
theorem decode_encode (text : List Char) : decode (encode text) = .ok text := by
  induction text with
  | nil => exact decode.eq_def []
  | cons c text ih =>
    rw [encode, List.flatMap_cons]
    exact (decode_encodeChar c _).trans (by rw [encode] at ih; rw [ih]; rfl)

/-- The code units of a text have 16 bits. -/
theorem lt_of_mem_encode {text : List Char} {u : Nat} (h : u ∈ encode text) : u < 0x10000 := by
  obtain ⟨c, -, hu⟩ := List.mem_flatMap.1 h
  have hc := codePoint_toNat c
  rw [encodeChar] at hu
  by_cases hone : c.toNat < 0x10000
  · rw [if_pos hone, List.mem_singleton] at hu
    omega
  · rw [if_neg hone, List.mem_cons, List.mem_singleton] at hu
    omega

/-- Code units of 16 bits are read again. -/
theorem units?_bytes (order : ByteOrder) {units : List Nat} (h : ∀ u ∈ units, u < 0x10000) :
    units? order (bytes order units) = some units := by
  induction units with
  | nil => rfl
  | cons u units ih =>
    obtain ⟨hu, hrest⟩ := List.forall_mem_cons.1 h
    have hread := order.readNat_writeNat 2 u
    have hunits := ih hrest
    rw [bytes, List.flatMap_cons]
    rw [bytes] at hunits
    obtain ⟨a, b, hwritten⟩ : ∃ a b, order.writeNat 2 u = [a, b] := by cases order <;> exact ⟨_, _, rfl⟩
    rw [hwritten, show u % pow2 (8 * 2) = u from Nat.mod_eq_of_lt hu] at hread
    rw [hwritten, List.cons_append, List.singleton_append, units?, hunits, hread]
    rfl

/-- Only an odd number of bytes holds no code units. -/
theorem units?_eq_none_iff (order : ByteOrder) (raw : Bytes) : units? order raw = none ↔ raw.length % 2 = 1 := by
  fun_induction units? order raw with
  | case1 => constructor <;> rintro ⟨⟩
  | case2 => exact ⟨fun _ => rfl, fun _ => rfl⟩
  | case3 a b rest ih =>
    rw [Option.map_eq_none_iff, ih, List.length_cons, List.length_cons]
    omega

end Utf16

/-! ## Encodings -/

namespace Encoding

/-- A text is read again. -/
theorem decode_of_encode {encoding : Encoding} {bytes : Bytes} {text : String}
    (h : encoding.encode text = .ok bytes) : encoding.decode bytes = .ok text := by
  have hchars : encoding.decodeChars bytes = .ok text.toList := by
    rw [encode.eq_def] at h
    cases encoding with
    | ascii =>
      dsimp only at h
      split at h
      · cases h
      · rename_i hnone
        cases h
        refine decodeAscii_map (fun c hc => ?_) 0
        have hsmall := List.find?_eq_none.1 hnone c hc
        simpa using hsmall
    | utf8 =>
      cases h
      exact Utf8.decodeFrom_encode 0 _
    | utf16 order =>
      cases h
      rw [decodeChars, Utf16.units?_bytes order fun _ => Utf16.lt_of_mem_encode]
      exact Utf16.decode_encode _
  rw [decode, hchars]
  exact congrArg Except.ok String.ofList_toList

/-- A text has no bytes only if ASCII has none for one of its characters. -/
theorem encode_error_iff {encoding : Encoding} {text : String} :
    (∃ error, encoding.encode text = .error error) ↔ encoding = .ascii ∧ ∃ c ∈ text.toList, 0x80 ≤ c.toNat := by
  rw [encode.eq_def]
  cases encoding with
  | ascii =>
    dsimp only
    split
    · rename_i c hc
      refine ⟨fun _ => ⟨rfl, c, List.mem_of_find?_eq_some hc, ?_⟩, fun _ => ⟨_, rfl⟩⟩
      simpa using List.find?_some hc
    · rename_i hnone
      constructor
      · rintro ⟨_, ⟨⟩⟩
      · rintro ⟨-, c, hc, hlarge⟩
        exact absurd (decide_eq_true hlarge) (List.find?_eq_none.1 hnone c hc)
  | utf8 | utf16 =>
    constructor
    · rintro ⟨_, ⟨⟩⟩
    · rintro ⟨⟨⟩, _⟩

/-- Bytes are no text of UTF-16 if they end within a code unit, or if they are code units with a surrogate that
has no other half. -/
theorem decode_utf16_error_iff {order : ByteOrder} {raw : Bytes} :
    (∃ error, (Encoding.utf16 order).decode raw = .error error) ↔ raw.length % 2 = 1
      ∨ ∃ units, (∀ u ∈ units, u < 0x10000) ∧ Utf16.bytes order units = raw ∧ ∃ i, Utf16.Unpaired units i := by
  rw [decode, decodeChars]
  cases hunits : Utf16.units? order raw with
  | none => exact ⟨fun _ => .inl ((Utf16.units?_eq_none_iff order raw).1 hunits), fun _ => ⟨_, rfl⟩⟩
  | some units =>
    have heven : ¬ raw.length % 2 = 1 := fun hodd => by
      rw [(Utf16.units?_eq_none_iff order raw).2 hodd] at hunits
      cases hunits
    obtain ⟨hbytes, hsmall⟩ := Utf16.bytes_of_units? hunits
    dsimp only
    rw [or_iff_right heven]
    have hfaults := Utf16.decode_error_iff units
    constructor
    · rintro ⟨error, h⟩
      refine ⟨units, hsmall, hbytes, hfaults.1 ?_⟩
      split at h
      · cases h
      · exact ⟨_, ‹_›⟩
    · rintro ⟨units', hsmall', hbytes', h⟩
      have hsame := Utf16.units?_bytes order hsmall'
      rw [hbytes', hunits, Option.some_inj] at hsame
      subst hsame
      obtain ⟨fault, hfault⟩ := hfaults.2 h
      rw [hfault]
      exact ⟨_, rfl⟩

/-- Reading and writing a text are inverse to each other. A text is refused exactly if it is to be ASCII and has
a character beyond. Bytes are refused as UTF-16 exactly if their number is odd or a surrogate among their code
units has no other half. The bytes of a text in UTF-8 are the standard ones. -/
theorem inverse :
    (∀ (encoding : Encoding) (bytes : Bytes) (text : String),
        encoding.decode bytes = .ok text ↔ encoding.encode text = .ok bytes)
      ∧ (∀ (encoding : Encoding) (text : String), (∃ error, encoding.encode text = .error error) ↔
        encoding = .ascii ∧ ∃ c ∈ text.toList, 0x80 ≤ c.toNat)
      ∧ (∀ (order : ByteOrder) (bytes : Bytes), (∃ error, (Encoding.utf16 order).decode bytes = .error error) ↔
        bytes.length % 2 = 1 ∨ ∃ units, (∀ u ∈ units, u < 0x10000) ∧ Utf16.bytes order units = bytes
          ∧ ∃ i, Utf16.Unpaired units i)
      ∧ ∀ text : String, Encoding.utf8.encode text = .ok text.toByteArray.data.toList := by
  refine ⟨fun _ _ _ => ⟨encode_of_decode, decode_of_encode⟩, fun _ _ => encode_error_iff,
    fun _ _ => decode_utf16_error_iff, fun text => congrArg Except.ok ?_⟩
  rw [← String.utf8Encode_toList, List.utf8Encode, List.toList_data_toByteArray, Utf8.encode_eq]

/-- A pair of surrogates is one character, and half of it is no text. -/
theorem inverse_of_pair :
    (Encoding.utf16 .big).encode "a😀" = .ok [0x00, 0x61, 0xD8, 0x3D, 0xDE, 0x00]
      ∧ (Encoding.utf16 .big).decode [0x00, 0x61, 0xD8, 0x3D, 0xDE, 0x00] = .ok "a😀"
      ∧ ∃ error, (Encoding.utf16 .big).decode [0x00, 0x61, 0xD8, 0x3D] = .error error := by
  have hencode : (Encoding.utf16 .big).encode "a😀" = .ok [0x00, 0x61, 0xD8, 0x3D, 0xDE, 0x00] := rfl
  obtain ⟨hinverse, -, hrefused, -⟩ := inverse
  have hhalf : Utf16.Unpaired [0x61, 0xD83D] 1 := ⟨0xD83D, rfl, .inl ⟨rfl, nofun⟩⟩
  exact ⟨hencode, (hinverse _ _ _).2 hencode, (hrefused _ _).2 (.inr ⟨_, by decide, rfl, 1, hhalf⟩)⟩

end Encoding

end BinaryLayout
