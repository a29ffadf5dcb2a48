import BinaryLayout.Proofs.Codec.Integer

/-!
# Texts that were read are written again

In each encoding the bytes of a text that decodes are those of its characters: no character can be
written in two ways, because overlong forms and code points that are no characters do not decode. What
marks the end of a text is written again too, if the text was read whole.

## Main definitions

* `TextFormat.Framed`: bytes that a text of this format takes up.
* `Layout.Holds`: bytes that a layout without parts takes up.

## Main statements

* `Utf8.encode_of_decode`, `Utf16.encode_of_decode`, `Encoding.encode_of_decode`: the bytes of the
  characters.
* `TextFormat.encode_of_decode`: the bytes of a text with what marks its end.
* `Layout.encode_of_decode`: the bytes of any such layout.
-/

namespace BinaryLayout

theorem toNat_charOfNat {n : Nat} (h : n.isValidChar) : (Char.ofNat n).toNat = n := by
  rw [Char.ofNat, dif_pos h]
  rfl

/-! ## ASCII -/

theorem Encoding.ascii_of_decode {index : Nat} {bytes : Bytes} {text : List Char}
    (h : decodeAscii index bytes = .ok text) :
    text.map (fun c => UInt8.ofNat c.toNat) = bytes ∧ ∀ c ∈ text, c.toNat < 0x80 := by
  induction bytes generalizing index text with
  | nil =>
    cases h
    exact ⟨rfl, nofun⟩
  | cons b bytes ih =>
    rw [decodeAscii] at h
    split at h
    · rename_i hb
      cases hrest : decodeAscii (index + 1) bytes with
      | error e =>
        rw [hrest] at h
        cases h
      | ok rest =>
        rw [hrest] at h
        cases h
        obtain ⟨hbytes, hsmall⟩ := ih hrest
        have hchar : (Char.ofNat b.toNat).toNat = b.toNat := toNat_charOfNat (.inl (by omega))
        rw [List.map_cons, hchar, UInt8.ofNat_toNat, hbytes, List.forall_mem_cons, hchar]
        exact ⟨rfl, hb, hsmall⟩
    · cases h

/-! ## UTF-8 -/

namespace Utf8

theorem bounds_of_isTail {b : UInt8} (h : isTail b = true) : 0x80 ≤ b.toNat ∧ b.toNat < 0xC0 :=
  of_decide_eq_true h

/-- The second byte of a character keeps out overlong forms, surrogates and what is no code point. -/
theorem bounds_of_isSecond {a b : UInt8} (h : isSecond a b = true) :
    0x80 ≤ b.toNat ∧ b.toNat < 0xC0 ∧ (a.toNat = 0xE0 → 0xA0 ≤ b.toNat) ∧ (a.toNat = 0xED → b.toNat < 0xA0)
      ∧ (a.toNat = 0xF0 → 0x90 ≤ b.toNat) ∧ (a.toNat = 0xF4 → b.toNat < 0x90) := by
  have hbyte (n : UInt8) : a = n ↔ a.toNat = n.toNat := UInt8.toNat_inj.symm
  have hbounds := of_decide_eq_true h
  simp only [hbyte] at hbounds
  repeat' split at hbounds
  all_goals simp_all
  all_goals omega

theorem encodeChar_one {a : UInt8} (h : a.toNat < 0x80) : encodeChar (Char.ofNat a.toNat) = [a] := by
  have hchar : (Char.ofNat a.toNat).toNat = a.toNat := toNat_charOfNat (.inl (by omega))
  rw [encodeChar, hchar]
  rw [if_pos h, UInt8.ofNat_toNat]

/-- A byte that has this value. -/
theorem ofNat_eq {n : Nat} {b : UInt8} (h : n = b.toNat) : UInt8.ofNat n = b := by
  rw [h, UInt8.ofNat_toNat]

theorem tailByte_eq {n : Nat} {b : UInt8} (h : 0x80 + n % 0x40 = b.toNat) : tailByte n = b := ofNat_eq h

theorem encodeChar_two {a b : UInt8} (ha : 0xC2 ≤ a.toNat) (ha' : a.toNat < 0xE0)
    (hb : 0x80 ≤ b.toNat ∧ b.toNat < 0xC0) :
    encodeChar (Char.ofNat (a.toNat % 0x20 * 0x40 + tail b)) = [a, b] := by
  rw [tail]
  have hchar := toNat_charOfNat (n := a.toNat % 0x20 * 0x40 + b.toNat % 0x40) (.inl (by omega))
  rw [encodeChar, hchar]
  rw [if_neg (by omega), if_pos (by omega), ofNat_eq (b := a) (by omega), tailByte_eq (b := b) (by omega)]

theorem encodeChar_three {a b c : UInt8} (ha : 0xE0 ≤ a.toNat) (ha' : a.toNat < 0xF0)
    (hb : isSecond a b = true) (hc : isTail c = true) :
    encodeChar (Char.ofNat (a.toNat % 0x10 * 0x1000 + tail b * 0x40 + tail c)) = [a, b, c] := by
  have hb := bounds_of_isSecond hb
  have hc := bounds_of_isTail hc
  rw [tail, tail]
  have hvalid : (a.toNat % 0x10 * 0x1000 + b.toNat % 0x40 * 0x40 + c.toNat % 0x40).isValidChar := by
    rw [Nat.isValidChar]
    omega
  rw [encodeChar, toNat_charOfNat hvalid]
  rw [if_neg (by omega), if_neg (by omega), if_pos (by omega), ofNat_eq (b := a) (by omega),
    tailByte_eq (b := b) (by omega), tailByte_eq (b := c) (by omega)]

theorem encodeChar_four {a b c d : UInt8} (ha : 0xF0 ≤ a.toNat) (ha' : a.toNat < 0xF5)
    (hb : isSecond a b = true) (hc : isTail c = true) (hd : isTail d = true) :
    encodeChar (Char.ofNat (a.toNat % 0x08 * 0x40000 + tail b * 0x1000 + tail c * 0x40 + tail d))
      = [a, b, c, d] := by
  have hb := bounds_of_isSecond hb
  have hc := bounds_of_isTail hc
  have hd := bounds_of_isTail hd
  rw [tail, tail, tail]
  have hvalid : (a.toNat % 0x08 * 0x40000 + b.toNat % 0x40 * 0x1000 + c.toNat % 0x40 * 0x40
      + d.toNat % 0x40).isValidChar := by
    rw [Nat.isValidChar]
    omega
  rw [encodeChar, toNat_charOfNat hvalid]
  rw [if_neg (by omega), if_neg (by omega), if_neg (by omega), ofNat_eq (b := a) (by omega),
    tailByte_eq (b := b) (by omega), tailByte_eq (b := c) (by omega), tailByte_eq (b := d) (by omega)]

/-- The first character of a text that was decoded, and the others. -/
theorem encode_cons {c : Char} {front rest : Bytes} {result : Except DecodeFault (List Char)}
    {text : List Char} (hfront : encodeChar c = front)
    (ih : ∀ {text}, result = .ok text → encode text = rest)
    (h : result.map (c :: ·) = .ok text) : encode text = front ++ rest := by
  cases result with
  | error e => cases h
  | ok others =>
    cases h
    rw [encode, List.flatMap_cons, hfront]
    exact congrArg (front ++ ·) (ih rfl)

theorem encode_of_decodeFrom {index : Nat} {bytes : Bytes} {text : List Char}
    (h : decodeFrom index bytes = .ok text) : encode text = bytes := by
  fun_induction decodeFrom index bytes generalizing text with
  | case1 =>
    cases h
    rfl
  | case2 _ a rest hone ih => exact encode_cons (encodeChar_one hone) ih h
  | case6 _ a hone hfirst b rest hsecond htwo ih =>
    have hb := bounds_of_isSecond (a := a) (b := b) (by simpa using hsecond)
    exact encode_cons (encodeChar_two (by omega) htwo ⟨hb.1, hb.2.1⟩) ih h
  | case9 _ a hone hfirst b hsecond htwo c rest hthird hthree ih =>
    exact encode_cons (encodeChar_three (by omega) hthree (by simpa using hsecond) (by simpa using hthird)) ih h
  | case12 _ a hone hfirst b hsecond htwo c hthird hthree d rest hfourth ih =>
    exact encode_cons (encodeChar_four (by omega) (by omega) (by simpa using hsecond)
      (by simpa using hthird) (by simpa using hfourth)) ih h
  | case3 | case4 | case5 | case7 | case8 | case10 | case11 => cases h

/-- The bytes of the characters of a text are those that it was decoded from. -/
theorem encode_of_decode {bytes : Bytes} {text : List Char} (h : decode bytes = .ok text) :
    encode text = bytes :=
  encode_of_decodeFrom h

end Utf8

/-! ## UTF-16 -/

namespace Utf16

theorem bytes_of_units? {order : ByteOrder} {raw : Bytes} {units : List Nat} (h : units? order raw = some units) :
    bytes order units = raw ∧ ∀ u ∈ units, u < 0x10000 := by
  fun_induction units? order raw generalizing units with
  | case1 =>
    cases h
    exact ⟨rfl, nofun⟩
  | case2 => cases h
  | case3 a b rest ih =>
    obtain ⟨others, hothers, rfl⟩ := Option.map_eq_some_iff.1 h
    obtain ⟨hrest, hsmall⟩ := ih hothers
    have hpair : ([a, b] : Bytes).length = 2 := rfl
    rw [bytes, List.flatMap_cons, order.writeNat_readNat hpair]
    exact ⟨congrArg ([a, b] ++ ·) hrest, List.forall_mem_cons.2 ⟨order.readNat_lt hpair, hsmall⟩⟩

theorem encode_cons {c : Char} (front : List Nat) {rest : List Nat} {result : Except DecodeFault (List Char)}
    {text : List Char} (hfront : encodeChar c = front)
    (ih : ∀ {text}, result = .ok text → encode text = rest)
    (h : result.map (c :: ·) = .ok text) : encode text = front ++ rest := by
  cases result with
  | error e => cases h
  | ok others =>
    cases h
    rw [encode, List.flatMap_cons, hfront]
    exact congrArg (front ++ ·) (ih rfl)

/-- The code units of the characters of a text are those that it was decoded from. -/
theorem encode_of_decode {units : List Nat} {text : List Char} (hunits : ∀ u ∈ units, u < 0x10000)
    (h : decode units = .ok text) : encode text = units := by
  fun_induction decode units generalizing text with
  | case1 =>
    cases h
    rfl
  | case4 u hlow hhigh v rest hpair ih =>
    rw [List.forall_mem_cons, List.forall_mem_cons] at hunits
    have hu := of_decide_eq_true hhigh
    have hv := of_decide_eq_true hpair
    refine encode_cons [u, v] ?_ (fun hrest => ih hunits.2.2 hrest) h
    have hvalid : (0x10000 + (u - 0xD800) * 0x400 + (v - 0xDC00)).isValidChar := by
      rw [Nat.isValidChar]
      omega
    rw [encodeChar, toNat_charOfNat hvalid, if_neg (by omega)]
    have hfirst : 0xD800 + (0x10000 + (u - 0xD800) * 0x400 + (v - 0xDC00) - 0x10000) / 0x400 = u := by omega
    have hsecond : 0xDC00 + (0x10000 + (u - 0xD800) * 0x400 + (v - 0xDC00) - 0x10000) % 0x400 = v := by omega
    rw [hfirst, hsecond]
  | case6 u rest hlow hhigh ih =>
    rw [List.forall_mem_cons] at hunits
    refine encode_cons [u] ?_ (fun hrest => ih hunits.2 hrest) h
    simp only [isLow, isHigh, decide_eq_true_eq] at hlow hhigh
    have hvalid : u.isValidChar := by
      rw [Nat.isValidChar]
      omega
    rw [encodeChar, toNat_charOfNat hvalid, if_pos hunits.1]
  | case2 | case3 | case5 => cases h

end Utf16

/-! ## Texts -/

/-- The bytes of the characters of a text are those that it was decoded from. -/
theorem Encoding.encode_of_decode {encoding : Encoding} {bytes : Bytes} {text : String}
    (h : encoding.decode bytes = .ok text) : encoding.encode text = .ok bytes := by
  rw [decode] at h
  split at h
  · rename_i chars hchars
    cases h
    rw [encode.eq_def]
    cases encoding with
    | ascii =>
      obtain ⟨hbytes, hsmall⟩ := ascii_of_decode hchars
      have hnone : chars.find? (fun c => decide (0x80 ≤ c.toNat)) = none := by
        rw [List.find?_eq_none]
        intro c hc
        have := hsmall c hc
        simpa using this
      dsimp only
      rw [String.toList_ofList, hnone, hbytes]
    | utf8 =>
      dsimp only
      rw [String.toList_ofList, Utf8.encode_of_decode hchars]
    | utf16 order =>
      simp only [decodeChars] at hchars
      split at hchars
      · rename_i units hunits
        obtain ⟨hbytes, hsmall⟩ := Utf16.bytes_of_units? hunits
        dsimp only
        rw [String.toList_ofList, Utf16.encode_of_decode hsmall hchars, hbytes]
      · cases hchars
  · cases h

/-- The bytes are a text with what marks its end, as the format asks for it. -/
def TextFormat.Framed (format : TextFormat) (raw : Bytes) : Prop :=
  match format.length with
  | .counted count => word? (count * format.encoding.unit) = some raw.length
  | .terminated => ∃ body, raw = body ++ List.replicate format.encoding.unit 0
  | .prefixed length => ∃ front body, raw = front ++ body ∧ front.length = length.width
      ∧ body.length = length.order.readNat front * format.encoding.unit

/-- The bytes of a text that was read whole are those that it was read from. -/
theorem TextFormat.encode_of_decode {format : TextFormat} {raw : Bytes} {text : String}
    (hraw : format.Framed raw) (h : format.decode raw = .ok text) : format.encode text = .ok raw := by
  rw [decode] at h
  have hbody := Encoding.encode_of_decode h
  rw [encode, hbody]
  rw [Framed] at hraw
  rw [body]
  dsimp only
  cases hlength : format.length with
  | counted count =>
    rw [hlength] at hraw
    dsimp only at hraw ⊢
    rw [hraw]
    dsimp only
    rw [if_neg (Nat.lt_irrefl _), Nat.sub_self, List.replicate_zero, List.append_nil]
  | terminated =>
    rw [hlength] at hraw
    obtain ⟨body, rfl⟩ := hraw
    dsimp only
    rw [List.length_append, List.length_replicate, Nat.add_sub_cancel, List.take_left' rfl]
  | «prefixed» length =>
    rw [hlength] at hraw
    obtain ⟨front, body, rfl, hfront, hcount⟩ := hraw
    have hunit : 0 < format.encoding.unit := by cases format.encoding <;> exact Nat.succ_pos _
    dsimp only
    rw [List.drop_left' hfront, hcount, Nat.mul_div_cancel _ hunit, Codec.writeNat_readNat length.order hfront]

/-! ## Layouts without parts -/

namespace Layout

variable {κ : Type}

/-- The bytes are what the layout takes up: an integer of its width, a text with what marks its end, or
any bytes that are kept as they are. -/
def Holds (layout : Layout κ) (raw : Bytes) : Prop :=
  match layout with
  | int format | pointer format _ _ => raw.length = format.width
  | text format => format.Framed raw
  | block _ | constant _ | padding _ | align _ => True
  | _ => False

/-- The bytes of the value of a layout without parts are those that it was read from. -/
theorem encode_of_decode {layout : Layout κ} {raw : Bytes} {v : Value} (hraw : layout.Holds raw)
    (hpointer : ∀ wire target policy, layout ≠ .pointer wire target policy)
    (h : layout.decode raw = .ok v) : layout.encode v = .ok raw := by
  cases layout with
  | int format =>
    cases h
    have hencode := format.encode_toValue hraw
    rw [IntFormat.toValue] at hencode ⊢
    split at hencode <;> split <;> first | contradiction | exact hencode
  | text format =>
    rw [decode] at h
    cases htext : format.decode raw with
    | error e =>
      rw [htext] at h
      cases h
    | ok text =>
      rw [htext] at h
      cases h
      exact TextFormat.encode_of_decode hraw htext
  | block | constant | padding | align =>
    cases h
    rfl
  | pointer wire target policy => exact absurd rfl (hpointer wire target policy)
  | float | fixed | varint | record | array | union | bits => exact hraw.elim

end Layout

end BinaryLayout
