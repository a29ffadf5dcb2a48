import BinaryLayout.Proofs.Exact.Text

/-!
# Bytes of texts that decode

Whatever the encoding and wherever a text ends, the bytes that encoding a text gives decode again, and so do
those of a new text. Raw bytes are stored as they are given, so only they may fail to decode.

## Main definitions

* `AtomLayout.isUndecodable`: a text holds bytes that do not decode.

## Main statements

* `Layout.isUndecodable_of_encode`: only raw bytes that were given may fail to decode.
* `Layout.isUndecodable_defaultBytes`: new bytes decode.
* `Place.text_error_iff`: what it takes for the text of an atom to fail to decode.
-/

namespace BinaryLayout

variable {κ : Type}

/-- Zero units behind a text are zero characters. -/
theorem Encoding.encode_append_zeros {encoding : Encoding} {text : String} {body : Bytes}
    (h : encoding.encode text = .ok body) (count : Nat) :
    encoding.encode (text ++ String.ofList (List.replicate count '\x00'))
      = .ok (body ++ List.replicate (count * encoding.unit) 0) := by
  have hchars : (text ++ String.ofList (List.replicate count '\x00')).toList
      = text.toList ++ List.replicate count '\x00' := by
    rw [String.toList_append, String.toList_ofList]
  have hzeros {α β : Type} (f : α → List β) (a : α) (b : β) (width : Nat)
      (hf : f a = List.replicate width b) :
      (List.replicate count a).flatMap f = List.replicate (count * width) b := by
    rw [List.flatMap_replicate, hf, List.flatten_replicate_replicate]
  cases encoding with
  | ascii =>
    rw [encode] at h ⊢
    rw [hchars, List.find?_append]
    split at h
    · cases h
    · rename_i hnone
      cases h
      have hzero : (List.replicate count '\x00').find? (fun c => decide (0x80 ≤ c.toNat)) = none := by
        rw [List.find?_replicate]
        split <;> rfl
      rw [hnone, hzero, List.map_append, List.map_replicate, unit, Nat.mul_one]
      rfl
  | utf8 =>
    cases h
    rw [encode, hchars, Utf8.encode, List.flatMap_append, hzeros Utf8.encodeChar '\x00' 0 1 rfl]
    rfl
  | utf16 order =>
    cases h
    have hunits : Utf16.encode (List.replicate count '\x00') = List.replicate (count * 1) 0 :=
      hzeros Utf16.encodeChar '\x00' 0 1 rfl
    rw [encode, hchars, Utf16.encode, List.flatMap_append, ← Utf16.encode, ← Utf16.encode, hunits,
      Nat.mul_one, Utf16.bytes, List.flatMap_append,
      hzeros (order.writeNat 2) 0 0 2 (by cases order <;> rfl)]
    rfl

namespace TextFormat

variable {format : TextFormat} {text : String} {raw : Bytes}

/-- The bytes of a text of counted length are those of the text with zero characters behind it. -/
theorem encode_counted {count : Nat} (hlength : format.length = .counted count)
    (h : format.encode text = .ok raw) :
    ∃ zeros, format.encoding.encode (text ++ String.ofList (List.replicate zeros '\x00')) = .ok raw := by
  rw [encode, hlength] at h
  cases hbody : format.encoding.encode text with
  | error e =>
    rw [hbody] at h
    cases h
  | ok body =>
    rw [hbody] at h
    dsimp only at h
    split at h
    · cases h
    · rename_i capacity hcapacity
      split at h
      · cases h
      · cases h
        obtain rfl : count * format.encoding.unit = capacity := by
          rw [word?] at hcapacity
          split at hcapacity <;> cases hcapacity
          rfl
        refine ⟨count - (format.encoding.codeUnits text).length, ?_⟩
        rw [Encoding.encode_append_zeros hbody, Nat.sub_mul, ← Encoding.length_flatten_codeUnits,
          Encoding.flatten_codeUnits hbody]

/-- The bytes of a text decode. -/
theorem isOk_of_encode (h : format.encode text = .ok raw) : (format.decode raw).isOk = true := by
  cases hlength : format.length with
  | counted count =>
    obtain ⟨zeros, hencode⟩ := encode_counted hlength h
    rw [decode, body, hlength, Encoding.decode_of_encode hencode]
    rfl
  | terminated | «prefixed» =>
    rw [decode_of_encode (fun count hcounted => by cases hlength.symm.trans hcounted) h]
    rfl

/-- A new text decodes. -/
theorem isOk_defaultBytes (h : format.defaultBytes = .ok raw) : (format.decode raw).isOk = true := by
  have hempty : (format.encoding.decode []).isOk = true := by
    cases format.encoding <;> rfl
  rw [defaultBytes] at h
  rw [decode, body]
  cases hlength : format.length with
  | counted count =>
    rw [hlength] at h
    obtain ⟨amount, hamount, rfl⟩ := ok_of_map h
    have hnone : format.encoding.encode "" = .ok [] := by
      cases format.encoding <;> rfl
    obtain rfl : count * format.encoding.unit = amount := by
      rw [unitBytes, word?] at hamount
      split at hamount <;> cases hamount
      split at * <;> simp_all
    have hzeros := Encoding.decode_of_encode (Encoding.encode_append_zeros hnone count)
    rw [List.nil_append] at hzeros
    dsimp only
    rw [hzeros]
    rfl
  | terminated =>
    rw [hlength] at h
    cases h
    dsimp only
    rwa [List.length_replicate, Nat.sub_self, List.take_zero]
  | «prefixed» length =>
    rw [hlength] at h
    cases h
    dsimp only
    rwa [List.drop_of_length_le (List.length_replicate ..).le]

end TextFormat

namespace Layout

variable {layout : Layout κ} {raw : Bytes}

/-- Only raw bytes that were given as such may fail to decode. -/
theorem isUndecodable_of_encode {v : Value} (h : layout.encode v = .ok raw)
    (hraw : layout.isUndecodable raw = true) : v = .bytes raw := by
  cases layout
  case text format =>
    have hno (text : String) : format.encode text ≠ .ok raw := fun htext => by
      rw [isUndecodable, TextFormat.isOk_of_encode htext] at hraw
      cases hraw
    cases v
    case bytes bytes =>
      cases h
      rfl
    case text text => exact absurd h (hno text)
    all_goals cases h
  all_goals cases hraw

/-- New bytes decode. -/
theorem isUndecodable_defaultBytes {config : Config} {frames : List (Frame κ)} {offset : Nat}
    (h : layout.defaultBytes config frames offset = .ok raw) : layout.isUndecodable raw = false := by
  cases layout
  case text format =>
    rw [isUndecodable, TextFormat.isOk_defaultBytes h]
    rfl
  all_goals rfl

end Layout

/-- Atoms of the layout with this content are texts whose bytes do not decode. -/
def AtomLayout.isUndecodable : AtomLayout κ → Content → Bool
  | .bytes layout, .raw raw => layout.isUndecodable raw
  | _, _ => false

@[simp] theorem AtomLayout.isUndecodable_stored (layout : Layout κ) (raw : Bytes) :
    (AtomLayout.bytes layout).isUndecodable (layout.stored raw) = layout.isUndecodable raw := by
  cases layout <;> rfl

/-- Only raw bytes fail to decode. -/
theorem AtomLayout.raw_of_isUndecodable {layout : AtomLayout κ} {content : Content}
    (h : layout.isUndecodable content = true) : ∃ raw, content = .raw raw := by
  cases layout with
  | bits => cases h
  | bytes layout =>
    cases content with
    | raw raw => exact ⟨raw, rfl⟩
    | empty | group | overlay | pointer | host | bits => cases h

/-- The text of an atom fails to decode exactly if its bytes do and a null pointer does not refer to it. -/
theorem Place.text_error_iff {p : Place κ} :
    (∃ fault, p.text = .error (.located p.path (.decode fault)))
      ↔ p.atom.info.null = false ∧ p.atom.info.layout.isUndecodable p.atom.content = true := by
  rw [text, Atom.readable]
  cases hnull : p.atom.info.null with
  | true => simp
  | false =>
    rw [if_neg Bool.false_ne_true]
    cases hcontent : p.atom.content with
    | empty => simp [Atom.failed, AtomLayout.isUndecodable]
    | raw raw =>
      simp only [reduceCtorEq, ↓reduceIte]
      cases hlayout : p.atom.info.layout with
      | bits layout => simp [refuse, AtomLayout.isUndecodable]
      | bytes layout =>
        cases layout
        case text format =>
          rw [AtomLayout.isUndecodable, Layout.isUndecodable]
          dsimp only [Atom.rawAt]
          cases hdecode : format.decode raw with
          | ok text => simp [Except.isOk, Except.toBool]
          | error e =>
            obtain ⟨fault, rfl⟩ : ∃ fault, e = .decode fault := by
              rw [TextFormat.decode, Encoding.decode] at hdecode
              split at hdecode <;> cases hdecode
              exact ⟨_, rfl⟩
            simp [Except.isOk, Except.toBool, Error.within, Error.decode]
        all_goals simp [refuse, AtomLayout.isUndecodable, Layout.isUndecodable]
    | group | overlay | pointer | host | bits =>
      simp only [reduceCtorEq, ↓reduceIte]
      cases hlayout : p.atom.info.layout with
      | bits layout => simp [refuse, AtomLayout.isUndecodable]
      | bytes layout => cases layout <;> simp [refuse, AtomLayout.isUndecodable, Atom.rawAt, Atom.failed]

end BinaryLayout
