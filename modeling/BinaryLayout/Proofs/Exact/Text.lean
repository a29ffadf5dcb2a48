import BinaryLayout.Proofs.Codec.Unicode
import BinaryLayout.Proofs.Exact.Document

/-!
# Stored texts

A text that was assigned is stored with what marks its end, so that it can be loaded again wherever its bytes
stand and whatever follows them. A count in front says how many code units there are. A zero unit behind says
so only if none of the code units is zero, that is, if the text has no zero character; nothing refuses one
that has.

## Main definitions

* `Encoding.codeUnits`: the code units of a text.

## Main statements

* `Encoding.nonzero_of_mem_codeUnits`: only the zero character has a zero unit.
* `TextFormat.gives_readText`: the bytes of a text are read up to its end.
* `Document.loads_text`: a stored text is loaded.
* `Document.Reachable.reload_text`: a text that was assigned is loaded again.
-/

namespace BinaryLayout

variable {κ : Type}

/-! ## Code units -/

namespace Encoding

/-- The code units of a text, each with its bytes. -/
def codeUnits (encoding : Encoding) (text : String) : List Bytes :=
  match encoding with
  | ascii => text.toList.map fun c => [UInt8.ofNat c.toNat]
  | utf8 => (Utf8.encode text.toList).map fun b => [b]
  | utf16 order => (Utf16.encode text.toList).map (order.writeNat 2)

variable {encoding : Encoding} {text : String} {body : Bytes}

theorem length_of_mem_codeUnits {bytes : Bytes} (h : bytes ∈ encoding.codeUnits text) :
    bytes.length = encoding.unit := by
  cases encoding with
  | ascii | utf8 =>
    obtain ⟨_, -, rfl⟩ := List.mem_map.1 h
    rfl
  | utf16 order =>
    obtain ⟨u, -, rfl⟩ := List.mem_map.1 h
    exact order.length_writeNat 2 u

/-- A text is written as its code units. -/
theorem flatten_codeUnits (h : encoding.encode text = .ok body) : (encoding.codeUnits text).flatten = body := by
  rw [encode.eq_def] at h
  cases encoding with
  | ascii =>
    dsimp only at h
    split at h
    · cases h
    · cases h
      rw [codeUnits, ← List.flatMap_def]
      exact List.map_eq_flatMap.symm
  | utf8 =>
    cases h
    rw [codeUnits, ← List.flatMap_def]
    exact List.flatMap_singleton' _
  | utf16 order =>
    cases h
    rw [codeUnits, ← List.flatMap_def]
    rfl

theorem length_flatten_codeUnits (encoding : Encoding) (text : String) :
    (encoding.codeUnits text).flatten.length = (encoding.codeUnits text).length * encoding.unit := by
  rw [List.length_flatten, List.map_congr_left fun _ => length_of_mem_codeUnits, List.map_const',
    List.sum_replicate_nat]

/-- A code unit that is zero stands for the zero character. -/
theorem nonzero_of_mem_codeUnits (h : encoding.encode text = .ok body) (hzero : '\x00' ∉ text.toList)
    {bytes : Bytes} (hbytes : bytes ∈ encoding.codeUnits text) : bytes.all (· = 0) = false := by
  have hchar {c : Char} (hc : c ∈ text.toList) : c.toNat ≠ 0 := by
    intro hnat
    refine hzero ?_
    have hsame : c = '\x00' := by
      rw [← Char.ofNat_toNat c, hnat]
    exact hsame ▸ hc
  have hone {b : UInt8} (hb : b ≠ 0) : [b].all (· = 0) = false := by simpa using hb
  cases encoding with
  | ascii =>
    obtain ⟨c, hc, rfl⟩ := List.mem_map.1 hbytes
    have hsmall : ¬ 0x80 ≤ c.toNat := fun hlarge => by
      obtain ⟨error, herror⟩ : ∃ error, Encoding.ascii.encode text = .error error :=
        encode_error_iff.2 ⟨rfl, c, hc, hlarge⟩
      cases herror.symm.trans h
    refine hone fun hb => hchar hc ?_
    rw [← toNat_byteOf (n := c.toNat) (by omega), hb]
    rfl
  | utf8 =>
    obtain ⟨b, hb, rfl⟩ := List.mem_map.1 hbytes
    obtain ⟨c, hc, hb⟩ := List.mem_flatMap.1 hb
    exact hone (Utf8.ne_zero_of_mem_encodeChar (hchar hc) hb)
  | utf16 order =>
    obtain ⟨u, hu, rfl⟩ := List.mem_map.1 hbytes
    obtain ⟨c, hc, hu'⟩ := List.mem_flatMap.1 hu
    have hlt := Utf16.lt_of_mem_encode hu
    refine Bool.eq_false_iff.2 fun hall => Utf16.ne_zero_of_mem_encodeChar (hchar hc) hu' ?_
    have hzeros : order.writeNat 2 u = List.replicate 2 0 := by
      refine List.eq_replicate_iff.2 ⟨order.length_writeNat 2 u, fun b hb => ?_⟩
      simpa using List.all_eq_true.1 hall b hb
    have hread := order.readNat_writeNat 2 u
    rw [hzeros, show u % pow2 (8 * 2) = u from Nat.mod_eq_of_lt hlt] at hread
    rw [← hread]
    cases order <;> rfl

/-- The code units of a text without a zero character. -/
theorem nonzeroUnits_codeUnits (h : encoding.encode text = .ok body) (hzero : '\x00' ∉ text.toList) :
    NonzeroUnits encoding.unit (encoding.codeUnits text) := fun _ hbytes =>
  ⟨length_of_mem_codeUnits hbytes, nonzero_of_mem_codeUnits h hzero hbytes⟩

end Encoding

/-! ## Texts with what marks their end -/

/-- A number without a sign that was written is read. -/
theorem Codec.of_writeNat {order : ByteOrder} {width n : Nat} {bytes : Bytes}
    (h : writeNat order width n = .ok bytes) : bytes.length = width ∧ order.readNat bytes = n := by
  rw [writeNat, writeInt] at h
  split at h
  · rename_i hrange
    cases h
    rw [InRange, if_neg Bool.false_ne_true] at hrange
    refine ⟨order.length_writeNat width _, ?_⟩
    have hread := readNat_wrapInt order width n
    rw [Int.emod_eq_of_lt hrange.1 hrange.2] at hread
    exact Int.ofNat.inj hread
  · cases h

/-- One that does not fit is refused. -/
theorem Codec.value_of_writeNat {order : ByteOrder} {width n : Nat} {error : Error}
    (h : writeNat order width n = .error error) : ∃ fault, error = .value fault := by
  rw [writeNat, writeInt] at h
  split at h <;> cases h
  exact ⟨_, rfl⟩

namespace TextFormat

variable {format : TextFormat} {text : String} {raw : Bytes}

/-- A text that ends with a zero unit. -/
theorem encode_terminated (hlength : format.length = .terminated) (h : format.encode text = .ok raw) :
    ∃ body, format.encoding.encode text = .ok body ∧ raw = body ++ List.replicate format.encoding.unit 0 := by
  rw [encode, hlength] at h
  cases hbody : format.encoding.encode text with
  | error e =>
    rw [hbody] at h
    cases h
  | ok body =>
    rw [hbody] at h
    cases h
    exact ⟨body, rfl, rfl⟩

/-- A text that a count of its code units stands before. -/
theorem encode_prefixed {length : IntFormat} (hlength : format.length = .prefixed length)
    (h : format.encode text = .ok raw) :
    ∃ front body, format.encoding.encode text = .ok body ∧ raw = front ++ body ∧ front.length = length.width
      ∧ length.order.readNat front = (format.encoding.codeUnits text).length := by
  rw [encode, hlength] at h
  cases hbody : format.encoding.encode text with
  | error e =>
    rw [hbody] at h
    cases h
  | ok body =>
    rw [hbody] at h
    dsimp only at h
    have hcount : body.length / format.encoding.unit = (format.encoding.codeUnits text).length := by
      rw [← Encoding.flatten_codeUnits hbody, Encoding.length_flatten_codeUnits,
        Nat.mul_div_cancel _ (LoadM.unit_pos _)]
    rw [hcount] at h
    cases hfront : Codec.writeNat length.order length.width (format.encoding.codeUnits text).length with
    | error e =>
      rw [hfront] at h
      cases h
    | ok front =>
      rw [hfront] at h
      cases h
      obtain ⟨hlength, hread⟩ := Codec.of_writeNat hfront
      exact ⟨front, body, rfl, rfl, hlength, hread⟩

/-- A text is read again from its bytes. -/
theorem decode_of_encode (hcounted : ∀ count, format.length ≠ .counted count)
    (h : format.encode text = .ok raw) : format.decode raw = .ok text := by
  have hbody : ∃ body, format.encoding.encode text = .ok body ∧ format.body raw = body := by
    cases hlength : format.length with
    | counted count => exact absurd hlength (hcounted count)
    | terminated =>
      obtain ⟨body, hbody, rfl⟩ := encode_terminated hlength h
      refine ⟨body, hbody, ?_⟩
      rw [TextFormat.body, hlength, List.length_append, List.length_replicate, Nat.add_sub_cancel]
      exact List.take_left' rfl
    | «prefixed» length =>
      obtain ⟨front, body, hbody, rfl, hfront, -⟩ := encode_prefixed hlength h
      refine ⟨body, hbody, ?_⟩
      rw [TextFormat.body, hlength]
      exact List.drop_left' hfront
  obtain ⟨body, hencode, hsame⟩ := hbody
  rw [decode, hsame]
  exact Encoding.decode_of_encode hencode

/-- A text that is not stored is refused. -/
theorem value_of_encode (hcounted : ∀ count, format.length ≠ .counted count) {error : Error}
    (h : format.encode text = .error error) : ∃ fault, error = .value fault := by
  rw [encode] at h
  cases hbody : format.encoding.encode text with
  | error e =>
    obtain ⟨hascii, -⟩ := Encoding.encode_error_iff.1 ⟨e, hbody⟩
    rw [hbody] at h
    cases h
    rw [hascii, Encoding.encode] at hbody
    split at hbody <;> cases hbody
    exact ⟨_, rfl⟩
  | ok body =>
    rw [hbody] at h
    dsimp only at h
    cases hlength : format.length with
    | counted count => exact absurd hlength (hcounted count)
    | terminated =>
      rw [hlength] at h
      cases h
    | «prefixed» length =>
      rw [hlength] at h
      dsimp only at h
      split at h
      · cases h
      · rename_i hfront
        cases h
        exact Codec.value_of_writeNat hfront

end TextFormat

/-! ## Reading -/

namespace LoadM

/-- A text is read up to its end. -/
theorem gives_readText {format : TextFormat} {text : String} {raw : Bytes}
    (hcounted : ∀ count, format.length ≠ .counted count) (hencode : format.encode text = .ok raw)
    (hzero : format.length = .terminated → '\x00' ∉ text.toList) {limit : Nat}
    (hlimit : format.length = .terminated → (format.encoding.codeUnits text).length < limit) {offset : Nat}
    (hend : offset + raw.length < pow2 64) {s : LoadState κ} (hs : s.view.Gives offset raw) :
    Ends (readText format limit offset) s fun result _ => result = .ok raw := by
  have hunit := unit_pos format.encoding
  rw [readText]
  cases hlength : format.length with
  | counted count => exact absurd hlength (hcounted count)
  | terminated =>
    obtain ⟨body, hbody, rfl⟩ := format.encode_terminated hlength hencode
    have hunits := Encoding.nonzeroUnits_codeUnits hbody (hzero hlength)
    have hne : body ++ List.replicate format.encoding.unit 0 ≠ [] := fun hnil => by
      have hzeros := congrArg List.length (List.append_eq_nil_iff.1 hnil).2
      rw [List.length_replicate] at hzeros
      exact absurd hzeros (Nat.ne_of_gt hunit)
    have hbudget := Nat.lt_of_lt_of_le (hlimit hlength) (Nat.le_max_left limit 1)
    rw [← Encoding.flatten_codeUnits hbody] at hne hs ⊢
    dsimp only
    refine (ends_seekTo offset _ s).bind fun result t ht => ?_
    obtain ⟨hkept, hmoved, hstands⟩ := ht
    obtain rfl := hmoved.2 (hs.moved hne 0 (Nat.zero_le _))
    exact gives_readUnits hunit limit hunits hbudget [] (hstands rfl) (hs.of_rewound hkept)
  | «prefixed» length =>
    obtain ⟨front, body, hbody, rfl, hfront, hcount⟩ := format.encode_prefixed hlength hencode
    have hbytes : (format.encoding.codeUnits text).length * format.encoding.unit = body.length := by
      rw [← Encoding.length_flatten_codeUnits, Encoding.flatten_codeUnits hbody]
    -- The bytes end within the address space, so their number and the count are offsets too.
    have hle := Nat.le_mul_of_pos_right (format.encoding.codeUnits text).length hunit
    rw [List.length_append] at hend
    have hspan : spanEnd offset length.width = .ok (offset + front.length) := by
      rw [spanEnd, hfront, if_pos (by omega)]
    have hamount : unitBytes (format.encoding.codeUnits text).length format.encoding.unit
        = .ok body.length := by
      rw [unitBytes, hbytes, word?, if_pos (by omega)]
    dsimp only
    refine (gives_readAt hs.front hfront).bind fun result t ht => ?_
    obtain ⟨rfl, hkept⟩ := ht
    dsimp only
    rw [hcount, if_neg (by omega), hspan, hamount]
    dsimp only
    refine (gives_readAt (hs.rest.of_rewound hkept) rfl).bind fun result u hu => Ends.pure ?_
    rw [hu.1]
    rfl

end LoadM

variable {format : TextFormat} {text : String} {raw : Bytes}

/-- A stored text is loaded from its bytes, and it decodes. -/
theorem ends_load_text (hcounted : ∀ count, format.length ≠ .counted count)
    (hencode : format.encode text = .ok raw) (hzero : format.length = .terminated → '\x00' ∉ text.toList)
    {env : Env κ} (hlimit : format.length = .terminated →
      (format.encoding.codeUnits text).length < env.config.maxElements) {offset : Nat}
    (hend : offset + raw.length < pow2 64) (id : Nat) (name : String) {s : LoadState κ}
    (hs : s.view.Gives offset raw) :
    Ends (load env Layout.nestingLimit [] (.blank id name (.bytes (.text format)) offset)) s fun out _ =>
      out.error? = none ∧ Atom.Holds (.raw raw) (.blank id name (.bytes (.text format)) offset) out.atom := by
  have hdecode := format.decode_of_encode hcounted hencode
  have hwarning (path : Path) : (Layout.text (κ := κ) format).warning? path raw = none := by
    rw [Layout.warning?, hdecode]
  have hlimit' : Layout.nestingLimit = 999999 + 1 := rfl
  rw [hlimit', load]
  refine Ends.via (fun a t => a = Atom.blank id name (.bytes (.text format)) offset ∧ t.view = s.view)
    ⟨rfl, rfl⟩ fun a t ht => ?_
  obtain ⟨rfl, hview⟩ := ht
  rw [← hview] at hs
  dsimp only
  rw [loadLeaf]
  refine Ends.bind (LoadM.gives_readText hcounted hencode hzero hlimit hend hs) fun result u hu => ?_
  subst hu
  dsimp only
  rw [hwarning]
  exact ⟨rfl, rfl, rfl, rfl, rfl, rfl⟩

/-- The value of a text. -/
theorem Atom.Holds.valueAt_text {a b : Atom κ} (h : Holds (.raw raw) a b)
    (hlayout : a.info.layout = .bytes (.text format)) (hnull : a.info.null = false)
    (hdecode : format.decode raw = .ok text) (path : Path) : b.valueAt path = .ok (.text text) := by
  obtain ⟨info, content, parts⟩ := b
  have hinfo : info.layout = .bytes (.text format) := h.layout.trans hlayout
  have hnull : info.null = false := h.null.trans hnull
  have hcontent : content = .raw raw := h.content
  rw [valueAt.eq_def]
  dsimp only
  rw [readable, hnull, hinfo, hcontent]
  dsimp only [scalarAt, rawAt, Layout.decode]
  rw [hdecode]
  rfl

/-! ## Documents -/

open Atom

namespace Document

variable {d t : Document κ} {p : Place κ}

/-- A stored text is loaded from its bytes wherever they stand and whatever follows them. -/
theorem loads_text (hcounted : ∀ count, format.length ≠ .counted count)
    (hencode : format.encode text = .ok raw) (hzero : format.length = .terminated → '\x00' ∉ text.toList)
    (e : Document κ) (hlimit : format.length = .terminated →
      (format.encoding.codeUnits text).length < e.env.config.maxElements) {offset : Nat}
    (hend : offset + raw.length < pow2 64) (name : String) {rest : Bytes}
    (hgives : View.Gives (.source e.source, e.sources) offset (raw ++ rest)) :
    ∃ id u q, (loadNew (.text format) name offset).run e = (.ok id, u) ∧ u.find? id = some q
      ∧ q.value = .ok (.text text) ∧ ∀ order, q.serialize order = raw := by
  have hload : Ends (load e.env Layout.nestingLimit [] (e.next (.text format) name offset)) e.loadingNext
      fun out _ => out.error? = none ∧ Holds (.raw raw) (e.next (.text format) name offset) out.atom :=
    ends_load_text hcounted hencode hzero hlimit hend _ name hgives.front
  obtain ⟨id, u, hrun, out, s, others, hout, -, rfl, hroots, -⟩ :=
    (yields_loadNew_next e (.text format) name offset).succeeds fun error v ⟨out, s, hout, herror⟩ => by
      rw [Ends, hout] at hload
      exact herror hload.1
  rw [Ends, hout] at hload
  refine ⟨_, u, ⟨out.atom, []⟩, hrun, find?_of_roots hroots, ?_, fun order => ?_⟩
  · exact hload.2.valueAt_text rfl rfl (format.decode_of_encode hcounted hencode) _
  · exact (hload.2.serialize_raw rfl _).trans (List.append_nil raw)

/-- A text that an assignment has taken is the value of the atom from then on. Its bytes are loaded again as a
text of the same format, from wherever they stand, if they stand there whole and within the address space. What
is loaded has these bytes and no more, whatever follows them, and the same value. A text that a zero unit ends
must not have one, and it must have fewer code units than the limit. -/
theorem Reachable.reload_text (hd : d.Reachable) (hp : p ∈ d.places)
    (hlayout : p.atom.info.layout = .bytes (.text format)) (hcounted : ∀ count, format.length ≠ .counted count)
    (hzero : format.length = .terminated → '\x00' ∉ text.toList)
    (hrun : (assign p.atom.info.id (.text text)).run d = (.ok (), t)) :
    ∃ q raw, t.find? p.atom.info.id = some q ∧ q.value = .ok (.text text)
      ∧ (∀ order, q.serialize order = raw ++ p.atom.keptTail)
      ∧ ∀ (e : Document κ) (name : String) (offset : Nat) (rest : Bytes),
        (format.length = .terminated → (format.encoding.codeUnits text).length < e.env.config.maxElements) →
        offset + raw.length < pow2 64 → View.Gives (.source e.source, e.sources) offset (raw ++ rest) →
        ∃ id u b, (loadNew (.text format) name offset).run e = (.ok id, u) ∧ u.find? id = some b
          ∧ b.value = .ok (.text text) ∧ ∀ order, b.serialize order = raw := by
  have hnull : p.atom.info.null = false := by
    refine Bool.eq_false_iff.2 fun hnull => ?_
    have hfailed := hd.balanced.assign_null hp hnull (.text text)
    cases (congrArg Prod.fst (hfailed.symm.trans hrun) :)
  have hencodes : p.atom.info.layout.Encodes (.text text) ((format.encode text).map .raw) :=
    hlayout ▸ .bytes (Layout.isScalar_text hcounted)
  obtain ⟨r, t', hrun', hsettles⟩ := hd.balanced.assign_scalar hp hencodes hnull
  cases hrun'.symm.trans hrun
  cases hencode : format.encode text with
  | error error =>
    obtain ⟨fault, rfl⟩ := format.value_of_encode hcounted hencode
    rw [hencode] at hsettles
    cases (hsettles.refuses fault rfl).result
  | ok raw =>
    rw [hencode] at hsettles
    obtain ⟨q, hq⟩ := hsettles.stores _ rfl
    refine ⟨q, raw, hq.found, ?_, fun order => hq.holds.serialize_raw hlayout _, ?_⟩
    · exact hq.holds.valueAt_text hlayout hnull (format.decode_of_encode hcounted hencode) _
    · exact fun e name offset rest hlimit hend hgives =>
        loads_text hcounted hencode hzero e hlimit hend name hgives

/-- Texts of 16-bit units that a zero unit ends. -/
def wideText : TextFormat := ⟨.utf16 .little, .terminated⟩

/-- A document with one text, which is empty. -/
def emptyText (format : TextFormat) : Document Empty :=
  ((Operation.allocateNew (.text format) "s").run.run (overBytes #[])).2

def wideTextPlace : Place Empty :=
  ⟨.node { id := 0, name := "s", layout := .bytes (.text wideText), offset := 0, initialized := true }
    (.raw [0, 0]) [], []⟩

/-- A text with zero bytes, of which two stand side by side before its end, loaded from between other bytes. -/
theorem reload_text_of_wide :
    (emptyText wideText).Reachable ∧ wideTextPlace ∈ (emptyText wideText).places ∧ '\x00' ∉ "a\u0100😀".toList
      ∧ ∃ t q, (assign 0 (.text "a\u0100😀")).run (emptyText wideText) = (.ok (), t) ∧ t.find? 0 = some q
        ∧ q.serialize .big = [0x61, 0, 0, 1, 0x3D, 0xD8, 0, 0xDE, 0, 0]
        ∧ ∃ id u b, (loadNew (.text wideText) "s" 1).run
            (overBytes #[0xFF, 0x61, 0, 0, 1, 0x3D, 0xD8, 0, 0xDE, 0, 0, 0xFF]) = (.ok id, u)
          ∧ u.find? id = some b ∧ b.value = .ok (.text "a\u0100😀")
          ∧ ∀ order, b.serialize order = [0x61, 0, 0, 1, 0x3D, 0xD8, 0, 0xDE, 0, 0] := by
  have hd : (emptyText wideText).Reachable := .step (.allocateNew (.text wideText) "s") (.empty _ _ _) nofun
  have hp : wideTextPlace ∈ (emptyText wideText).places := List.mem_of_getElem? (i := 0) rfl
  have hzero : '\x00' ∉ "a\u0100😀".toList := by decide +kernel
  have hok : ((assign 0 (.text "a\u0100😀")).run (emptyText wideText)).1.toOption = some () := by decide +kernel
  have hbytes : (((assign 0 (.text "a\u0100😀")).run (emptyText wideText)).2.find? 0).map
      (fun q => q.serialize .big) = some [0x61, 0, 0, 1, 0x3D, 0xD8, 0, 0xDE, 0, 0] := by decide +kernel
  obtain ⟨q, raw, hfound, -, hserialize, hload⟩ :=
    hd.reload_text hp rfl (fun _ h => nomatch h) (fun _ => hzero) (run_of_toOption hok)
  have hfound : ((assign 0 (.text "a\u0100😀")).run (emptyText wideText)).2.find? 0 = some q := hfound
  rw [hfound, Option.map_some, Option.some_inj] at hbytes
  obtain rfl : raw = [0x61, 0, 0, 1, 0x3D, 0xD8, 0, 0xDE, 0, 0] :=
    ((List.append_nil raw).symm.trans (hserialize .big).symm).trans hbytes
  have hgives : View.Gives (.source 0, [.memory #[0xFF, 0x61, 0, 0, 1, 0x3D, 0xD8, 0, 0xDE, 0, 0, 0xFF] false 0]) 1
      [0x61, 0, 0, 1, 0x3D, 0xD8, 0, 0xDE, 0, 0, 0xFF] := View.gives_memory rfl (List.prefix_refl _)
  exact ⟨hd, hp, hzero, _, q, run_of_toOption hok, hfound, hbytes,
    hload (overBytes _) "s" 1 [0xFF] (fun _ => by decide +kernel) (by decide) hgives⟩

/-- A text with a zero character is taken, and what is loaded from its bytes ends there. -/
theorem reload_text_ne_of_zero :
    let stored := (assign 0 (.text "a\x00b")).run (emptyText ⟨.ascii, .terminated⟩)
    let loaded := ((loadNew (.text ⟨.ascii, .terminated⟩) "s" 0).run (overBytes #[0x61, 0, 0x62, 0])).2
    stored.1.toOption = some ()
      ∧ (stored.2.find? 0).map (fun q => q.serialize .big) = some [0x61, 0, 0x62, 0]
      ∧ (loaded.find? 0).map (fun q => q.serialize .big) = some [0x61, 0]
      ∧ ((loaded.find? 0).bind fun q => q.value.toOption.bind Value.text?) = some "a" := by
  decide +kernel

end Document

end BinaryLayout
