import BinaryLayout.Proofs.Exact.Bits
import BinaryLayout.Proofs.Exact.Edit
import BinaryLayout.Proofs.Resize.Document

/-!
# Integers of a document

A number that is assigned to an integer of a document is refused exactly when it is out of range, and then
the integer stays as it was. A number in range is there afterwards, and it is the value of the integer from
then on. The assignment may fail all the same, if something around the integer cannot follow the change:
this does not take the number back. If nothing depends on the integer, it succeeds.

## Main definitions

* `Document.Refuses`, `Document.Stores`: what an assignment leaves of a scalar.

## Main statements

* `Document.Reachable.assign_int`: integers of bytes.
* `Document.Reachable.assign_bits`: integers of bits.
-/

namespace BinaryLayout

variable {κ : Type}

open Atom

namespace Atom

variable {a b : Atom κ} {content : Content}

/-- An atom that was moved holds the same. -/
theorem Holds.of_unplaced (h : Holds content a b) {c : Atom κ} (hc : c.unplaced = b.unplaced) :
    Holds content a c := by
  have hinfo := congrArg Atom.info hc
  rw [info_unplaced, info_unplaced] at hinfo
  refine ⟨(congrArg Info.layout hinfo :).trans h.layout, (congrArg Info.null hinfo :).trans h.null,
    (congrArg Info.tail hinfo :).trans h.tail, ?_, ?_⟩
  · rw [← content_unplaced, hc, content_unplaced, h.content]
  · have hparts := congrArg Atom.parts hc
    rwa [parts_unplaced, parts_unplaced, h.parts, List.map_nil, List.map_eq_nil_iff] at hparts

/-- The value of an integer of bytes. -/
theorem Holds.valueAt_raw {format : IntFormat} {raw : Bytes} (h : Holds (.raw raw) a b)
    (hlayout : a.info.layout = .bytes (.int format)) (hnull : a.info.null = false) (path : Path) :
    b.valueAt path = .ok (format.toValue raw) := by
  obtain ⟨info, content, parts⟩ := b
  have hinfo : info.layout = .bytes (.int format) := h.layout.trans hlayout
  have hnull : info.null = false := h.null.trans hnull
  have hcontent : content = .raw raw := h.content
  rw [valueAt.eq_def]
  dsimp only
  rw [readable, hnull, hinfo, hcontent]
  rfl

/-- The value of an integer of bits. -/
theorem Holds.valueAt_bits {width : Nat} {signed : Bool} {value : Bitmap} (h : Holds (.bits value) a b)
    (hlayout : a.info.layout = .bits (.int width signed)) (hnull : a.info.null = false) (path : Path) :
    b.valueAt path = .ok value.toValue := by
  obtain ⟨info, content, parts⟩ := b
  have hinfo : info.layout = .bits (.int width signed) := h.layout.trans hlayout
  have hnull : info.null = false := h.null.trans hnull
  have hcontent : content = .bits value := h.content
  rw [valueAt.eq_def]
  dsimp only
  rw [readable, hnull, hinfo, hcontent]
  rfl

/-- The bytes of a scalar of bytes. -/
theorem Holds.serialize_raw {layout : Layout κ} {raw : Bytes} (h : Holds (.raw raw) a b)
    (hlayout : a.info.layout = .bytes layout) (order : ByteOrder) : b.serialize order = raw ++ a.keptTail := by
  obtain ⟨info, content, parts⟩ := b
  have hinfo : info.layout = .bytes layout := h.layout.trans hlayout
  have hcontent : content = .raw raw := h.content
  have htail : info.tail = a.keptTail := h.tail
  subst hcontent
  rw [serialize, hinfo, htail]
  rfl

end Atom

namespace EditM

variable {env : Env κ} {s : Workplace κ} {v : Value} {result : Except Error Content}

/-- How an assignment to a scalar ends: the value was refused, or the atom has it, and the assignment ends like
what follows. -/
inductive Assigned (env : Env κ) (s : Workplace κ) :
    Except Error Content → Except Error Unit → Workplace κ → Prop
  | refused {e : Error} {t : Workplace κ} (h : Prepared s t) : Assigned env s (.error e) (.error e) t
  | stored {content : Content} {r : Except Error Unit} {t : Workplace κ}
    (hrun : (afterChange env).run (s.taking content) = (r, t)) : Assigned env s (.ok content) r t

theorem assigned_setValue (hlayout : s.place.atom.info.layout.Encodes v result)
    (hparts : s.place.atom.parts = []) (hnull : s.place.atom.info.null = false) :
    Yields (setValue env v) s (fun _ t => Assigned env s result (.ok ()) t)
      fun e t => Assigned env s result (.error e) t := by
  refine yields_setValue_scalar hlayout hparts hnull (fun e t he ht => ?_) fun content hcontent => ?_
  · subst he
    exact .refused ht
  · subst hcontent
    exact (Yields.itself _ _).mono (fun _ _ ht => .stored ht) fun _ _ ht => .stored ht

/-- An atom that took a value has it in the end, and has succeeded if what surrounds it could follow. -/
theorem Assigned.taken {content : Content} {r : Except Error Unit} {t : Workplace κ}
    (h : Assigned env s (.ok content) r t) : t.place.atom.unplaced = (s.place.atom.taking content).unplaced
      ∧ (r = .ok () ↔ Follows env (s.taking content))
      ∧ (Frame.Unaffected s.place.frames → r = .ok ()) := by
  cases h with
  | stored hrun =>
    have hmoved := (unplaced_afterChange env (s.taking content)).of_run
    rw [hrun] at hmoved
    refine ⟨hmoved, ⟨fun hr => ⟨t, hr ▸ hrun⟩, fun ⟨u, hu⟩ => ?_⟩, fun hframes => ?_⟩
    · exact (congrArg Prod.fst (hrun.symm.trans hu) :)
    · have hafter := succeeds_afterChange env (s := s.taking content) hframes
      obtain ⟨_, u, hu, -⟩ := hafter.succeeds fun _ _ h => h
      exact (congrArg Prod.fst (hrun.symm.trans hu) :)

end EditM

namespace Document

variable {d t : Document κ} {p q : Place κ} {r : Except Error Unit}

/-- A value was refused, and nothing has changed, unless the atom had no content. -/
structure Refuses (d t : Document κ) (r : Except Error Unit) (p : Place κ) (fault : ValueFault) : Prop where
  result : r = .error (.located p.path (.value fault))
  same : p.atom.content ≠ .empty → t = d

/-- The atom of a place has other content from now on, wherever it has moved. The operation succeeded if and
only if what surrounds the atom can follow, and always if nothing there depends on it. -/
structure Stores (d t : Document κ) (r : Except Error Unit) (p q : Place κ) (content : Content) : Prop where
  found : t.find? p.atom.info.id = some q
  taken : q.atom.unplaced = (p.atom.taking content).unplaced
  follows : r = .ok () ↔ EditM.Follows d.env (Workplace.taking content ⟨d.ledger, p⟩)
  unaffected : Frame.Unaffected p.frames → r = .ok ()

theorem Stores.holds {content : Content} (h : d.Stores t r p q content) : Holds content p.atom q.atom :=
  (holds_taking content p.atom).of_unplaced h.taken

/-- What an assignment to a scalar leaves, whether it failed or not. -/
structure Settles (d t : Document κ) (p : Place κ) (result : Except Error Content) (r : Except Error Unit) :
    Prop where
  refuses : ∀ fault, result = .error (.value fault) → d.Refuses t r p fault
  stores : ∀ content, result = .ok content → ∃ q, d.Stores t r p q content

/-- A place that did not change is put back. -/
theorem Balanced.put_unchanged (hd : d.Balanced) (hp : p ∈ d.places) : d.put p = d := by
  obtain ⟨before, after, hroots, hput, -⟩ :=
    hd.put (mem_places.1 hp) (m := d.ledger) rfl (hd.shaped_place hp) fun _ => rfl
  exact hput.trans (by rw [← hroots])

/-- The changed place is put back. -/
theorem Balanced.settles_put (hd : d.Balanced) (hp : p ∈ d.places) {result : Except Error Content}
    {s : Workplace κ} (h : EditM.Assigned d.env ⟨d.ledger, p⟩ result r s) (hc : Conserves ⟨d.ledger, p⟩ s) :
    d.Settles ({ d with ledger := s.ledger }.put s.place) p result (r.mapError (Error.within p.path)) := by
  have hfind := hd.find?_put hp (q := s.place) hc.accounts
  have hid : s.place.atom.info.id = p.atom.info.id := congrArg Prod.fst hc.face
  rw [hid] at hfind
  refine ⟨fun fault hfault => ?_, fun content hcontent => ?_⟩
  · subst hfault
    cases h with
    | refused hprepared =>
      refine ⟨?_, fun hfull => ?_⟩
      · show Except.error (Error.located (p.path ++ []) _) = _
        rw [List.append_nil]
      · rw [hprepared.same hfull]
        exact hd.put_unchanged hp
  · subst hcontent
    obtain ⟨htaken, hfollows, hunaffected⟩ := h.taken
    have hok : r.mapError (Error.within p.path) = .ok () ↔ r = .ok () := by
      cases r with
      | ok a => exact ⟨fun _ => rfl, fun _ => rfl⟩
      | error e => exact ⟨fun h => (nomatch h), fun h => (nomatch h)⟩
    exact ⟨s.place, hfind, htaken, hok.trans hfollows, fun hframes => hok.2 (hunaffected hframes)⟩

/-- What a null pointer refers to takes no value. -/
theorem Balanced.assign_null (hd : d.Balanced) (hp : p ∈ d.places) (hnull : p.atom.info.null = true)
    (v : Value) :
    (assign p.atom.info.id v).run d = (.error (.located p.path .nullDereference), d) := by
  have hassign : Yields (assign p.atom.info.id v) d (fun _ _ => False)
      fun e t => e = .located p.path .nullDereference ∧ t = d := by
    refine DocumentM.yields_got (yields_edit (live_of_mem hp) fun p' hp' _ hid => ?_)
    obtain rfl := hd.eq_of_id hp' hp hid
    refine (EditM.yields_setValue_null d.env v hnull).mono (fun _ _ h => h) fun e s hs => ?_
    obtain ⟨rfl, rfl⟩ := hs
    refine ⟨?_, hd.put_unchanged hp⟩
    show Error.located (p'.path ++ []) _ = _
    rw [List.append_nil]
  obtain ⟨e, t, hrun, rfl, rfl⟩ := hassign.fails fun _ _ h => h
  exact hrun

/-- A value that is assigned to a scalar is refused or stored. -/
theorem Balanced.assign_scalar (hd : d.Balanced) (hp : p ∈ d.places) {v : Value}
    {result : Except Error Content} (hlayout : p.atom.info.layout.Encodes v result)
    (hnull : p.atom.info.null = false) :
    ∃ r t, (assign p.atom.info.id v).run d = (r, t) ∧ d.Settles t p result r := by
  have hassign : Yields (assign p.atom.info.id v) d (fun _ t => d.Settles t p result (.ok ()))
      fun e t => d.Settles t p result (.error e) := by
    refine DocumentM.yields_got (yields_edit (live_of_mem hp) fun p' hp' _ hid => ?_)
    obtain rfl := hd.eq_of_id hp' hp hid
    have hparts := (Everywhere.of_assemble (hd.shaped_place hp)).here.parts_of_encodes hlayout
    have hassigned : Yields (EditM.setValue d.env v) ⟨d.ledger, p'⟩ _ _ :=
      EditM.assigned_setValue hlayout hparts hnull
    have hkeeps := EditM.keeps_setValue d.env v (s := ⟨d.ledger, p'⟩) (hd.shaped_place hp)
    exact (hassigned.and hkeeps).mono (fun _ s hs => hd.settles_put hp hs.1 hs.2)
      fun e s hs => hd.settles_put hp hs.1 hs.2
  exact ⟨_, _, rfl, hassign.result (P := fun r t => d.Settles t p result r)⟩

/-! ## Integers of bytes -/

/-- Integers of bytes are exact codecs. What a null pointer refers to takes no value, and it stays as it is.
Any other integer refuses a number exactly when it is not in the range of the format. Every other number is
the value of the integer from then on, its bytes are the digits of the number in the order of the format, and
the bytes after its content, which a forced extent adds, stay. The assignment succeeds if what surrounds the
integer can follow the change, and always if nothing there depends on the integer. The value that bytes of
the width stand for gives these bytes back. -/
theorem Reachable.assign_int (hd : d.Reachable) (hp : p ∈ d.places) {format : IntFormat}
    (hlayout : p.atom.info.layout = .bytes (.int format)) :
    (p.atom.info.null = true → ∀ v, (assign p.atom.info.id v).run d
        = (.error (.located p.path .nullDereference), d))
      ∧ (p.atom.info.null = false → ∀ v n, v.number? = some n →
        ∃ r t, (assign p.atom.info.id v).run d = (r, t)
          ∧ (¬ Codec.InRange format.signed format.width n → ∃ fault, d.Refuses t r p fault)
          ∧ (Codec.InRange format.signed format.width n → ∃ raw q, d.Stores t r p q (.raw raw)
            ∧ Codec.Positional format.order format.width n raw
            ∧ (∃ w, q.value = .ok w ∧ w.number? = some n)
            ∧ ∀ order, q.serialize order = raw ++ p.atom.keptTail))
      ∧ (p.atom.info.null = false → ∀ raw, raw.length = format.width →
        ∃ r t, (assign p.atom.info.id (format.toValue raw)).run d = (r, t)
          ∧ ∃ q, d.Stores t r p q (.raw raw) ∧ q.value = .ok (format.toValue raw)
            ∧ ∀ order, q.serialize order = raw ++ p.atom.keptTail) := by
  have hencodes (v : Value) :
      p.atom.info.layout.Encodes v (((Layout.int (κ := κ) format).encode v).map .raw) :=
    hlayout ▸ .bytes (Layout.isScalar_int format)
  refine ⟨hd.balanced.assign_null hp, fun hnull v n hv => ?_, fun hnull raw hraw => ?_⟩
  · obtain ⟨r, t, hrun, hsettles⟩ := hd.balanced.assign_scalar hp (hencodes v) hnull
    rw [Layout.encode_int format hv] at hsettles
    refine ⟨r, t, hrun, fun hrange => ?_, fun hrange => ?_⟩
    · obtain ⟨fault, hfault⟩ := format.encode_of_not_range hv hrange
      rw [hfault] at hsettles
      exact ⟨fault, hsettles.refuses fault rfl⟩
    · rw [format.encode_of_range hv hrange] at hsettles
      obtain ⟨q, hq⟩ := hsettles.stores _ rfl
      have hvalue := hq.holds.valueAt_raw hlayout hnull q.path
      exact ⟨_, q, hq, Codec.positional_wrapInt .., ⟨_, hvalue, format.number?_toValue_wrapInt hrange⟩,
        fun order => hq.holds.serialize_raw hlayout _⟩
  · obtain ⟨r, t, hrun, hsettles⟩ := hd.balanced.assign_scalar hp (hencodes (format.toValue raw)) hnull
    have hnumber : ∃ n, (format.toValue raw).number? = some n := by
      rw [IntFormat.toValue]
      split <;> exact ⟨_, rfl⟩
    obtain ⟨n, hn⟩ := hnumber
    rw [Layout.encode_int format hn, format.encode_toValue hraw] at hsettles
    obtain ⟨q, hq⟩ := hsettles.stores _ rfl
    exact ⟨r, t, hrun, q, hq, hq.holds.valueAt_raw hlayout hnull q.path,
      fun order => hq.holds.serialize_raw hlayout _⟩

def octets : IntFormat := { width := 16, signed := false, order := .little }

/-- A document with one such integer, which is zero. -/
def zeroOctets : Document Empty := ((Operation.allocateNew (.int octets) "n").run.run (overBytes #[])).2

def octetsPlace : Place Empty :=
  ⟨.node { id := 0, name := "n", layout := .bytes (.int octets), offset := 0, initialized := true }
    (.raw (List.replicate 16 0)) [], []⟩

/-- A number from `2 ^ 127` on is given to the integer. -/
theorem assign_int_of_octets :
    zeroOctets.Reachable ∧ octetsPlace ∈ zeroOctets.places
      ∧ ∃ t raw q, (assign 0 (.unsigned (pow2 127 + 1))).run zeroOctets = (.ok (), t)
        ∧ t.find? 0 = some q ∧ Codec.Positional .little 16 (pow2 127 + 1) raw
        ∧ (∃ w, q.value = .ok w ∧ w.number? = some (pow2 127 + 1)) ∧ ∀ order, q.serialize order = raw := by
  have hd : zeroOctets.Reachable := .step (.allocateNew (.int octets) "n") (.empty _ _ _) nofun
  have hp : octetsPlace ∈ zeroOctets.places := List.mem_of_getElem? (i := 0) rfl
  have hrange : Codec.InRange octets.signed octets.width (pow2 127 + 1) := by decide +kernel
  obtain ⟨r, t, hrun, -, hstores⟩ := (hd.assign_int hp rfl).2.1 rfl (.unsigned (pow2 127 + 1)) _ rfl
  obtain ⟨raw, q, hq, hdigits, hvalue, hbytes⟩ := hstores hrange
  have hok : r = .ok () := hq.unaffected trivial
  subst hok
  refine ⟨hd, hp, t, raw, q, hrun, hq.found, hdigits, hvalue, fun order => ?_⟩
  exact (hbytes order).trans (List.append_nil raw)

/-! ## A number that a later field has no case for -/

namespace TiedNumber

/-- A field takes two bytes, and the layout of another one goes by a number that must be zero. -/
def rules : Rules Unit where
  layout _ scope := do
    let n ← scope.uint "n"
    if n = 0 then
      return .int .u8
    else
      throw (.value (.noCase n))
  bitLayout _ _ := .ok (.int 1 false)
  extent _ _ := .ok 2
  update _ _ := .ok (.unsigned 0)
  accepts _ _ _ _ := true
  distance _ n := n
  toAddress _ _ _ := .ok 0
  ofAddress _ _ _ := .ok 0

def empty : Document Unit where
  env := ⟨{}, rules⟩
  sources := [.memory #[0, 0, 0] false 0]
  source := 0

/-- A number that takes two bytes, and a field whose layout goes by it. -/
def record : Document Unit :=
  ((Operation.loadNew
    (.record "R" [⟨"n", .given (.int .u8), some (), none⟩, ⟨"x", .computed (), none, none⟩])
    "r" 0).run.run empty).2

/-- What a null pointer refers to. -/
def referent : Document Unit :=
  ((Operation.dereference 0).run.run
    ((Operation.loadNew (.pointer .u8 (.int .u8) .absolute) "p" 0).run.run empty).2).2

/-- One is a number of a byte. Where a later field cannot follow it is stored and still refused, and the
number has two bytes because it takes two; and what a null pointer refers to takes no number. -/
theorem assign_int_ne_of_surroundings :
    ¬ ((∃ t, (assign 1 (.unsigned 1)).run record = (.ok (), t)) ↔ Codec.InRange false 1 1)
      ∧ ¬ (∃ q, ((assign 1 (.unsigned 1)).run record).2.find? 1 = some q ∧ (q.serialize .big).length = 1)
      ∧ ¬ ((∃ t, (assign 1 (.unsigned 1)).run referent = (.ok (), t)) ↔ Codec.InRange false 1 1) := by
  have hrange : Codec.InRange false 1 1 := by decide
  have hrecord : ((assign 1 (.unsigned 1)).run record).1.toOption = none := by decide +kernel
  have hreferent : ((assign 1 (.unsigned 1)).run referent).1.toOption = none := by decide +kernel
  have hlength : (((assign 1 (.unsigned 1)).run record).2.find? 1).map
      (fun q => (q.serialize .big).length) = some 2 := by decide +kernel
  refine ⟨fun h => ?_, fun ⟨q, hq, hone⟩ => ?_, fun h => ?_⟩
  · obtain ⟨t, ht⟩ := h.2 hrange
    rw [ht] at hrecord
    cases hrecord
  · rw [hq, Option.map_some, hone] at hlength
    exact absurd hlength (by decide)
  · obtain ⟨t, ht⟩ := h.2 hrange
    rw [ht] at hreferent
    cases hreferent

end TiedNumber

/-! ## Integers of bits -/

/-- Integers of bits take exactly the numbers that their bits hold, but for misjudged ones. A number that is
not in range is refused, and every other number is the value of the integer from then on. The assignment
succeeds if what surrounds the integer can follow the change, and always if nothing there depends on the
integer. One that a null pointer would refer to takes no value, as anything there. -/
theorem Reachable.assign_bits (hd : d.Reachable) (hp : p ∈ d.places) {width : Nat} {signed : Bool}
    (hlayout : p.atom.info.layout = .bits (.int width signed)) {v : Value} {n : Int}
    (hv : v.number? = some n) (hwide : v.IsWide) (hjudged : ¬ Bitmap.Misjudged signed width v n) :
    ∃ r t, (assign p.atom.info.id v).run d = (r, t)
      ∧ (p.atom.info.null = true → r = .error (.located p.path .nullDereference) ∧ t = d)
      ∧ (p.atom.info.null = false → ¬ Bitmap.InRange signed width n → ∃ fault, d.Refuses t r p fault)
      ∧ (p.atom.info.null = false → Bitmap.InRange signed width n → ∃ value q, d.Stores t r p q (.bits value)
        ∧ ∃ w, q.value = .ok w ∧ w.number? = some n) := by
  have hencodes : p.atom.info.layout.Encodes v ((encodeBits width signed v).map .bits) :=
    hlayout ▸ .bits width signed
  cases hnull : p.atom.info.null with
  | true =>
    exact ⟨_, _, hd.balanced.assign_null hp hnull v, fun _ => ⟨rfl, rfl⟩, fun h => (nomatch h),
      fun h => (nomatch h)⟩
  | false =>
    obtain ⟨r, t, hrun, hsettles⟩ := hd.balanced.assign_scalar hp hencodes hnull
    have ⟨htaken, hrefused⟩ := (encodeBits_exact_iff hv hwide width signed).2 hjudged
    refine ⟨r, t, hrun, fun h => (nomatch h), fun _ hrange => ?_, fun _ hrange => ?_⟩
    · obtain ⟨fault, hfault⟩ := hrefused hrange
      rw [hfault] at hsettles
      exact ⟨fault, hsettles.refuses fault rfl⟩
    · obtain ⟨value, hvalue, hnumber⟩ := htaken hrange
      rw [hvalue] at hsettles
      obtain ⟨q, hq⟩ := hsettles.stores _ rfl
      exact ⟨value, q, hq, _, hq.holds.valueAt_bits hlayout hnull q.path, hnumber⟩

/-- A document with one integer of bits, which is zero. -/
def zeroBits (width : Nat) (signed : Bool) : Document Empty :=
  ((Operation.allocateNew (.bits (.int width signed) .big) "h").run.run (overBytes #[])).2

def sevenBits : Place Empty :=
  ⟨.node { id := 1, name := "", layout := .bits (.int 7 true), offset := 0, initialized := true }
    (.bits (Bitmap.ofNat 0 7 true)) [],
    [⟨{ id := 0, name := "h", layout := .bytes (.bits (.int 7 true) .big), offset := 0, initialized := true },
      .host (Bitmap.ofNat 0 1 false), [], []⟩]⟩

/-- The lowest number of seven bits. -/
theorem assign_bits_of_seven :
    (zeroBits 7 true).Reachable ∧ sevenBits ∈ (zeroBits 7 true).places
      ∧ ∃ t q, (assign 1 (.signed (-64))).run (zeroBits 7 true) = (.ok (), t) ∧ t.find? 1 = some q
        ∧ ∃ w, q.value = .ok w ∧ w.number? = some (-64) := by
  have hd : (zeroBits 7 true).Reachable :=
    .step (.allocateNew (.bits (.int 7 true) .big) "h") (.empty _ _ _) nofun
  have hp : sevenBits ∈ (zeroBits 7 true).places := List.mem_of_getElem? (i := 1) rfl
  have hwide : (Value.signed (-64)).IsWide := by decide +kernel
  have hjudged : ¬ Bitmap.Misjudged true 7 (.signed (-64)) (-64) := by decide +kernel
  have hrange : Bitmap.InRange true 7 (-64) := by decide +kernel
  obtain ⟨r, t, hrun, -, -, hstores⟩ := hd.assign_bits hp rfl (v := .signed (-64)) rfl hwide hjudged
  obtain ⟨value, q, hq, hvalue⟩ := hstores rfl hrange
  have hhost : Frame.Unaffected sevenBits.frames :=
    .inr ⟨⟨fun _ h => (nomatch h), fun _ _ h => (nomatch h), fun _ _ h => (nomatch h)⟩, trivial⟩
  have hok : r = .ok () := hq.unaffected hhost
  subst hok
  exact ⟨hd, hp, t, q, hrun, hq.found, hvalue⟩

/-- The first number that 127 signed bits do not hold is taken, and another one is there. The widest field
without a sign takes a number that it holds, but as one signed bit. -/
theorem assign_bits_ne_of_wide :
    ¬ ((∃ t, (assign 1 (.unsigned (pow2 126))).run (zeroBits 127 true) = (.ok (), t))
        ↔ Bitmap.InRange true 127 (pow2 126))
      ∧ ((((assign 1 (.unsigned (pow2 126))).run (zeroBits 127 true)).2.find? 1).bind fun q =>
          q.value.toOption.bind Value.number?) = some (-(pow2 126 : Int))
      ∧ Bitmap.InRange false (pow2 32 - 1) 5
      ∧ ((assign 1 (.unsigned 5)).run (zeroBits (pow2 32 - 1) false)).1.toOption = some ()
      ∧ ((((assign 1 (.unsigned 5)).run (zeroBits (pow2 32 - 1) false)).2.find? 1).bind fun q =>
          q.value.toOption.bind Value.number?) = some (-1) := by
  have hrange : ¬ Bitmap.InRange true 127 (pow2 126) := by decide +kernel
  have hok : ((assign 1 (.unsigned (pow2 126))).run (zeroBits 127 true)).1.toOption = some () := by
    decide +kernel
  have hwidest : Bitmap.InRange false (pow2 32 - 1) 5 := by
    have hle : pow2 3 ≤ pow2 (pow2 32 - 1) := pow2_le_pow2 (by decide)
    have hthree : pow2 3 = 8 := rfl
    rw [Bitmap.InRange, if_neg Bool.false_ne_true]
    omega
  exact ⟨fun h => hrange (h.1 ⟨_, run_of_toOption hok⟩), by decide +kernel, hwidest, by decide +kernel,
    by decide +kernel⟩

end Document

end BinaryLayout
