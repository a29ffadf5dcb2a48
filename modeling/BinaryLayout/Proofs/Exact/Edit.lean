import BinaryLayout.Proofs.Resize.Offsets

/-!
# Assigning scalars

A scalar of bytes or an integer of bits has no parts, so a value that is assigned to it is encoded or refused.
If it is refused, nothing has changed, but for an atom that had no content so far. If it is encoded, the atom
has it from then on, whether or not what surrounds the atom can follow, and the assignment succeeds if and
only if that can.

## Main definitions

* `Layout.IsScalar`: the layouts of bytes without parts whose default content is there.
* `AtomLayout.Encodes`: what becomes of a value that is assigned to a scalar.
* `Atom.taking`: an atom that has taken other content.
* `Atom.Holds`: what is known of it wherever it moves.
* `EditM.Follows`: what surrounds an atom can follow a change to it.

## Main statements

* `EditM.yields_setValue_scalar`: a scalar that a value is assigned to.
* `EditM.yields_setValue_null`: what a null pointer refers to takes no value.
* `EditM.unplaced_afterChange`: what follows a change leaves the atom alone.
-/

namespace BinaryLayout

variable {κ : Type}

open Atom

/-- A layout without parts whose default content is there. A counted text may have too many characters to
have any. -/
structure Layout.IsScalar (layout : Layout κ) : Prop where
  leaf : layout.isLeaf = true
  uncounted : ∀ format count, layout = .text format → format.length ≠ .counted count

theorem Layout.isScalar_int (format : IntFormat) : (Layout.int (κ := κ) format).IsScalar :=
  ⟨rfl, fun _ _ h => nomatch h⟩

theorem Layout.isScalar_text {format : TextFormat} (h : ∀ count, format.length ≠ .counted count) :
    (Layout.text (κ := κ) format).IsScalar :=
  ⟨rfl, fun _ count hsame => by cases hsame; exact h count⟩

/-- A scalar has default bytes wherever it is. -/
theorem Layout.IsScalar.defaultBytes {layout : Layout κ} (h : layout.IsScalar) (config : Config)
    (frames : List (Frame κ)) (offset : Nat) : ∃ raw, layout.defaultBytes config frames offset = .ok raw := by
  cases layout with
  | text format =>
    rw [Layout.defaultBytes, TextFormat.defaultBytes]
    split
    · exact absurd ‹_› (h.uncounted format _ rfl)
    · exact ⟨_, rfl⟩
    · exact ⟨_, rfl⟩
  | record | array | union | pointer | bits => cases h.leaf
  | _ => exact ⟨_, rfl⟩

/-- What becomes of a value that is assigned to a scalar of bytes or to an integer of bits. -/
inductive AtomLayout.Encodes (v : Value) : AtomLayout κ → Except Error Content → Prop
  | bytes {layout : Layout κ} (h : layout.IsScalar) : Encodes v (.bytes layout) ((layout.encode v).map .raw)
  | bits (width : Nat) (signed : Bool) :
    Encodes v (.bits (.int width signed)) ((encodeBits width signed v).map .bits)

namespace Atom

/-- The bytes that stay after the content of an atom when it gets other content. -/
def keptTail (a : Atom κ) : Bytes := if a.content = .empty then [] else a.info.tail

/-- The atom that gets other content: it is cleared first, if it has none. -/
def retained (a : Atom κ) : Atom κ := if a.content = .empty then a.cleared else a

/-- The atom when it has taken other content. Only an atom of bits keeps the mark of an undecodable text. -/
def taking (content : Content) (a : Atom κ) : Atom κ :=
  ((a.retained.mapInfo fun info =>
    { info with undecodable := info.layout.isBits && info.undecodable }).fill content []).ready

/-- The atom with other content and without parts. -/
structure Holds (content : Content) (a b : Atom κ) : Prop where
  layout : b.info.layout = a.info.layout
  null : b.info.null = a.info.null
  tail : b.info.tail = a.keptTail
  content : b.content = content
  parts : b.parts = []

variable {a : Atom κ} {content : Content}

theorem retained_of_content (h : a.content ≠ .empty) : a.retained = a := if_neg h

theorem holds_taking (content : Content) (a : Atom κ) : Holds content a (a.taking content) := by
  by_cases hempty : a.content = .empty
  · rw [taking, retained, if_pos hempty]
    cases a
    exact ⟨rfl, rfl, (if_pos hempty).symm, rfl, rfl⟩
  · rw [taking, retained_of_content hempty]
    cases a
    exact ⟨rfl, rfl, (if_neg hempty).symm, rfl, rfl⟩

/-- An atom of bits that has content only gets another one. -/
theorem taking_of_bits (hold : a.content ≠ .empty) (hbits : a.isBits = true) :
    a.taking content = (a.fill content []).ready := by
  obtain ⟨info, old, parts⟩ := a
  have hbits : info.layout.isBits = true := hbits
  rw [taking, retained_of_content hold, mapInfo, hbits, Bool.true_and]

/-- An atom of bytes that has content gets another one, which may decode. -/
theorem taking_of_bytes (hold : a.content ≠ .empty) (hbits : a.isBits = false) : a.taking content
    = ((a.mapInfo fun info => { info with undecodable := false }).fill content []).ready := by
  obtain ⟨info, old, parts⟩ := a
  have hbits : info.layout.isBits = false := hbits
  rw [taking, retained_of_content hold, mapInfo, hbits, Bool.false_and, mapInfo]

/-- Default content makes no difference to an atom that gets other content. -/
theorem taking_default (hempty : a.content = .empty) {default : Content} (hdefault : default ≠ .empty) :
    ((a.cleared.fill default []).ready).taking content = a.taking content := by
  rw [taking, retained_of_content (by rwa [content_ready]), taking, retained, if_pos hempty]
  cases a
  rfl

/-- A scalar has no parts. -/
theorem Shaped.parts_of_encodes (h : a.Shaped) {v : Value} {result : Except Error Content}
    (hlayout : a.info.layout.Encodes v result) : a.parts = [] := by
  generalize hsame : a.info.layout = layout at hlayout
  cases hlayout with
  | bits width signed => exact h.parts_of_int hsame
  | @bytes layout hscalar =>
    have hadmits := h.admits
    have hholds := h.holds
    have hleaf := hscalar.leaf
    rw [hsame] at hadmits
    cases hcontent : a.content with
    | empty | raw =>
      rw [hcontent] at hholds
      exact hholds
    | bits | group | overlay | pointer | host =>
      rw [hcontent] at hadmits
      cases layout with
      | record | array | union | pointer | bits => cases hleaf
      | _ => exact absurd hadmits Bool.false_ne_true

end Atom

/-- The workplace when the atom has taken other content, before what surrounds it follows. -/
def Workplace.taking (content : Content) (s : Workplace κ) : Workplace κ :=
  ⟨s.ledger, ⟨s.place.atom.taking content, s.place.frames⟩⟩

namespace EditM

variable {env : Env κ} {s : Workplace κ} {v : Value}

/-- What surrounds the atom can follow a change to it. -/
def Follows (env : Env κ) (s : Workplace κ) : Prop := ∃ t, (afterChange env).run s = (.ok (), t)

/-- The workplace is ready for an assignment: only an atom without content has changed. -/
structure Prepared (s t : Workplace κ) : Prop where
  same : s.place.atom.content ≠ .empty → t = s
  layout : t.place.atom.info.layout = s.place.atom.info.layout
  content : t.place.atom.content ≠ .empty
  parts : t.place.atom.parts = []
  taking : ∀ content, t.taking content = s.taking content

/-- The default content of a scalar. -/
theorem ends_allocate_scalar {frames : List (Frame κ)} {a : Atom κ} {result : Except Error Content}
    (hlayout : a.info.layout.Encodes v result) (hparts : a.parts = []) (l : Ledger κ) :
    Ends (allocate env Layout.nestingLimit frames a) l fun out m => out.error? = none ∧ m = l
      ∧ ∃ content, content ≠ .empty ∧ out.atom = (a.cleared.fill content []).ready := by
  obtain ⟨info, old, parts⟩ := a
  obtain rfl : parts = [] := hparts
  generalize hsame : (node info old []).info.layout = layout at hlayout
  have hlimit : Layout.nestingLimit = 999999 + 1 := rfl
  rw [hlimit, allocate, hsame]
  cases hlayout with
  | @bytes layout hscalar =>
    obtain ⟨raw, hraw⟩ := hscalar.defaultBytes env.config frames info.offset
    have hmade : allocateLeaf env layout frames (node info old []).cleared
        = ⟨((node info old []).cleared.fill (layout.stored raw) []).ready, none⟩ := by
      rw [allocateLeaf, ← Atom.withBytes_eq]
      exact hraw ▸ rfl
    have hleaf := hscalar.leaf
    have hends : Ends (pure (allocateLeaf env layout frames (node info old []).cleared) : LedgerM κ _) l
        fun out m => out.error? = none ∧ m = l
          ∧ ∃ content, content ≠ .empty ∧ out.atom = ((node info old []).cleared.fill content []).ready :=
      ⟨by rw [hmade]; rfl, rfl, _, layout.stored_ne_empty raw, by rw [hmade]; rfl⟩
    cases layout with
    | record | array | union | pointer | bits => cases hleaf
    | _ => exact hends
  | bits width signed =>
    dsimp only
    rw [allocateBits, hsame]
    have hne : Content.bits (Bitmap.ofNat 0 width signed) ≠ .empty := by
      intro h
      cases h
    exact ⟨rfl, rfl, _, hne, rfl⟩

/-- A scalar gets its default content, if it has none, and nothing goes wrong. -/
theorem prepared_prepare (env : Env κ) {result : Except Error Content}
    (hlayout : s.place.atom.info.layout.Encodes v result) (hparts : s.place.atom.parts = [])
    (hnull : s.place.atom.info.null = false) :
    Yields (prepare env) s (fun _ t => Prepared s t) fun _ _ => False := by
  refine (yields_atom s).bind fun a t ht => ?_
  obtain ⟨rfl, rfl⟩ := ht
  dsimp only
  rw [hnull, if_neg Bool.false_ne_true]
  split
  · rename_i hempty
    refine yields_remake ((ends_allocate_scalar hlayout hparts t.ledger).mono fun out l hout => ?_)
    obtain ⟨hok, rfl, content, hcontent, hmade⟩ := hout
    refine ⟨fun _ => ?_, fun e he => ?_⟩
    · rw [hmade]
      refine ⟨fun h => absurd hempty h, ?_, hcontent, rfl, fun content => ?_⟩
      · exact Info.layout_of_site (site_cleared t.place.atom)
      · rw [Workplace.taking, taking_default hempty hcontent, Workplace.taking]
    · cases hok.symm.trans he
  · rename_i hcontent
    exact Yields.pure ⟨fun _ => rfl, rfl, hcontent, hparts, fun _ => rfl⟩

/-- The atom has the content that a value was encoded to, and what surrounds it waits. -/
def Stored (result : Except Error Content) (s t : Workplace κ) : Prop :=
  ∃ content, result = .ok content
    ∧ (⟨t.ledger, ⟨t.place.atom.ready, t.place.frames⟩⟩ : Workplace κ) = s.taking content

/-- A value is encoded and stored as bytes, or it is refused. -/
theorem Prepared.stored_setScalar {t : Workplace κ} (ht : Prepared s t) {layout : Layout κ}
    (hlayout : t.place.atom.info.layout = .bytes layout) (hleaf : layout.isLeaf = true) :
    Yields (setScalar layout v) t (fun _ u => Stored ((layout.encode v).map Content.raw) s u)
      fun e u => (layout.encode v).map Content.raw = .error e ∧ u = t := by
  refine Yields.via (fun raw u => layout.encode v = .ok raw ∧ u = t) ?_ fun raw u hu => ?_
  · exact yields_ofExcept (fun raw hraw => ⟨hraw, rfl⟩) fun e he => ⟨by rw [he]; rfl, rfl⟩
  obtain ⟨hraw, rfl⟩ := hu
  refine (yields_atom u).bind fun a w hw => ?_
  obtain ⟨rfl, rfl⟩ := hw
  -- Nothing is released, since the atom has no parts.
  refine Yields.via (fun _ x => x = w) ?_ fun _ x hx => ?_
  · rw [ht.parts]
    exact Yields.modified rfl
  · subst hx
    have hbits : x.place.atom.isBits = false := by rw [isBits, hlayout]; rfl
    have hstored : layout.stored raw = .raw raw := by cases layout <;> first | rfl | cases hleaf
    refine yields_setAtom ⟨.raw raw, by rw [hraw]; rfl, ?_⟩
    rw [← ht.taking, Workplace.taking, taking_of_bytes ht.content hbits, Atom.withBytes_eq, hstored]

/-- A value is encoded and stored as bits, or it is refused. -/
theorem Prepared.stored_encodeBits {t : Workplace κ} (ht : Prepared s t) {width : Nat} {signed : Bool}
    (hlayout : t.place.atom.info.layout = .bits (.int width signed)) :
    Yields (do
      let encoded ← ofExcept (encodeBits width signed v)
      setAtom ((← atom).fill (.bits encoded) []) : EditM κ Unit) t
      (fun _ u => Stored ((encodeBits width signed v).map Content.bits) s u)
      fun e u => (encodeBits width signed v).map Content.bits = .error e ∧ u = t := by
  refine Yields.via (fun value u => encodeBits width signed v = .ok value ∧ u = t) ?_ fun value u hu => ?_
  · exact yields_ofExcept (fun value hvalue => ⟨hvalue, rfl⟩) fun e he => ⟨by rw [he]; rfl, rfl⟩
  obtain ⟨hvalue, rfl⟩ := hu
  refine (yields_atom u).bind fun a w hw => ?_
  obtain ⟨rfl, rfl⟩ := hw
  have hbits : w.place.atom.isBits = true := by rw [isBits, hlayout]; rfl
  refine yields_setAtom ⟨.bits value, by rw [hvalue]; rfl, ?_⟩
  rw [← ht.taking, Workplace.taking, taking_of_bits ht.content hbits]

/-- The changed atom is initialized, and what surrounds it is to follow. -/
theorem Stored.yields_finish {result : Except Error Content} {t : Workplace κ} (ht : Stored result s t)
    {ok : Unit → Workplace κ → Prop} {failed : Error → Workplace κ → Prop}
    (h : ∀ content, result = .ok content → Yields (afterChange env) (s.taking content) ok failed) :
    Yields (finish env) t ok failed := by
  obtain ⟨content, hresult, htaken⟩ := ht
  refine (yields_atom t).bind fun a u hu => ?_
  obtain ⟨rfl, rfl⟩ := hu
  refine Yields.via (fun _ w => w = s.taking content) (yields_setAtom htaken) fun _ w hw => ?_
  subst hw
  exact h content hresult

/-- A scalar that a value is assigned to: either the value is refused, or the atom has it, and what
surrounds the atom is to follow. -/
theorem yields_setValue_scalar {result : Except Error Content} {ok : Unit → Workplace κ → Prop}
    {failed : Error → Workplace κ → Prop} (hlayout : s.place.atom.info.layout.Encodes v result)
    (hparts : s.place.atom.parts = []) (hnull : s.place.atom.info.null = false)
    (hrefused : ∀ e t, result = .error e → Prepared s t → failed e t)
    (hstored : ∀ content, result = .ok content → Yields (afterChange env) (s.taking content) ok failed) :
    Yields (setValue env v) s ok failed := by
  refine (yields_atom s).bind fun a t ht => ?_
  obtain ⟨rfl, rfl⟩ := ht
  have hprepare : Yields (prepare env) t (fun _ u => Prepared t u) failed :=
    (prepared_prepare env hlayout hparts hnull).mono (fun _ _ h => h) fun _ _ h => h.elim
  generalize hsame : t.place.atom.info.layout = layout at hlayout
  cases hlayout with
  | @bytes layout hscalar =>
    have hbits : t.place.atom.isBits = false := by rw [isBits, hsame]; rfl
    have hleaf := hscalar.leaf
    rw [hbits, if_neg Bool.false_ne_true, setBytes.eq_def]
    refine hprepare.bind fun _ u hu => ?_
    refine (yields_atom u).bind fun a w hw => ?_
    obtain ⟨rfl, rfl⟩ := hw
    have hnow := hu.layout.trans hsame
    have hassigned : Yields (do
        setScalar layout v
        finish env : EditM κ Unit) w ok failed :=
      Yields.bind ((hu.stored_setScalar hnow hleaf).mono (fun _ _ h => h)
        fun e x hx => hrefused e x hx.1 (hx.2 ▸ hu)) fun _ x hx => hx.yields_finish hstored
    rw [hnow]
    cases layout with
    | record | array | union | pointer | bits => cases hleaf
    | _ => exact hassigned
  | bits width signed =>
    have hbits : t.place.atom.isBits = true := by rw [isBits, hsame]; rfl
    rw [hbits, if_pos rfl, setBits.eq_def]
    refine hprepare.bind fun _ u hu => ?_
    refine (yields_atom u).bind fun a w hw => ?_
    obtain ⟨rfl, rfl⟩ := hw
    have hnow := hu.layout.trans hsame
    rw [hnow]
    have hassigned : Yields (do
        (do
          let encoded ← ofExcept (encodeBits width signed v)
          setAtom ((← atom).fill (.bits encoded) []))
        finish env : EditM κ Unit) w ok failed :=
      Yields.bind ((hu.stored_encodeBits hnow).mono (fun _ _ h => h)
        fun e x hx => hrefused e x hx.1 (hx.2 ▸ hu)) fun _ x hx => hx.yields_finish hstored
    simpa only [bind_assoc] using hassigned

/-- What a null pointer refers to takes no value, and nothing changes. -/
theorem yields_setValue_null (env : Env κ) (v : Value) (hnull : s.place.atom.info.null = true) :
    Yields (setValue env v) s (fun _ _ => False) fun e t => e = .located [] .nullDereference ∧ t = s := by
  have hprepare : Yields (prepare env) s (fun _ _ => False)
      fun e t => e = .located [] .nullDereference ∧ t = s := by
    refine (yields_atom s).bind fun a t ht => ?_
    obtain ⟨rfl, rfl⟩ := ht
    dsimp only
    rw [if_pos hnull]
    exact ⟨rfl, rfl⟩
  refine (yields_atom s).bind fun a t ht => ?_
  obtain ⟨rfl, rfl⟩ := ht
  split
  · rw [setBits.eq_def]
    exact hprepare.bind fun _ _ h => h.elim
  · rw [setBytes.eq_def]
    exact hprepare.bind fun _ _ h => h.elim

/-- What follows a change leaves the atom alone, but for its offset. -/
theorem unplaced_afterChange (env : Env κ) (s : Workplace κ) :
    Yields (afterChange env) s (fun _ t => t.place.atom.unplaced = s.place.atom.unplaced)
      fun _ t => t.place.atom.unplaced = s.place.atom.unplaced := by
  have haround (t : Workplace κ) (follow : Atom κ → List (Frame κ) → LedgerM κ (Surroundings κ)) :
      Yields (around follow) t (fun _ u => u.place.atom = t.place.atom)
        fun _ u => u.place.atom = t.place.atom :=
    yields_around ((Ends.trivial _ _).mono fun _ _ _ => ⟨fun _ => rfl, fun _ _ => rfl⟩)
  refine Yields.bind ((haround s _).mono (fun _ _ h => h) fun _ _ h => congrArg unplaced h) fun _ t ht => ?_
  refine Yields.via (fun _ u => u.place.atom.unplaced = s.place.atom.unplaced) (Yields.modified ?_)
    fun _ u hu => ?_
  · exact (Place.unplaced_reflow t.place).1.trans (congrArg unplaced ht)
  refine Yields.bind ((haround u _).mono (fun _ _ h => h) fun _ _ h => ?_) fun _ w hw => Yields.modified ?_
  · exact (congrArg unplaced h).trans hu
  · exact (congrArg unplaced hw).trans hu

end EditM

end BinaryLayout
