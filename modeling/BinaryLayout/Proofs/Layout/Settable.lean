import BinaryLayout.Proofs.Layout.Uses
import BinaryLayout.Proofs.Tree.Plain

/-!
# Layouts whose values can be set again

The value of an atom is not all of it. A number in floating point may be written in another way than
it was read, a group of seven bits too many is lost, and what ended an array that goes on to the end
of its source is not to be found in the array. The layouts here have no such parts, and what their
rules answer depends on the fields before alone, so that the answer stays when one of those fields is
set to the value that it has.

## Main definitions

* `BitLayout.Settable`, `Layout.Settable`: the layouts.
* `Context`: what stands before an atom in the record around it.
* `Rules.SeesEarlier`: rules that look at nothing but the fields before.
* `Rules.SeesSoFar`, `Rules.SeesElement`: rules that end an array by its elements so far and the fields before
  it, or by its last element alone.

## Main statements

* `Rules.seesEarlier_of_uint`: rules that depend on a number in a field before.
-/

namespace BinaryLayout

variable {κ : Type}

/-! ## Rules -/

/-- Two records agree in their fields before `index`, but for handles and flags. -/
structure Place.AgreeBefore (index : Nat) (p q : Place κ) : Prop where
  left : p.atom.content = .group
  right : q.atom.content = .group
  earlier : (p.atom.parts.take index).map Atom.plain = (q.atom.parts.take index).map Atom.plain

/-- The layout that a rule answers for a field depends on nothing but the fields before it, and not on their
handles and flags. -/
def Rules.SeesEarlier (rules : Rules κ) (rule : κ) : Prop :=
  ∀ {index : Nat} {p q : Place κ} {config : Config} {layout : Layout κ}, p.AgreeBefore index q →
    rules.layout rule ⟨p, some index, config⟩ = .ok layout →
      rules.layout rule ⟨q, some index, config⟩ = .ok layout

/-- What a rule may see around an atom: where the atom around it starts and, if that is a record, the fields
before it, but for handles and flags. -/
@[ext]
structure Context (κ : Type) where
  base : Nat
  earlier : List (Atom κ)

/-- The layout is a record of bytes. -/
def AtomLayout.isRecord : AtomLayout κ → Bool
  | .bytes (.record ..) => true
  | _ => false

/-- What stands around an atom in these frames. -/
def Frame.context : List (Frame κ) → Context κ
  | [] => ⟨0, []⟩
  | f :: _ => ⟨f.info.offset, if f.info.layout.isRecord then f.left.reverse.map Atom.plain else []⟩

/-- What stands around the field at `index` of a record. -/
def Atom.contextOf (record : Atom κ) (index : Nat) : Context κ :=
  ⟨record.info.offset, (record.parts.take index).map Atom.plain⟩

/-- Whether a rule ends an array of atoms of bytes depends on nothing but the elements so far and, when the
array is a field of a record, on the fields before it. -/
def Rules.SeesSoFar (rules : Rules κ) (rule : κ) : Prop :=
  ∀ {config : Config} {count : Nat} {a b : Atom κ} {f g : Frame κ} {frames frames' : List (Frame κ)},
    a.isBits = false → Atom.Everywhere Atom.Shaped a → a.plain = b.plain → f.plain = g.plain →
      Frame.context frames = Frame.context frames' →
        rules.accepts rule config count ⟨a, f :: frames⟩ = rules.accepts rule config count ⟨b, g :: frames'⟩

/-- Whether a rule ends an array of atoms of bytes depends on nothing but the element that was loaded last and
on its number, and not on handles and flags. -/
def Rules.SeesElement (rules : Rules κ) (rule : κ) : Prop :=
  ∀ {config : Config} {count : Nat} {p q : Place κ}, p.atom.isBits = false →
    Atom.Everywhere Atom.Shaped p.atom → p.atom.plain = q.atom.plain →
      rules.accepts rule config count p = rules.accepts rule config count q

namespace Frame

theorem context_cons_of_plain {f g : Frame κ} (h : f.plain = g.plain) (frames frames' : List (Frame κ)) :
    context (f :: frames) = context (g :: frames') := by
  have hleft : f.left.map Atom.plain = g.left.map Atom.plain := congrArg Frame.left h
  rw [context, context, offset_of_plain h, layout_of_plain h, List.map_reverse, List.map_reverse, hleft]

/-- Around an atom that is not a field, only the offset counts. -/
theorem context_of_not_isRecord {f : Frame κ} (h : f.info.layout.isRecord = false) (frames : List (Frame κ)) :
    context (f :: frames) = ⟨f.info.offset, []⟩ := by
  rw [context, h]
  rfl

/-- Around a field there are the fields before it. -/
theorem context_of_isRecord {f : Frame κ} (h : f.info.layout.isRecord = true) (a : Atom κ)
    (frames : List (Frame κ)) : context (f :: frames) = (f.plug a).contextOf f.left.length := by
  rw [context, h, Atom.contextOf, info_plug, parts_plug, ← List.length_reverse, List.take_left]
  rfl

end Frame

theorem Atom.contextOf_of_plain {a b : Atom κ} (h : a.plain = b.plain) (index : Nat) :
    a.contextOf index = b.contextOf index := by
  rw [contextOf, contextOf, offset_of_plain h, List.map_take, List.map_take, parts_of_plain h]

namespace Place.AgreeBefore

variable {index : Nat} {p q : Place κ}

theorem indexOf?_of_group {a : Atom κ} (h : a.content = .group) (name : String) :
    Place.indexOf? a name = a.parts.findIdx? fun m => m.info.name == name := by
  obtain ⟨info, content, parts⟩ := a
  cases h
  rfl

/-- The same fields have the name. -/
theorem indexOf? (h : p.AgreeBefore index q) {name : String} {i : Nat}
    (hi : Place.indexOf? p.atom name = some i) (hlt : i < index) : Place.indexOf? q.atom name = some i := by
  have hname (as : List (Atom κ)) : (as.map Atom.plain).findIdx? (fun m => m.info.name == name) =
      as.findIdx? fun m => m.info.name == name := by
    rw [List.findIdx?_map]
    congr 1
    funext a
    rw [Function.comp, Atom.info_plain]
    rfl
  have hsame := congrArg (List.findIdx? fun m => m.info.name == name) h.earlier
  rw [hname, hname, List.findIdx?_take, List.findIdx?_take, ← indexOf?_of_group h.left,
    ← indexOf?_of_group h.right, hi, Option.bind_some, Option.guard, if_pos (decide_eq_true hlt)] at hsame
  obtain ⟨j, hj, hguard⟩ := Option.bind_eq_some_iff.1 hsame.symm
  rw [hj]
  obtain ⟨rfl, -⟩ := Option.guard_eq_some_iff.1 hguard
  rfl

/-- The same fields are found by number. -/
theorem part (h : p.AgreeBefore index q) {i : Nat} (hlt : i < index) {m : Place κ}
    (hm : p.member? i = some m) : ∃ m', q.member? i = some m' ∧ m.atom.plain = m'.atom.plain := by
  rw [Place.member?, h.left] at hm
  rw [Place.member?, h.right]
  have hparts := congrArg (·[i]?) h.earlier
  rw [List.getElem?_map, List.getElem?_map, List.getElem?_take_of_lt hlt, List.getElem?_take_of_lt hlt,
    Place.part_of_down? hm] at hparts
  obtain ⟨b, hb, hplain⟩ := Option.map_eq_some_iff.1 hparts.symm
  obtain ⟨m', hm', rfl⟩ := Place.down?_of_part hb
  exact ⟨m', hm', hplain.symm⟩

/-- A field that a rule may look at. -/
theorem field (h : p.AgreeBefore index q) {config : Config} {name : String} {m : Place κ}
    (hm : Scope.field ⟨p, some index, config⟩ name = .ok m) :
    ∃ m', Scope.field ⟨q, some index, config⟩ name = .ok m' ∧ m.atom.plain = m'.atom.plain := by
  rw [Scope.field] at hm
  dsimp only at hm
  cases hi : Place.indexOf? p.atom name with
  | none =>
    rw [hi] at hm
    dsimp only at hm
    split at hm <;> cases hm
  | some i =>
    rw [hi] at hm
    dsimp only at hm
    split at hm
    · rename_i hvisible
      split at hm
      · rename_i m hmember
        cases hm
        obtain ⟨m', hm', hplain⟩ := h.part (of_decide_eq_true hvisible) hmember
        refine ⟨m', ?_, hplain⟩
        rw [Scope.field, h.indexOf? hi (of_decide_eq_true hvisible)]
        dsimp only
        rw [if_pos hvisible, hm']
      · cases hm
    · cases hm

/-- The number in a field that a rule may look at. -/
theorem uint (h : p.AgreeBefore index q) {config : Config} {name : String} {n : Nat}
    (hn : Scope.uint ⟨p, some index, config⟩ name = .ok n) :
    Scope.uint ⟨q, some index, config⟩ name = .ok n := by
  rw [Scope.uint] at hn
  cases hm : Scope.field ⟨p, some index, config⟩ name with
  | error e =>
    rw [hm] at hn
    cases hn
  | ok m =>
    obtain ⟨m', hm', hplain⟩ := h.field hm
    rw [hm, Except.bind] at hn
    rw [Scope.uint, hm', Except.bind]
    cases hu : m.uint with
    | error e =>
      rw [hu] at hn
      cases hn
    | ok k =>
      rw [hu] at hn
      rw [Place.uint_of_ok hplain hu]
      exact hn

end Place.AgreeBefore

namespace Rules

variable {rules : Rules κ} {rule : κ}

/-- A rule whose answer is a function of the number in a field before it. -/
theorem seesEarlier_of_uint (name : String) (answer : Nat → Except Error (Layout κ))
    (h : ∀ s, rules.layout rule s = (s.uint name).bind answer) : rules.SeesEarlier rule := by
  intro index p q config layout hagree hlayout
  rw [h] at hlayout ⊢
  cases hn : Scope.uint ⟨p, some index, config⟩ name with
  | error e =>
    rw [hn] at hlayout
    cases hlayout
  | ok n =>
    rw [hn] at hlayout
    rw [hagree.uint hn]
    exact hlayout

end Rules

/-- The layout is given, or its rule depends on nothing but the fields before it. -/
def Choice.SeesEarlier (rules : Rules κ) : Choice κ (Layout κ) → Prop
  | .given _ => True
  | .computed rule => rules.SeesEarlier rule

/-- Such a choice is the same in records that have the same fields so far. -/
theorem Env.resolve_of_earlier {env : Env κ} {choice : Choice κ (Layout κ)}
    (hchoice : choice.SeesEarlier env.rules) {p q : Place κ} {index : Nat} (h : p.AgreeBefore index q)
    {layout : Layout κ} (hresolve : env.resolve p index choice = .ok layout) :
    env.resolve q index choice = .ok layout := by
  cases choice with
  | given given => exact hresolve
  | computed rule =>
    have hanswer := hchoice h (ok_of_mapError hresolve)
    rw [resolve, hanswer]
    rfl

/-! ## Layouts -/

/-- The width is known beforehand, each integer is of at most 127 bits, and the fields of a record have
different names. -/
structure BitLayout.Settable (rules : Rules κ) (layout : BitLayout κ) : Prop where
  static : layout.staticBits.isSome = true
  ints : ∀ bits signed, layout.Uses rules (.int bits signed) → bits ≤ 127
  names : ∀ name fields, layout.Uses rules (.record name fields) → (fields.map BitField.name).Nodup

namespace BitLayout

variable {rules : Rules κ}

/-- What is used by a layout that is used is used. -/
theorem Uses.trans {layout inner last : BitLayout κ} (h : layout.Uses rules inner)
    (hlast : inner.Uses rules last) : layout.Uses rules last := by
  induction h with
  | here => exact hlast
  | field hfield hinner _ ih => exact .field hfield hinner (ih hlast)
  | element _ ih => exact .element (ih hlast)

/-- Fields whose widths are known beforehand are given. -/
theorem given_of_staticBitsOfFields {fields : List (BitField κ (BitLayout κ))} {total width : Nat}
    (h : staticBitsOfFields total fields = some width) :
    ∀ field ∈ fields, ∃ layout, field.layout = .given layout ∧ layout.staticBits.isSome = true := by
  induction fields generalizing total with
  | nil => exact nofun
  | cons field fields ih =>
    obtain ⟨layout, bits, hgiven, hbits, hrest⟩ := staticBitsOfFields_cons h
    exact List.forall_mem_cons.2 ⟨⟨layout, hgiven, by rw [hbits]; rfl⟩, ih hrest⟩

theorem Settable.inner {layout inner : BitLayout κ} (h : layout.Settable rules)
    (huse : layout.Uses rules inner) (hstatic : inner.staticBits.isSome = true) : inner.Settable rules :=
  ⟨hstatic, fun bits signed hlast => h.ints bits signed (huse.trans hlast),
    fun name fields hlast => h.names name fields (huse.trans hlast)⟩

/-- An array whose width is known beforehand has so many elements whose width is known. -/
theorem static_of_array {element : BitLayout κ} {shape : BitShape κ} {width : Nat}
    (h : (BitLayout.array element shape).staticBits = some width) :
    ∃ count bits, shape = .counted count ∧ element.staticBits = some bits ∧ width = bits * count := by
  cases shape with
  | counted count =>
    rw [staticBits] at h
    cases hbits : element.staticBits with
    | none =>
      rw [hbits] at h
      cases h
    | some bits =>
      rw [hbits, Option.bind_some, word?] at h
      split at h
      · cases h
        exact ⟨count, bits, rfl, rfl, rfl⟩
      · cases h
  | terminated rule => cases h

/-- What is used by a layout of known width has a known width. -/
theorem Uses.static {layout inner : BitLayout κ} (h : layout.Uses rules inner)
    (hstatic : layout.staticBits.isSome = true) : inner.staticBits.isSome = true := by
  induction h with
  | here => exact hstatic
  | field hfield hinner _ ih =>
    obtain ⟨width, hwidth⟩ := Option.isSome_iff_exists.1 hstatic
    obtain ⟨given, hgiven, hsome⟩ := given_of_staticBitsOfFields hwidth _ hfield
    rw [hgiven] at hinner
    cases hinner
    exact ih hsome
  | element _ ih =>
    obtain ⟨width, hwidth⟩ := Option.isSome_iff_exists.1 hstatic
    obtain ⟨_, bits, -, hbits, -⟩ := static_of_array hwidth
    exact ih (by rw [hbits]; rfl)

theorem Settable.counted {layout : BitLayout κ} (h : layout.Settable rules) : layout.Counted rules :=
  fun _ _ huse => Bool.false_ne_true (huse.static h.static)

end BitLayout

namespace Layout

/-- Nothing in the layout itself keeps its value from being set again. -/
def SettableHere (rules : Rules κ) : Layout κ → Prop
  | float .. | fixed .. | varint _ | array _ .unending => False
  | array _ (.terminated rule) => rules.SeesSoFar rule
  | record _ fields => (fields.map Field.name).Nodup
      ∧ ∀ field ∈ fields, field.extent? = none ∧ field.layout.SeesEarlier rules
  | union _ members size => (members.map Prod.fst).Nodup ∧ size < pow2 64
  | bits root _ => root.Settable rules
  | _ => True

/-- How an atom of the layout is loaded does not depend on what stands around it, as it does for padding up to
an alignment. -/
def Freestanding (rules : Rules κ) : Layout κ → Prop
  | align _ => False
  | array _ (.terminated rule) => rules.SeesElement rule
  | _ => True

/-- The layout is made of integers, texts, bytes and padding, of pointers, of records with fields of
different names and of no forced size, of unions, of arrays that end by themselves, and of bits of
known width. -/
def Settable (rules : Rules κ) (layout : Layout κ) : Prop :=
  ∀ inner, layout.Uses rules inner → inner.SettableHere rules

variable {rules : Rules κ} {layout : Layout κ}

theorem Settable.here (h : layout.Settable rules) : layout.SettableHere rules := h layout (.here layout)

theorem Settable.inner {inner : Layout κ} (h : layout.Settable rules) (huse : layout.Uses rules inner) :
    inner.Settable rules :=
  fun last hlast => h last (huse.trans hlast)

theorem Settable.bitsCounted (h : layout.Settable rules) : layout.BitsCounted rules :=
  fun root order huse => BitLayout.Settable.counted (h (.bits root order) huse)

theorem settable_block (length : Nat) : Settable rules (.block length) := by
  intro inner huse
  cases huse
  trivial

theorem settable_record {name : String} {fields : List (Field κ (Layout κ))}
    (hhere : (record name fields).SettableHere rules)
    (hfields : ∀ field ∈ fields, ∀ inner, field.layout.Offers rules.layout inner → inner.Settable rules) :
    (record name fields).Settable rules := by
  intro inner huse
  cases huse with
  | here => exact hhere
  | field hfield hinner huse => exact hfields _ hfield _ hinner inner huse

theorem settable_array {element : Layout κ} {shape : Shape κ} (hhere : (array element shape).SettableHere rules)
    (helement : element.Settable rules) : (array element shape).Settable rules := by
  intro inner huse
  cases huse with
  | here => exact hhere
  | element huse => exact helement inner huse

theorem Settable.element {element : Layout κ} {shape : Shape κ} (h : (array element shape).Settable rules) :
    element.Settable rules :=
  h.inner (.element (.here _))

theorem Settable.nextInBlock {element : Layout κ} (h : element.Settable rules) {remaining : Nat}
    (hnext : nextInBlock element remaining = some layout) : layout.Settable rules := by
  rcases eq_of_nextInBlock hnext with rfl | rfl
  · exact h
  · exact settable_block _

theorem Settable.ends {element : Layout κ} {shape : Shape κ} (h : (array element shape).Settable rules) :
    shape ≠ .unending := by
  rintro rfl
  exact h.here

end Layout

end BinaryLayout
