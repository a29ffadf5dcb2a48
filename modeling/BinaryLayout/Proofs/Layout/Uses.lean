import BinaryLayout.Load.Array
import BinaryLayout.Proofs.Placement.Bits
import BinaryLayout.Proofs.Run

/-!
# Layouts inside layouts

What is loaded under a layout is loaded under layouts inside it: those of its fields, elements and
members, whether they are given or answered by a rule, and those inside these. What a pointer refers
to is not loaded with it. A layout of bits whose width is known beforehand, from the layouts inside it,
has that width when its default bits are made.

## Main definitions

* `Choice.Offers`: a layout that a field may have.
* `BitLayout.Uses`, `Layout.Uses`: a layout inside another.
* `BitLayout.Counted`: no array of bits is ended by a rule.
* `Layout.BitsCounted`: this holds of the bits of every host.
* `Layout.WithoutUnending`: no array goes on to the end of its source.
* `Layout.Unforced`: every part reads as much as it needs.
* `KeepsWidth`: what is made under a layout has the width that is known of it.

## Main statements

* `keepsWidth_allocateBits`: default bits.
-/

namespace BinaryLayout

variable {κ ρ : Type}

/-- The part has the layout, or its rule answers it in some scope. -/
def Choice.Offers (answer : κ → Scope κ → Except Error ρ) : Choice κ ρ → ρ → Prop
  | .given layout, offered => offered = layout
  | .computed rule, offered => ∃ scope, answer rule scope = .ok offered

namespace Env

variable {env : Env κ} {container : Place κ} {index : Nat}

theorem offers_of_resolve {choice : Choice κ (Layout κ)} {layout : Layout κ}
    (h : env.resolve container index choice = .ok layout) :
    choice.Offers env.rules.layout layout := by
  cases choice with
  | given given =>
    cases h
    rfl
  | computed rule => exact ⟨_, ok_of_mapError h⟩

theorem offers_of_resolveBits {choice : Choice κ (BitLayout κ)} {layout : BitLayout κ}
    (h : env.resolveBits container index choice = .ok layout) :
    choice.Offers env.rules.bitLayout layout := by
  cases choice with
  | given given =>
    cases h
    rfl
  | computed rule => exact ⟨_, ok_of_mapError h⟩

end Env

/-! ## Bits -/

namespace BitLayout

/-- Bits may be read under `layout` when they are read under the first layout. -/
inductive Uses (rules : Rules κ) : BitLayout κ → BitLayout κ → Prop
  | here (layout : BitLayout κ) : Uses rules layout layout
  | field {name : String} {fields : List (BitField κ (BitLayout κ))}
      {field : BitField κ (BitLayout κ)} {inner layout : BitLayout κ} (hfield : field ∈ fields)
      (hinner : field.layout.Offers rules.bitLayout inner) (h : Uses rules inner layout) :
      Uses rules (.record name fields) layout
  | element {element layout : BitLayout κ} {shape : BitShape κ} (h : Uses rules element layout) :
      Uses rules (.array element shape) layout

/-- No array of bits inside the layout is ended by a rule. -/
def Counted (rules : Rules κ) (layout : BitLayout κ) : Prop :=
  ∀ element rule, ¬ layout.Uses rules (.array element (.terminated rule))

variable {rules : Rules κ}

theorem counted_int (bits : Nat) (signed : Bool) : Counted rules (.int bits signed) :=
  fun _ _ huse => nomatch huse

theorem counted_record {name : String} {fields : List (BitField κ (BitLayout κ))} :
    Counted rules (.record name fields) ↔ ∀ field ∈ fields, ∀ inner,
      field.layout.Offers rules.bitLayout inner → inner.Counted rules := by
  constructor
  · intro h field hfield inner hinner element rule huse
    exact h element rule (.field hfield hinner huse)
  · intro h element rule huse
    cases huse with
    | field hfield hinner huse => exact h _ hfield _ hinner element rule huse

theorem Counted.element {element : BitLayout κ} {shape : BitShape κ}
    (h : Counted rules (.array element shape)) : element.Counted rules :=
  fun inner rule huse => h inner rule (.element huse)

/-- The number of elements of such an array is given. -/
theorem Counted.shape {element : BitLayout κ} {shape : BitShape κ}
    (h : Counted rules (.array element shape)) : ∃ count, shape = .counted count := by
  cases shape with
  | counted count => exact ⟨count, rfl⟩
  | terminated rule => exact absurd (.here _) (h element rule)

end BitLayout

/-! ## Bytes -/

namespace Layout

/-- Bytes may be read under `layout` when they are read under the first layout. -/
inductive Uses (rules : Rules κ) : Layout κ → Layout κ → Prop
  | here (layout : Layout κ) : Uses rules layout layout
  | field {name : String} {fields : List (Field κ (Layout κ))} {field : Field κ (Layout κ)}
      {inner layout : Layout κ} (hfield : field ∈ fields)
      (hinner : field.layout.Offers rules.layout inner) (h : Uses rules inner layout) :
      Uses rules (.record name fields) layout
  | element {element layout : Layout κ} {shape : Shape κ} (h : Uses rules element layout) :
      Uses rules (.array element shape) layout
  | member {name : String} {members : List (String × Layout κ)} {size : Nat}
      {member : String × Layout κ} {layout : Layout κ} (hmember : member ∈ members)
      (h : Uses rules member.2 layout) : Uses rules (.union name members size) layout

/-- No host inside the layout has an array of bits that is ended by a rule. -/
def BitsCounted (rules : Rules κ) (layout : Layout κ) : Prop :=
  ∀ root order, layout.Uses rules (.bits root order) → root.Counted rules

variable {rules : Rules κ}

theorem bitsCounted_block (length : Nat) : BitsCounted rules (.block length) :=
  fun _ _ huse => nomatch huse

theorem bitsCounted_record {name : String} {fields : List (Field κ (Layout κ))} :
    BitsCounted rules (.record name fields) ↔ ∀ field ∈ fields, ∀ inner,
      field.layout.Offers rules.layout inner → inner.BitsCounted rules := by
  constructor
  · intro h field hfield inner hinner root order huse
    exact h root order (.field hfield hinner huse)
  · intro h root order huse
    cases huse with
    | field hfield hinner huse => exact h _ hfield _ hinner root order huse

theorem bitsCounted_array {element : Layout κ} {shape : Shape κ} :
    BitsCounted rules (.array element shape) ↔ element.BitsCounted rules := by
  constructor
  · intro h root order huse
    exact h root order (.element huse)
  · intro h root order huse
    cases huse with
    | element huse => exact h root order huse

theorem bitsCounted_bits {root : BitLayout κ} {order : ByteOrder} :
    BitsCounted rules (.bits root order) ↔ root.Counted rules := by
  constructor
  · intro h
    exact h root order (.here _)
  · intro h inner innerOrder huse
    cases huse
    exact h

/-- An element of a block array has the layout of all elements, or it is a block cut short. -/
theorem eq_of_nextInBlock {element layout : Layout κ} {remaining : Nat}
    (hnext : nextInBlock element remaining = some layout) :
    layout = element ∨ layout = .block remaining := by
  rw [nextInBlock] at hnext
  repeat' split at hnext
  all_goals cases hnext
  · exact .inl rfl
  · exact .inl rfl
  · exact .inr rfl

theorem BitsCounted.nextInBlock {element layout : Layout κ} (h : element.BitsCounted rules)
    {remaining : Nat} (hnext : nextInBlock element remaining = some layout) :
    layout.BitsCounted rules := by
  rcases eq_of_nextInBlock hnext with rfl | rfl
  · exact h
  · exact bitsCounted_block _

/-! ### Arrays that go on to the end of their source -/

/-- What is used by a layout that is used is used. -/
theorem Uses.trans {layout inner last : Layout κ} (h : layout.Uses rules inner)
    (hlast : inner.Uses rules last) : layout.Uses rules last := by
  induction h with
  | here => exact hlast
  | field hfield hinner _ ih => exact .field hfield hinner (ih hlast)
  | element _ ih => exact .element (ih hlast)
  | member hmember _ ih => exact .member hmember (ih hlast)

/-- No array inside the layout goes on to the end of its source. -/
def WithoutUnending (rules : Rules κ) (layout : Layout κ) : Prop :=
  ∀ element, ¬ layout.Uses rules (.array element .unending)

theorem WithoutUnending.inner {layout inner : Layout κ} (h : layout.WithoutUnending rules)
    (huse : layout.Uses rules inner) : inner.WithoutUnending rules :=
  fun element hlast => h element (huse.trans hlast)

theorem withoutUnending_block (length : Nat) : WithoutUnending rules (.block length) :=
  fun _ huse => nomatch huse

theorem WithoutUnending.nextInBlock {element layout : Layout κ} (h : element.WithoutUnending rules)
    {remaining : Nat} (hnext : nextInBlock element remaining = some layout) :
    layout.WithoutUnending rules := by
  rcases eq_of_nextInBlock hnext with rfl | rfl
  · exact h
  · exact withoutUnending_block _

/-! ### Parts that read as much as they need -/

/-- No field inside the layout has its size forced, and the members of unions fit. -/
structure Unforced (rules : Rules κ) (layout : Layout κ) : Prop where
  fields : ∀ name fields, layout.Uses rules (.record name fields) → ∀ field ∈ fields,
    field.extent? = none
  members : ∀ name members size, layout.Uses rules (.union name members size) → ∀ member ∈ members,
    ∃ fits ≤ size, member.2.staticSize = some fits

theorem Unforced.inner {layout inner : Layout κ} (h : layout.Unforced rules)
    (huse : layout.Uses rules inner) : inner.Unforced rules :=
  ⟨fun name fields hlast => h.fields name fields (huse.trans hlast),
    fun name members size hlast => h.members name members size (huse.trans hlast)⟩

theorem unforced_block (length : Nat) : Unforced rules (.block length) :=
  ⟨fun _ _ h => (nomatch h), fun _ _ _ h => (nomatch h)⟩

theorem Unforced.nextInBlock {element layout : Layout κ} (h : element.Unforced rules)
    {remaining : Nat} (hnext : nextInBlock element remaining = some layout) :
    layout.Unforced rules := by
  rcases eq_of_nextInBlock hnext with rfl | rfl
  · exact h
  · exact unforced_block _

end Layout

/-! ## Widths known beforehand -/

open Atom

/-- An atom of bits that was made has the width that its layout is known to have. -/
def KeepsWidth {σ : Type} (part : LoadPart (StateM σ) κ) : Prop :=
  ∀ frames a layout width s, a.info.layout = .bits layout → layout.staticBits = some width →
    Ends (part frames a) s fun out _ => out.error? = none → out.atom.bitCount = width

theorem eq_of_word? {n word : Nat} (h : word? n = some word) : word = n := by
  rw [word?] at h
  split at h
  · cases h
    rfl
  · cases h

/-- The widths of the fields add up. -/
theorem staticBitsOfFields_cons {total width : Nat} {field : BitField κ (BitLayout κ)}
    {fields : List (BitField κ (BitLayout κ))}
    (h : staticBitsOfFields total (field :: fields) = some width) :
    ∃ layout bits, field.layout = .given layout ∧ layout.staticBits = some bits
      ∧ staticBitsOfFields (total + bits) fields = some width := by
  obtain ⟨name, layout | rule⟩ := field
  · rw [staticBitsOfFields] at h
    split at h
    · rename_i bits hbits
      split at h
      · exact ⟨layout, bits, rfl, hbits, h⟩
      · cases h
    · cases h
  · rw [staticBitsOfFields] at h
    cases h

variable {env : Env κ} {part : LoadPart (LedgerM κ) κ}

theorem width_allocateBitFields (hpart : KeepsWidth part) (frames : List (Frame κ)) {f : Frame κ}
    (hf : f.content = .group) (hright : f.right = []) (index cursor : Nat)
    (fields : List (BitField κ (BitLayout κ))) {width : Nat}
    (hwidth : staticBitsOfFields f.close.bitCount fields = some width) (l : Ledger κ) :
    Ends (allocateBitFields env part frames f index cursor fields) l fun out _ =>
      out.error? = none → out.atom.bitCount = width := by
  induction fields generalizing f index cursor l with
  | nil =>
    refine Ends.pure fun _ => ?_
    rw [staticBitsOfFields] at hwidth
    cases hwidth
    exact bitCount_ready f.close
  | cons field fields ih =>
    obtain ⟨layout, bits, hlayout, hbits, hrest⟩ := staticBitsOfFields_cons hwidth
    rw [allocateBitFields, hlayout, Env.resolveBits]
    refine (Ends.spawn field.name (.bits layout) cursor l).bind fun blank m hblank => ?_
    refine (hpart _ _ _ _ m hblank.2.1 hbits).bind fun out n hout => ?_
    split
    · exact Ends.pure fun h => by cases h
    · rename_i herror
      rw [← hout herror, ← Frame.bitCount_push hf hright] at hrest
      exact ih (f := f.push out.atom) hf hright _ _ hrest _

theorem width_allocateBitElements (hpart : KeepsWidth part) {element : BitLayout κ} {bits : Nat}
    (hbits : element.staticBits = some bits) (frames : List (Frame κ)) (count : Nat) {f : Frame κ}
    (hf : f.content = .group) (hright : f.right = []) (index cursor : Nat) (l : Ledger κ) :
    Ends (allocateBitElements part element frames count f index cursor) l fun out _ =>
      out.error? = none → out.atom.bitCount = f.close.bitCount + bits * count := by
  induction count generalizing f index cursor l with
  | zero => exact Ends.pure fun _ => bitCount_ready f.close
  | succ count ih =>
    rw [allocateBitElements]
    refine (Ends.spawn (toString index) (.bits element) cursor l).bind fun blank m hblank => ?_
    refine (hpart _ _ _ _ m hblank.2.1 hbits).bind fun out n hout => ?_
    dsimp only
    split
    · exact Ends.pure fun h => by cases h
    · rename_i herror
      refine (ih (f := f.push out.atom) hf hright _ _ n).mono fun last _ hlast hdone => ?_
      rw [hlast hdone, Frame.bitCount_push hf hright, hout herror, Nat.mul_succ]
      omega

/-- Default bits have the width that their layout is known to have. -/
theorem keepsWidth_allocateBits (env : Env κ) (depth : Nat) :
    KeepsWidth (allocateBits env depth) := by
  induction depth with
  | zero => exact fun _ _ _ _ _ _ _ => Ends.pure nofun
  | succ depth ih =>
    intro frames a layout width l hlayout hwidth
    have hempty (b : Atom κ) : (b.fill .group []).frame.close.bitCount = 0 := by
      rw [close_frame]
      rfl
    rw [allocateBits, hlayout]
    refine (Ends.trivial (LedgerM.clear a) l).bind fun b m _ => ?_
    cases layout with
    | int bits signed =>
      cases hwidth
      exact Ends.pure fun _ => bitCount_ready (b.fill _ [])
    | record name fields =>
      rw [BitLayout.staticBits, ← hempty b] at hwidth
      exact width_allocateBitFields ih frames rfl rfl _ _ fields hwidth m
    | array element shape =>
      cases shape with
      | terminated rule => cases hwidth
      | counted count =>
        rw [BitLayout.staticBits, Option.bind_eq_some_iff] at hwidth
        obtain ⟨bits, hbits, hword⟩ := hwidth
        refine (width_allocateBitElements ih hbits frames count rfl rfl _ _ m).mono
          fun out _ hout hdone => ?_
        rw [hout hdone, hempty, Nat.zero_add, eq_of_word? hword]

end BinaryLayout
