import BinaryLayout.Proofs.Layout.Uses
import BinaryLayout.Proofs.Span.Bits

/-!
# Bits as many as predicted

The width of a layout of bits that has no part left to a rule is known before a bit is read. An atom that
is loaded or made under such a layout gets that many bits, and loading hands out no others: an element is
dropped only from an array whose width is not known.

## Main definitions

* `Atom.Predicted`: an atom has the size, or the width, that is known of its layout.
* `Atom.Gathers`, `Frame.Gathers`: an atom of such parts.
* `PredictsBits`: what atoms of bits are made into.

## Main statements

* `predicted_loadBits`: an atom of bits that was loaded.
* `predicted_allocateBits`: default bits.
-/

namespace BinaryLayout

variable {κ : Type}

open Atom BitLoadState

namespace Atom

/-- The atom has the size, or the width, that is known beforehand of its layout. A field whose extent is
forced has that extent instead. -/
structure Predicted (a : Atom κ) : Prop where
  size : ∀ layout size, a.info.layout = .bytes layout → a.info.extent? = none →
    layout.staticSize = some size → a.size = size
  width : ∀ layout width, a.info.layout = .bits layout → layout.staticBits = some width →
    a.bitCount = width

/-- The atom was made where one with this info stood, of parts that are as predicted. -/
structure Gathers (info : Info κ) (a : Atom κ) : Prop where
  layout : a.info.layout = info.layout
  extent : a.info.extent? = info.extent?
  parts : ∀ part ∈ a.parts, Everywhere Predicted part

namespace Gathers

variable {info : Info κ} {a : Atom κ}

/-- An atom without parts. -/
theorem of_nil (hlayout : a.info.layout = info.layout) (hextent : a.info.extent? = info.extent?)
    (hparts : a.parts = []) : a.Gathers info := by
  refine ⟨hlayout, hextent, fun part hpart => ?_⟩
  rw [hparts] at hpart
  cases hpart

theorem ready (h : a.Gathers info) : a.ready.Gathers info := by
  obtain ⟨own, content, parts⟩ := a
  exact ⟨h.layout, h.extent, h.parts⟩

theorem withTail (h : a.Gathers info) (tail : Bytes) : (a.withTail tail).Gathers info := by
  obtain ⟨own, content, parts⟩ := a
  exact ⟨h.layout, h.extent, h.parts⟩

/-- An atom of bytes of its size. -/
theorem predicted {layout : Layout κ} (h : a.Gathers info) (hlayout : info.layout = .bytes layout)
    (hsize : info.extent? = none → ∀ size, layout.staticSize = some size → a.size = size) :
    Everywhere Predicted a := by
  refine everywhere_iff.2 ⟨⟨fun other size hother hnone hstatic => ?_, fun other width hother => ?_⟩,
    h.parts⟩
  · rw [h.layout, hlayout] at hother
    cases hother
    exact hsize (h.extent.symm.trans hnone) size hstatic
  · rw [h.layout, hlayout] at hother
    cases hother

/-- An atom of bits of its width. -/
theorem predicted_bits {layout : BitLayout κ} (h : a.Gathers info) (hlayout : info.layout = .bits layout)
    (hwidth : ∀ width, layout.staticBits = some width → a.bitCount = width) : Everywhere Predicted a := by
  refine everywhere_iff.2 ⟨⟨fun other size hother => ?_, fun other width hother hstatic => ?_⟩, h.parts⟩
  · rw [h.layout, hlayout] at hother
    cases hother
  · rw [h.layout, hlayout] at hother
    cases hother
    exact hwidth width hstatic

end Gathers

end Atom

/-! ## Parts one after another -/

/-- The parts before the gap are as predicted, and there are none after it. -/
structure Frame.Gathers (f : Frame κ) : Prop where
  right : f.right = []
  parts : ∀ part ∈ f.left, Everywhere Predicted part

namespace Frame.Gathers

variable {f : Frame κ}

/-- A frame without parts. -/
theorem start (a : Atom κ) (content : Content) : (a.fill content []).frame.Gathers :=
  ⟨rfl, nofun⟩

/-- One more part. -/
theorem push (hf : f.Gathers) {a : Atom κ} (ha : Everywhere Predicted a) : (f.push a).Gathers :=
  ⟨hf.right, List.forall_mem_cons.2 ⟨ha, hf.parts⟩⟩

/-- An atom that got all its parts. -/
theorem close (hf : f.Gathers) : f.close.Gathers f.info := by
  refine ⟨rfl, rfl, fun part hpart => ?_⟩
  rw [parts_close, hf.right, List.append_nil] at hpart
  exact hf.parts part (List.mem_reverse.1 hpart)

end Frame.Gathers

/-- Nothing is claimed of an atom that was not made. -/
theorem Error.of_absent {P : Prop} {e : Error} (h : some e = none) : P := by
  cases h

/-! ## Loaded bits -/

section Load

variable {env : Env κ} {part : LoadPart (BitLoadM κ) κ} {origin s : BitLoadState κ}

/-- What an atom of bits was made into since `origin`: if its width is known, it has as many bits, and as
many were handed out. -/
def Outcome.PredictsBits (info : Info κ) (known? : Option Nat) (origin : BitLoadState κ) (out : Outcome κ)
    (t : BitLoadState κ) : Prop :=
  out.error? = none → out.atom.Gathers info
    ∧ ∀ width, known? = some width → out.atom.bitCount = width ∧ origin.Hands width t

theorem Outcome.PredictsBits.failed {info : Info κ} {known? : Option Nat} (a : Atom κ) (e : Error) :
    Outcome.PredictsBits info known? origin ⟨a, some e⟩ s :=
  Error.of_absent

def PredictsBits (part : LoadPart (BitLoadM κ) κ) : Prop :=
  ∀ layout frames a s, a.info.layout = .bits layout →
    Ends (part frames a) s (Outcome.PredictsBits a.info layout.staticBits s)

/-- A complete atom of bits. -/
theorem Frame.Gathers.predictsBits {f : Frame κ} (hf : f.Gathers) {known? : Option Nat}
    (hknown : ∀ width, known? = some width → f.close.bitCount = width ∧ origin.Hands width s) :
    Outcome.PredictsBits f.info known? origin ⟨f.close.ready, none⟩ s := by
  refine fun _ => ⟨hf.close.ready, fun width hwidth => ?_⟩
  rw [bitCount_ready]
  exact hknown width hwidth

/-- Handles do not matter for the bits handed out. -/
theorem BitLoadM.hands_spawn (name : String) (layout : BitLayout κ) (offset : Nat) (s : BitLoadState κ) :
    Ends (BitLoadM.ofLedger (LedgerM.spawn name (.bits layout) offset)) s fun blank t =>
      blank.info.layout = .bits layout ∧ ∀ (count : Nat) (u : BitLoadState κ),
        t.Hands count u → s.Hands count u :=
  ⟨rfl, fun _ _ h => h⟩

/-- One more part, and the bits handed out for it. -/
theorem BitLoadState.Hands.push {t : BitLoadState κ} {f : Frame κ} (hf : f.content = .group)
    (hright : f.right = []) (a : Atom κ) (h : origin.Hands f.close.bitCount s)
    (hpart : s.Hands a.bitCount t) : origin.Hands (f.push a).close.bitCount t := by
  rw [Frame.bitCount_push hf hright]
  rw [Hands] at h hpart ⊢
  omega

theorem predicted_loadBitFields (hpart : PredictsBits part) (frames : List (Frame κ)) {f : Frame κ}
    (hf : f.Gathers) (hcontent : f.content = .group) (index cursor : Nat)
    (fields : List (BitField κ (BitLayout κ))) {known? : Option Nat}
    (hknown : ∀ width, known? = some width →
      staticBitsOfFields f.close.bitCount fields = some width ∧ origin.Hands f.close.bitCount s) :
    Ends (loadBitFields env part frames f index cursor fields) s
      (Outcome.PredictsBits f.info known? origin) := by
  induction fields generalizing f index cursor s with
  | nil =>
    refine Ends.pure (hf.predictsBits fun width hwidth => ?_)
    obtain ⟨htotal, hhands⟩ := hknown width hwidth
    cases htotal
    exact ⟨rfl, hhands⟩
  | cons field fields ih =>
    rw [loadBitFields]
    split
    · exact Ends.pure (.failed _ _)
    · rename_i layout hresolve
      refine (BitLoadM.hands_spawn field.name layout cursor s).bind fun blank t ht => ?_
      obtain ⟨hlayout, hstart⟩ := ht
      refine (hpart _ _ _ t hlayout).bind fun out u hout => ?_
      dsimp only
      split
      · exact Ends.pure (.failed _ _)
      · rename_i herror
        obtain ⟨hgathers, hwidth⟩ := hout herror
        have hpredicted := hgathers.predicted_bits hlayout fun width h => (hwidth width h).1
        refine ih (f := f.push out.atom) (hf.push hpredicted) hcontent _ _ fun width h => ?_
        obtain ⟨htotal, hhands⟩ := hknown width h
        obtain ⟨given, bits, hgiven, hbits, hrest⟩ := staticBitsOfFields_cons htotal
        rw [hgiven] at hresolve
        cases hresolve
        obtain ⟨hcount, hmore⟩ := hwidth bits hbits
        rw [← hcount] at hmore hrest
        refine ⟨?_, hhands.push hcontent hf.right out.atom (hstart _ _ hmore)⟩
        rw [Frame.bitCount_push hcontent hf.right]
        exact hrest

/-- If the width of an array of bits is known, the elements from the one at `index` on make up what its
frame leaves of it. -/
def Frame.Lacks (f : Frame κ) (element : BitLayout κ) (shape : BitShape κ) (index : Nat)
    (known? : Option Nat) (origin s : BitLoadState κ) : Prop :=
  ∀ width, known? = some width → ∃ count bits, shape = .counted count ∧ index ≤ count
    ∧ element.staticBits = some bits ∧ width = f.close.bitCount + bits * (count - index)
    ∧ origin.Hands f.close.bitCount s

namespace Frame.Lacks

variable {f : Frame κ} {element : BitLayout κ} {shape : BitShape κ} {index : Nat} {known? : Option Nat}

/-- An array that has all its elements. -/
theorem complete (h : f.Lacks element shape index known? origin s) (hf : f.Gathers)
    (hdone : shape.isComplete index = true) :
    Outcome.PredictsBits f.info known? origin ⟨f.close.ready, none⟩ s := by
  refine hf.predictsBits fun width hwidth => ?_
  obtain ⟨count, bits, rfl, -, -, rfl, hhands⟩ := h width hwidth
  rw [Nat.sub_eq_zero_of_le (of_decide_eq_true hdone), Nat.mul_zero]
  exact ⟨rfl, hhands⟩

/-- A terminated array has no width that is known. -/
theorem terminated {rule : κ} (h : f.Lacks element (.terminated rule) index known? origin s)
    (hf : f.Gathers) (t : BitLoadState κ) :
    Outcome.PredictsBits f.info known? origin ⟨f.close.ready, none⟩ t := by
  refine hf.predictsBits fun width hwidth => ?_
  obtain ⟨count, bits, hcounted, -⟩ := h width hwidth
  cases hcounted

/-- One more element. -/
theorem push {t : BitLoadState κ} (h : f.Lacks element shape index known? origin s) (hf : f.content = .group)
    (hright : f.right = []) (hmore : ¬ shape.isComplete index = true) (a : Atom κ)
    (hwidth : ∀ bits, element.staticBits = some bits → a.bitCount = bits ∧ s.Hands bits t) :
    (f.push a).Lacks element shape (index + 1) known? origin t := by
  intro width hknown
  obtain ⟨count, bits, rfl, -, hbits, rfl, hhands⟩ := h width hknown
  obtain ⟨hcount, hhanded⟩ := hwidth bits hbits
  have hindex : index < count := by simpa [BitShape.isComplete] using hmore
  have hleft : count - index = count - (index + 1) + 1 := by omega
  rw [← hcount] at hhanded
  refine ⟨count, bits, rfl, hindex, hbits, ?_, hhands.push hf hright a hhanded⟩
  rw [Frame.bitCount_push hf hright, hcount, hleft, Nat.mul_succ]
  omega

end Frame.Lacks

theorem predicted_loadBitElements (hpart : PredictsBits part) (element : BitLayout κ)
    (shape : BitShape κ) (frames : List (Frame κ)) (budget : Nat) {f : Frame κ} (hf : f.Gathers)
    (hcontent : f.content = .group) (index cursor : Nat) {known? : Option Nat}
    (hknown : f.Lacks element shape index known? origin s) :
    Ends (loadBitElements env part element shape frames budget f index cursor) s
      (Outcome.PredictsBits f.info known? origin) := by
  induction budget generalizing f index cursor s with
  | zero =>
    rw [loadBitElements]
    split
    · exact Ends.pure (hknown.complete hf ‹_›)
    · exact Ends.pure (.failed _ _)
  | succ budget ih =>
    rw [loadBitElements]
    split
    · exact Ends.pure (hknown.complete hf ‹_›)
    · rename_i hmore
      refine (BitLoadM.hands_spawn (toString index) element cursor s).bind fun blank t ht => ?_
      obtain ⟨hlayout, hstart⟩ := ht
      refine (hpart _ _ _ t hlayout).bind fun out u hout => ?_
      split
      · rename_i shape _ _ herror
        obtain ⟨hgathers, hwidth⟩ := hout herror
        have hpush := hf.push (hgathers.predicted_bits hlayout fun width h => (hwidth width h).1)
        have hnext := hknown.push hcontent hf.right hmore out.atom fun bits hbits =>
          ⟨(hwidth bits hbits).1, hstart _ _ (hwidth bits hbits).2⟩
        split
        · rename_i haccepts
          cases shape with
          | counted count => cases haccepts
          | terminated rule => exact Ends.pure (hnext.terminated hpush u)
        · exact ih (f := f.push out.atom) hpush hcontent _ _ hnext
      · exact Ends.pure (.failed _ _)
      · split
        · exact Ends.pure (.failed _ _)
        · refine (Ends.trivial _ u).bind fun _ v _ => (Ends.trivial _ v).bind fun known w _ => ?_
          split
          · exact (Ends.trivial _ w).bind fun _ x _ => Ends.pure (hknown.terminated hf x)
          · exact Ends.pure (.failed _ _)

/-- An atom of bits that was loaded has the width that is known of its layout, and so has everything in
it. -/
theorem predicted_loadBits (env : Env κ) (depth : Nat) : PredictsBits (loadBits env depth) := by
  induction depth with
  | zero => exact fun _ _ _ _ _ => Ends.pure (.failed _ _)
  | succ depth ih =>
    intro layout frames a s hlayout
    have hstart := Frame.Gathers.start a .group
    have hempty : (a.fill .group []).frame.close.bitCount = 0 := by
      rw [close_frame]
      rfl
    rw [loadBits, hlayout]
    cases layout with
    | int bits signed =>
      refine (BitLoadM.hands_read bits s).bind fun result t ht => ?_
      cases result with
      | error e => exact Ends.pure (.failed _ _)
      | ok value =>
        obtain ⟨hwidth, hhands⟩ := ht
        refine Ends.pure fun _ => ⟨Gathers.ready (.of_nil ?_ ?_ (parts_fill _ _ _)), fun width h => ?_⟩
        · rw [info_fill]
        · rw [info_fill]
        · cases h
          rw [bitCount_ready]
          exact ⟨hwidth, hhands⟩
    | record name fields =>
      refine predicted_loadBitFields (f := (a.fill .group []).frame) ih frames hstart rfl _ _ fields
        fun width hwidth => ?_
      rw [hempty]
      exact ⟨hwidth, rfl⟩
    | array element shape =>
      refine predicted_loadBitElements (f := (a.fill .group []).frame) ih element shape frames _ hstart rfl
        _ _ fun width hwidth => ?_
      cases shape with
      | terminated rule => cases hwidth
      | counted count =>
        rw [BitLayout.staticBits, Option.bind_eq_some_iff] at hwidth
        obtain ⟨bits, hbits, hword⟩ := hwidth
        refine ⟨count, bits, rfl, Nat.zero_le count, hbits, ?_, ?_⟩
        · rw [hempty, eq_of_word? hword, Nat.zero_add, Nat.sub_zero]
        · rw [hempty]
          rfl

end Load

/-! ## Default bits -/

section Allocate

variable {env : Env κ} {part : LoadPart (LedgerM κ) κ}

/-- What atoms of bits are given as default content. -/
def MakesPredictedBits (part : LoadPart (LedgerM κ) κ) : Prop :=
  ∀ layout frames a l, a.info.layout = .bits layout → Ends (part frames a) l fun out _ =>
    out.error? = none → out.atom.Gathers a.info
      ∧ ∀ width, layout.staticBits = some width → out.atom.bitCount = width

theorem gathers_allocateBitFields (hpart : MakesPredictedBits part) (frames : List (Frame κ)) {f : Frame κ}
    (hf : f.Gathers) (index cursor : Nat) (fields : List (BitField κ (BitLayout κ))) (l : Ledger κ) :
    Ends (allocateBitFields env part frames f index cursor fields) l fun out _ =>
      out.error? = none → out.atom.Gathers f.info := by
  induction fields generalizing f index cursor l with
  | nil => exact Ends.pure fun _ => hf.close.ready
  | cons field fields ih =>
    rw [allocateBitFields]
    split
    · exact Ends.pure Error.of_absent
    · rename_i layout _
      refine (Ends.spawn field.name (.bits layout) cursor l).bind fun blank m hblank => ?_
      refine (hpart _ _ _ m hblank.2.1).bind fun out n hout => ?_
      dsimp only
      split
      · exact Ends.pure Error.of_absent
      · obtain ⟨hgathers, hwidth⟩ := hout ‹_›
        exact ih (f := f.push out.atom) (hf.push (hgathers.predicted_bits hblank.2.1 hwidth)) _ _ n

theorem gathers_allocateBitElements (hpart : MakesPredictedBits part) (element : BitLayout κ)
    (frames : List (Frame κ)) (count : Nat) {f : Frame κ} (hf : f.Gathers) (index cursor : Nat)
    (l : Ledger κ) :
    Ends (allocateBitElements part element frames count f index cursor) l fun out _ =>
      out.error? = none → out.atom.Gathers f.info := by
  induction count generalizing f index cursor l with
  | zero => exact Ends.pure fun _ => hf.close.ready
  | succ count ih =>
    rw [allocateBitElements]
    refine (Ends.spawn (toString index) (.bits element) cursor l).bind fun blank m hblank => ?_
    refine (hpart _ _ _ m hblank.2.1).bind fun out n hout => ?_
    dsimp only
    split
    · exact Ends.pure Error.of_absent
    · obtain ⟨hgathers, hwidth⟩ := hout ‹_›
      exact ih (f := f.push out.atom) (hf.push (hgathers.predicted_bits hblank.2.1 hwidth)) _ _ n

/-- Default bits have the width that is known of their layout, and so has everything in them. -/
theorem predicted_allocateBits (env : Env κ) (depth : Nat) :
    MakesPredictedBits (allocateBits env depth) := by
  induction depth with
  | zero => exact fun _ _ _ _ _ => Ends.pure Error.of_absent
  | succ depth ih =>
    intro layout frames a l hlayout
    suffices hgathers : Ends (allocateBits env (depth + 1) frames a) l fun out _ =>
        out.error? = none → out.atom.Gathers a.info from
      fun herror => ⟨hgathers herror, fun width h =>
        keepsWidth_allocateBits env (depth + 1) frames a layout width l hlayout h herror⟩
    rw [allocateBits, hlayout]
    have hclear : Ends (LedgerM.clear a) l fun b _ => b = a.cleared := rfl
    refine hclear.bind fun b m hb => ?_
    subst hb
    have hback {b : Atom κ} (h : b.Gathers a.cleared.info) : b.Gathers a.info := by
      obtain ⟨info, content, parts⟩ := a
      exact ⟨h.layout, h.extent, h.parts⟩
    have hstart := Frame.Gathers.start a.cleared .group
    cases layout with
    | int bits signed =>
      refine Ends.pure fun _ => hback (Gathers.ready (.of_nil ?_ ?_ (parts_fill _ _ _)))
      · rw [info_fill]
      · rw [info_fill]
    | record name fields =>
      exact (gathers_allocateBitFields (f := (a.cleared.fill .group []).frame) ih frames hstart _ _ fields
        m).mono fun _ _ hout herror => hback (hout herror)
    | array element shape =>
      exact (gathers_allocateBitElements (f := (a.cleared.fill .group []).frame) ih element frames _ hstart
        _ _ m).mono fun _ _ hout herror => hback (hout herror)

end Allocate

end BinaryLayout
