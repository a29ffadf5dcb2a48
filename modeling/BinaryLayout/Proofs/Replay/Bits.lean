import BinaryLayout.Proofs.Bitmap.Vector
import BinaryLayout.Proofs.Ending.Bits
import BinaryLayout.Proofs.Locality.Bits
import BinaryLayout.Proofs.Replay.View

/-!
# Reading bits twice

Bits are read from one byte after another, so two views need to agree in single bytes only, and no
further than the bits reach. What is read is bits of known width: so many bits are handed out, unless
the bytes run out. The bits handed out and those still pending are those of the bytes read.

## Main definitions

* `View.Spells`: bytes that a view gives one at a time.
* `BitLoadState.Handed`: bits that were handed out between two states.
* `BitLoadState.Echoes`: states from which the same bits are read.
* `Atom.SteadyBits`: what is known of an atom of bits of known width.

## Main statements

* `echo_loadBits`: an atom of bits, loaded twice.
-/

namespace BinaryLayout

variable {κ α : Type} {stop : Nat}

open Atom

/-! ## Bytes one at a time -/

namespace View

/-- The view gives these bytes one at a time, the first of them at `k`. -/
def Spells (v : View) (k : Nat) : Bytes → Prop
  | [] => True
  | b :: bytes => v.given k 1 = .ok [b] ∧ v.Spells (k + 1) bytes

theorem spells_append {v : View} {k : Nat} {bytes more : Bytes} :
    v.Spells k (bytes ++ more) ↔ v.Spells k bytes ∧ v.Spells (k + bytes.length) more := by
  induction bytes generalizing k with
  | nil => simp [Spells]
  | cons b bytes ih =>
    rw [List.cons_append, Spells, Spells, ih, List.length_cons, and_assoc, Nat.add_assoc,
      Nat.add_comm 1]

theorem Spells.of_rewound {v w : View} {k : Nat} {bytes : Bytes} (h : v.Spells k bytes)
    (hv : w.rewound = v.rewound) : w.Spells k bytes := by
  induction bytes generalizing k with
  | nil => trivial
  | cons b bytes ih =>
    refine ⟨?_, ih h.2⟩
    rw [← given_rewound, hv, given_rewound]
    exact h.1

end View

/-! ## Bits handed out -/

namespace BitLoadState

/-- Between the states these bits were handed out: with the bits pending afterwards, they are the bits
pending before and those of the bytes read. A whole byte may be pending. -/
structure Gave (bits : List Bool) (s t : BitLoadState κ) : Prop where
  order : t.order = s.order
  view : t.base.view.rewound = s.base.view.rewound
  bytes : ∃ read, s.base.view.Spells s.next read ∧ t.next = s.next + read.length
    ∧ s.pending ++ read.flatMap (BitStream.ofByte s.order) = bits ++ t.pending

/-- Bits were handed out, and a byte that was begun is still not a whole one. -/
structure Handed (bits : List Bool) (s t : BitLoadState κ) : Prop extends Gave bits s t where
  few : s.pending.length < 8 → t.pending.length < 8

variable {bits more : List Bool} {s t u : BitLoadState κ}

theorem Gave.trans (h : s.Gave bits t) (h' : t.Gave more u) : s.Gave (bits ++ more) u := by
  obtain ⟨horder, hview, read, hread, hnext, hbits⟩ := h
  obtain ⟨horder', hview', read', hread', hnext', hbits'⟩ := h'
  refine ⟨horder'.trans horder, hview'.trans hview, read ++ read', ?_, ?_, ?_⟩
  · rw [View.spells_append, ← hnext]
    exact ⟨hread, hread'.of_rewound hview.symm⟩
  · rw [hnext', hnext, List.length_append, Nat.add_assoc]
  · rw [List.flatMap_append, ← List.append_assoc, hbits, ← horder, List.append_assoc, hbits',
      List.append_assoc]

/-- The pending bits are handed out in their order. -/
theorem gave_skip (s : BitLoadState κ) (count : Nat) : s.Gave (s.pending.take count) (s.skip count) :=
  ⟨rfl, rfl, [], trivial, rfl, by simp⟩

namespace Handed

theorem refl (s : BitLoadState κ) : s.Handed [] s :=
  ⟨⟨rfl, rfl, [], trivial, rfl, by simp⟩, id⟩

theorem trans (h : s.Handed bits t) (h' : t.Handed more u) : s.Handed (bits ++ more) u :=
  ⟨h.toGave.trans h'.toGave, h'.few ∘ h.few⟩

/-- Handles do not matter. -/
theorem of_base {base : LoadState κ} (hbase : base.view = s.base.view) (h : s.Handed bits t) :
    Handed bits { s with base } t := by
  obtain ⟨⟨horder, hview, read, hread, hnext, hbits⟩, hfew⟩ := h
  exact ⟨⟨horder, hview.trans (congrArg View.rewound hbase.symm), read,
    hread.of_rewound (congrArg View.rewound hbase), hnext, hbits⟩, hfew⟩

/-- How many bits were handed out. -/
theorem length (h : s.Handed bits t) :
    ∃ n, t.next = s.next + n ∧ s.pending.length + 8 * n = bits.length + t.pending.length := by
  obtain ⟨-, -, read, -, hnext, hbits⟩ := h.toGave
  have hlength := congrArg List.length hbits
  rw [List.length_append, List.length_append, BitStream.length_flatMap_ofByte] at hlength
  exact ⟨read.length, hnext, hlength⟩

end Handed

/-- How many bits can be handed out before the offset `stop` is reached. -/
def room (stop : Nat) (s : BitLoadState κ) : Nat := s.pending.length + 8 * (stop - s.next)

/-- The readers of bits are the same, and both views stand at the next byte and give the same bytes from
there up to the offset `stop`. -/
structure Echoes (stop : Nat) (s s' : BitLoadState κ) : Prop where
  reader : s'.reader = s.reader
  next : s'.next = s.next
  inside : s.next ≤ stop
  left : s.base.view.StandsAt s.next
  right : s'.base.view.StandsAt s.next
  bytes : ∀ k, s.next ≤ k → k < stop →
    Echo SourceError.isConsume (s.base.view.given k 1) (s'.base.view.given k 1)

/-- Handing out bits takes as much room as they need. -/
theorem Handed.room {bits : List Bool} {s t : BitLoadState κ} (h : s.Handed bits t)
    (hinside : t.next ≤ stop) : t.room stop + bits.length = s.room stop := by
  obtain ⟨n, hnext, hlength⟩ := h.length
  rw [BitLoadState.room, BitLoadState.room]
  omega

end BitLoadState

/-! ## Reading -/

namespace BitLoadM

variable {s s' : BitLoadState κ}

/-- What one byte changes. -/
structure Fetched (s t : BitLoadState κ) (b : UInt8) : Prop where
  given : s.base.view.given s.next 1 = .ok [b]
  view : t.base.view.rewound = s.base.view.rewound
  stands : t.base.view.StandsAt t.next
  reader : t.reader = s.reader.refill b
  next : t.next = s.next + 1

theorem Fetched.gave {t : BitLoadState κ} {b : UInt8} (h : Fetched s t b) (hnil : s.pending = []) :
    s.Gave [] t := by
  refine ⟨congrArg (fun r => r.order) h.reader, h.view, [b], ⟨h.given, trivial⟩, h.next, ?_⟩
  have hpending := s.reader.pending_refill b
  rw [← h.reader] at hpending
  rw [hnil, List.flatMap_cons, List.flatMap_nil, List.append_nil]
  exact hpending.symm

/-- What reading a byte where the view stands leaves. -/
theorem ends_next {s : LoadState κ} {offset : Nat} (h : s.view.StandsAt offset) :
    Ends (LoadM.next 1) s fun result t => t.view.rewound = s.view.rewound ∧ result = s.view.given offset 1
      ∧ ∀ bytes, result = .ok bytes → bytes.length = 1 ∧ t.view.StandsAt (offset + 1) := by
  obtain ⟨hgiven, hat⟩ := View.consume_given h 1
  refine ⟨View.rewound_consume s.view 1, hgiven, fun bytes hbytes => ⟨?_, hat bytes hbytes⟩⟩
  have hread : s.view.consume 1 = (.ok bytes, (s.view.consume 1).2) := Prod.ext hbytes rfl
  exact View.length_consume hread

/-- A byte that the view gives is fetched. -/
theorem fetched_fetch (h : s.base.view.StandsAt s.next) {b : UInt8}
    (hgiven : s.base.view.given s.next 1 = .ok [b]) :
    Ends fetch s fun result t => result = .ok () ∧ Fetched s t b := by
  refine ends_fetch ((ends_next h).mono fun result base ht => ?_)
  obtain ⟨hview, hresult, hstands⟩ := ht
  obtain rfl := hresult.trans hgiven
  exact ⟨rfl, hgiven, hview, (hstands [b] rfl).2, rfl, rfl⟩

/-- Where the first run found too few bytes, so did the second. -/
def RanOut (e : Error) (_ : BitLoadState κ) (result : Except Error Unit) (_ : BitLoadState κ) : Prop :=
  e.isConsume = true → ∃ e', result = .error e' ∧ e'.isConsume = true

theorem isConsume_fetchError (next : Nat) (e : SourceError) : (fetchError next e).isConsume = e.isConsume := by
  cases e <;> rfl

theorem echo_fetch (h : s.Echoes stop s') (hroom : s.next < stop) :
    Together fetch fetch s s' (Twice (fun _ t t' => t.Echoes stop t' ∧ ∃ b, Fetched s t b) (fun _ => False)
      RanOut) := by
  refine together_fetch ((Together.each (ends_next h.left) (ends_next h.right)).mono fun result t result' t' ht => ?_)
  obtain ⟨⟨hview, hresult, hstands⟩, hview', hresult', hstands'⟩ := ht
  have hecho := h.bytes s.next (Nat.le_refl _) hroom
  rw [← hresult, ← hresult'] at hecho
  cases hecho with
  | same bytes =>
    obtain ⟨hlength, hat⟩ := hstands bytes rfl
    obtain ⟨b, rfl⟩ := List.length_eq_one_iff.1 hlength
    refine .inr ⟨rfl, ⟨congrArg (BitReader.refill · b) h.reader, congrArg (· + 1) h.next, hroom, hat,
      (hstands' [b] rfl).2, fun k hk hstop => ?_⟩, b, hresult.symm, hview, hat, rfl, rfl⟩
    show Echo _ (t.view.given k 1) (t'.view.given k 1)
    rw [← View.given_rewound, hview, View.given_rewound, ← t'.view.given_rewound, hview', View.given_rewound]
    exact h.bytes k (Nat.le_of_succ_le hk) hstop
  | short he he' => exact fun _ => ⟨_, rfl, (isConsume_fetchError _ _).trans he'⟩
  | lost he => exact fun hconsume => by cases he.symm.trans ((isConsume_fetchError _ _).symm.trans hconsume)

/-- A field of bits handed out. -/
theorem echo_read (width : Nat) (h : s.Echoes stop s') (hroom : width ≤ s.room stop) :
    Together (read width) (read width) s s'
      (Echoed (fun value t t' => t.Echoes stop t' ∧ value.width = width
        ∧ s.Handed (value.stream s.order) t) fun _ _ => True) := by
  refine (twice_read (fun done t t' => t.Echoes stop t' ∧ s.Handed done t)
    (fun done t t' => t.Echoes stop t' ∧ s.Gave done t) (fun _ => False) (RanOut)
    (fun _ _ _ h => h.1.reader) (fun _ _ _ h => h.1.reader) (fun done t t' hmore ht hnone => ?_)
    (fun _ _ _ ht _ => ⟨ht.1, ht.2.toGave⟩) (fun done t t' count hpos hle _ ht => ?_)
    (fun e t t' h result u hconsume => ?_) (fun _ h => h.elim) (fun _ _ h => h) ⟨h, .refl s⟩).mono
    fun result t result' t' ht => ?_
  · obtain ⟨hecho, hhanded⟩ := ht
    have hnil := t.pending_eq_nil.2 hnone
    have hleft := hhanded.room hecho.inside
    rw [BitLoadState.room, hnil, List.length_nil] at hleft
    refine (echo_fetch hecho (by omega)).mono fun result u result' u' hu => ?_
    cases result with
    | error e => exact hu
    | ok _ =>
      refine hu.imp_right fun ⟨hresult, hecho, b, hfetched⟩ => ⟨hresult, hecho, ?_⟩
      simpa using hhanded.toGave.trans (hfetched.gave hnil)
  · obtain ⟨hecho, hgave⟩ := ht
    refine ⟨⟨congrArg (BitReader.skip · count) hecho.reader, hecho.next, hecho.inside, hecho.left, hecho.right,
      hecho.bytes⟩, hgave.trans (BitLoadState.gave_skip t count), fun _ => ?_⟩
    have hmost := t.pending_le
    rw [BitLoadState.pending_skip, List.length_drop]
    omega
  · obtain ⟨e', hresult, -⟩ := h hconsume
    cases hresult
  · cases result with
    | ok value =>
      obtain ⟨rfl, bits, hlength, rfl, -, hecho, hhanded⟩ := ht.resolve_left id
      refine .same ⟨hecho, (Bitmap.width_ofStream _ _).trans hlength, ?_⟩
      rwa [Bitmap.stream_ofStream]
    | error e =>
      cases he : e.isConsume with
      | false => exact .lost he
      | true =>
        obtain ⟨e', hresult, he'⟩ := ht he
        cases result' with
        | ok value => cases hresult
        | error e'' =>
          cases hresult
          exact .short he he' trivial

end BitLoadM

/-! ## Atoms of bits -/

/-- So many unused bits as fill the last byte after so many used ones. -/
def Bitmap.Fills (used : Nat) (pad : Bitmap) : Prop := pad.width = (8 - used % 8) % 8

/-- What is known of an atom of bits that was loaded whole: an integer has the width and the sign that
its layout asks for, and the fields of a record have its names. -/
def Atom.SteadyBits (a : Atom κ) : Prop :=
  match a.info.layout with
  | .bits (.int bits signed) => ∃ value, a.content = .bits value ∧ a.parts = [] ∧ value.width = bits
      ∧ value.signed = signed ∧ bits ≤ 127
  | .bits (.record _ fields) => a.content = .group
      ∧ a.parts.map (fun part => part.info.name) = fields.map BitField.name
      ∧ (fields.map BitField.name).Nodup ∧ ∀ field ∈ fields, ∃ layout, field.layout = .given layout
  | .bits (.array ..) => a.content = .group
  | .bytes _ => False

/-- The frame's atom with these parts where the gap was. -/
def Frame.filled (f : Frame κ) (parts : List (Atom κ)) : Atom κ :=
  .node f.info f.content (f.left.reverse ++ parts)

theorem Frame.filled_push (f : Frame κ) (a : Atom κ) (parts : List (Atom κ)) :
    (f.push a).filled parts = f.filled (a :: parts) := by
  rw [filled, filled, push, List.reverse_cons, List.append_assoc]
  rfl

theorem Frame.close_eq_filled {f : Frame κ} (h : f.right = []) : f.close = f.filled [] := by
  rw [close, filled, List.reverseAux_eq, h]

/-- What became of the same atom of bits twice: both times it is the same, with the bits that were
handed out for it, or the bytes ran out. -/
inductive Outcome.EchoedBits (width stop : Nat) (site : Info κ) (s : BitLoadState κ) :
    Outcome κ → BitLoadState κ → Outcome κ → BitLoadState κ → Prop
  | same {a a' : Atom κ} {t t' : BitLoadState κ} (hplain : a.plain = a'.plain)
    (hsite : a.info.site = site) (hsteady : Everywhere SteadyBits a) (hwidth : a.bitCount = width)
    (hhanded : s.Handed (a.stream s.order) t) (h : t.Echoes stop t') :
    EchoedBits width stop site s ⟨a, none⟩ t ⟨a', none⟩ t'
  | short {a a' : Atom κ} {e e' : Error} {t t' : BitLoadState κ} (he : e.isConsume = true)
    (he' : e'.isConsume = true) : EchoedBits width stop site s ⟨a, some e⟩ t ⟨a', some e'⟩ t'
  | lost {a : Atom κ} {e : Error} {t t' : BitLoadState κ} {right : Outcome κ} (he : e.isConsume = false) :
    EchoedBits width stop site s ⟨a, some e⟩ t right t'

/-- What became of the same parts twice, of the given names, after those that stand in the frame. -/
inductive Outcome.PartsEchoed (width stop : Nat) (names : List String) (f : Frame κ) (s : BitLoadState κ) :
    Outcome κ → BitLoadState κ → Outcome κ → BitLoadState κ → Prop
  | same {parts : List (Atom κ)} {a' : Atom κ} {t t' : BitLoadState κ}
    (hplain : (f.filled parts).plain = a'.plain)
    (hnames : parts.map (fun part => part.info.name) = names) (hsteady : EverywhereIn SteadyBits parts)
    (hwidth : bitCounts parts = width) (hhanded : s.Handed (streams s.order parts) t)
    (h : t.Echoes stop t') :
    PartsEchoed width stop names f s ⟨(f.filled parts).ready, none⟩ t ⟨a', none⟩ t'
  | short {a a' : Atom κ} {e e' : Error} {t t' : BitLoadState κ} (he : e.isConsume = true)
    (he' : e'.isConsume = true) : PartsEchoed width stop names f s ⟨a, some e⟩ t ⟨a', some e'⟩ t'
  | lost {a : Atom κ} {e : Error} {t t' : BitLoadState κ} {right : Outcome κ} (he : e.isConsume = false) :
    PartsEchoed width stop names f s ⟨a, some e⟩ t right t'

namespace Outcome.PartsEchoed

variable {width rest : Nat} {names : List String} {f f' : Frame κ} {s t : BitLoadState κ}
  {out out' : Outcome κ} {u u' : BitLoadState κ}

/-- No more parts. -/
theorem done {t' : BitLoadState κ} (hf : f.plain = f'.plain) (hright : f.right = [])
    (h : t.Echoes stop t') :
    PartsEchoed 0 stop [] f t ⟨f.close.ready, none⟩ t ⟨f'.close.ready, none⟩ t' := by
  have hplain : (f.filled []).plain = f'.close.ready.plain := by
    rw [← Frame.close_eq_filled hright, plain_ready, Frame.close_of_plain hf]
  rw [Frame.close_eq_filled hright]
  exact .same hplain rfl trivial rfl (.refl t) h

/-- One part before the others. -/
theorem cons {a : Atom κ} (hsteady : Everywhere SteadyBits a) (hwidth : a.bitCount = width)
    (hhanded : s.Handed (a.stream s.order) t)
    (h : PartsEchoed rest stop names (f.push a) t out u out' u') :
    PartsEchoed (width + rest) stop (a.info.name :: names) f s out u out' u' := by
  cases h with
  | same hplain hnames hparts hrest hmore h =>
    rw [Frame.filled_push] at hplain ⊢
    refine .same hplain (congrArg (List.cons _) hnames) ⟨hsteady, hparts⟩ ?_ ?_ h
    · rw [bitCounts, hwidth, hrest]
    · rw [streams, ← hhanded.order]
      rw [← hhanded.order] at hhanded
      exact hhanded.trans hmore
  | short he he' => exact .short he he'
  | lost he => exact .lost he

/-- The whole atom. -/
theorem whole {site : Info κ} (h : PartsEchoed width stop names f s out u out' u')
    (hsite : f.info.site = site) (hleft : f.left = []) (hcontent : f.content = .group)
    (hsteady : ∀ parts : List (Atom κ), parts.map (fun part => part.info.name) = names →
      SteadyBits (f.filled parts).ready) : EchoedBits width stop site s out u out' u' := by
  cases h with
  | @same parts a' t t' hplain hnames hparts hwidth hhanded h =>
    have hfilled : f.filled parts = .node f.info .group parts := by
      rw [Frame.filled, hleft, hcontent]
      rfl
    refine .same ?_ ?_ (everywhere_iff.2 ⟨hsteady parts hnames, ?_⟩) ?_ ?_ h
    · rw [plain_ready, hplain]
    · rw [site_ready]
      exact hsite
    · rw [parts_ready, hfilled]
      exact everywhereIn_iff.1 hparts
    · rw [hfilled]
      exact hwidth
    · rw [stream_ready, hfilled]
      exact hhanded
  | short he he' => exact .short he he'
  | lost he => exact .lost he

end Outcome.PartsEchoed

section Load

variable {env : Env κ} {part part' : LoadPart (BitLoadM κ) κ}

/-- What two views that give the same bytes up to `stop` make of atoms of bits of known width. -/
def EchoedBits (rules : Rules κ) (part part' : LoadPart (BitLoadM κ) κ) : Prop :=
  ∀ {stop width : Nat} {frames frames' : List (Frame κ)} {a a' : Atom κ} {layout : BitLayout κ}
    {s s' : BitLoadState κ}, a.info.layout = .bits layout → layout.Settable rules →
    layout.staticBits = some width → a.info.plain = a'.info.plain → s.Echoes stop s' →
    width ≤ s.room stop →
      Together (part frames a) (part' frames' a') s s' (Outcome.EchoedBits width stop a.info.site s)

/-- Handles do not matter to what is read. -/
theorem echo_spawnBits {s s' : BitLoadState κ} (h : s.Echoes stop s') (name : String)
    (layout : AtomLayout κ) (offset : Nat) :
    Together (BitLoadM.ofLedger (LedgerM.spawn name layout offset))
      (BitLoadM.ofLedger (LedgerM.spawn name layout offset)) s s' fun a t a' t' =>
        a.info.layout = layout ∧ a.info.name = name ∧ a.info.plain = a'.info.plain ∧ t.Echoes stop t'
          ∧ ∃ base : LoadState κ, t = { s with base } ∧ base.view = s.base.view :=
  ⟨rfl, rfl, rfl, ⟨h.reader, h.next, h.inside, h.left, h.right, h.bytes⟩, _, rfl, rfl⟩

theorem echo_loadBitFields (hpart : EchoedBits env.rules part part') (frames frames' : List (Frame κ))
    {f f' : Frame κ} (hf : f.plain = f'.plain) (hright : f.right = []) (index cursor : Nat)
    {fields : List (BitField κ (BitLayout κ))} {total width : Nat}
    (hstatic : staticBitsOfFields total fields = some (total + width))
    (hfields : ∀ field ∈ fields, ∀ layout, field.layout = .given layout →
      layout.staticBits.isSome = true → layout.Settable env.rules)
    {s s' : BitLoadState κ} (h : s.Echoes stop s') (hroom : width ≤ s.room stop) :
    Together (loadBitFields env part frames f index cursor fields)
      (loadBitFields env part' frames' f' index cursor fields) s s'
      (Outcome.PartsEchoed width stop (fields.map BitField.name) f s) := by
  induction fields generalizing f f' index cursor total width s s' with
  | nil =>
    rw [staticBitsOfFields, Option.some.injEq] at hstatic
    obtain rfl : width = 0 := by omega
    exact Together.pure (.done hf hright h)
  | cons field fields ih =>
    obtain ⟨layout, bits, hgiven, hbits, hrest⟩ := staticBitsOfFields_cons hstatic
    have hle := le_of_staticBitsOfFields hrest
    obtain ⟨rest, rfl⟩ : ∃ rest, width = bits + rest := ⟨width - bits, by omega⟩
    rw [List.forall_mem_cons] at hfields
    have hsettable := hfields.1 layout hgiven (by rw [hbits]; rfl)
    rw [loadBitFields, loadBitFields, hgiven]
    refine (echo_spawnBits h field.name (.bits layout) cursor).bind fun blank t blank' t' ht => ?_
    obtain ⟨hlayout, hname, hplain, hecho, base, rfl, hbase⟩ := ht
    refine (hpart hlayout hsettable hbits hplain hecho (Nat.le_trans (Nat.le_add_right _ _) hroom)).bind
      fun out u out' u' hu => ?_
    cases hu with
    | @same a a' u u' hsame hsite hsteady hwidth hhanded hnext =>
      have hhanded : s.Handed (a.stream s.order) u := hhanded.of_base (s := { s with base }) hbase.symm
      have hleft := hhanded.room hnext.inside
      rw [length_stream, hwidth] at hleft
      have hothers : staticBitsOfFields (total + bits) fields = some (total + bits + rest) := by
        rw [hrest, Nat.add_assoc]
      have hmore := ih (Frame.push_of_plain hf hsame) hright (index + 1) (satAdd cursor a.bits) hothers
        hfields.2 hnext (by omega)
      have hcons := hmore.mono fun _ _ _ _ hv => Outcome.PartsEchoed.cons hsteady hwidth hhanded hv
      rw [Info.name_of_site hsite, hname, bits_of_plain hsame] at hcons
      dsimp only
      rw [bits_of_plain hsame]
      exact hcons
    | short he he' =>
      exact Outcome.PartsEchoed.short ((Error.isConsume_within _ _).trans he)
        ((Error.isConsume_within _ _).trans he')
    | lost he => exact Outcome.PartsEchoed.lost ((Error.isConsume_within _ _).trans he)

theorem echo_loadBitElements (hpart : EchoedBits env.rules part part') {element : BitLayout κ}
    (helement : element.Settable env.rules) {bits : Nat} (hbits : element.staticBits = some bits)
    (count : Nat) (frames frames' : List (Frame κ)) (budget : Nat) {f f' : Frame κ}
    (hf : f.plain = f'.plain) (hright : f.right = []) (index cursor : Nat) {s s' : BitLoadState κ}
    (h : s.Echoes stop s') (hroom : bits * (count - index) ≤ s.room stop) :
    Together (loadBitElements env part element (.counted count) frames budget f index cursor)
      (loadBitElements env part' element (.counted count) frames' budget f' index cursor) s s'
      (Outcome.PartsEchoed (bits * (count - index)) stop
        ((List.range' index (count - index)).map toString) f s) := by
  have hdone (hcomplete : count ≤ index) : Outcome.PartsEchoed (bits * (count - index)) stop
      ((List.range' index (count - index)).map toString) f s ⟨f.close.ready, none⟩ s
      ⟨f'.close.ready, none⟩ s' := by
    rw [Nat.sub_eq_zero_of_le hcomplete]
    exact .done hf hright h
  have hcomplete (n : Nat) : (BitShape.counted count : BitShape κ).isComplete n = decide (count ≤ n) := rfl
  induction budget generalizing f f' index cursor s s' with
  | zero =>
    rw [loadBitElements, loadBitElements, hcomplete]
    split
    · exact Together.pure (hdone (of_decide_eq_true ‹_›))
    · exact Together.pure (.lost rfl)
  | succ budget ih =>
    rw [loadBitElements, loadBitElements, hcomplete]
    split
    · exact Together.pure (hdone (of_decide_eq_true ‹_›))
    · rename_i hmissing
      have hlt : index < count := by simpa using hmissing
      obtain ⟨rest, hrest⟩ : ∃ rest, count - index = rest + 1 := ⟨count - index - 1, by omega⟩
      have hafter : count - (index + 1) = rest := by omega
      rw [hrest, Nat.mul_succ] at hroom
      refine (echo_spawnBits h (toString index) (.bits element) cursor).bind fun blank t blank' t' ht => ?_
      obtain ⟨hlayout, hname, hplain, hecho, base, rfl, hbase⟩ := ht
      have hfirst : bits ≤ BitLoadState.room stop { s with base } :=
        Nat.le_trans (Nat.le_add_left _ _) hroom
      refine (hpart hlayout helement hbits hplain hecho hfirst).bind fun out u out' u' hu => ?_
      cases hu with
      | @same a a' u u' hsame hsite hsteady hwidth hhanded hnext =>
        have hhanded : s.Handed (a.stream s.order) u := hhanded.of_base (s := { s with base }) hbase.symm
        have hleft := hhanded.room hnext.inside
        rw [length_stream, hwidth] at hleft
        have hmore := ih (Frame.push_of_plain hf hsame) hright (index + 1) (satAdd cursor a.bits) hnext
          (by rw [hafter]; omega) (fun hle => by
            rw [Nat.sub_eq_zero_of_le hle]
            exact .done (Frame.push_of_plain hf hsame) hright hnext)
        have hcons := hmore.mono fun _ _ _ _ hv => Outcome.PartsEchoed.cons hsteady hwidth hhanded hv
        rw [Info.name_of_site hsite, hname, bits_of_plain hsame, hafter] at hcons
        rw [hrest, List.range'_succ, List.map_cons, Nat.mul_succ, Nat.add_comm (bits * rest)]
        dsimp only
        rw [bits_of_plain hsame]
        exact hcons
      | short he he' =>
        exact Outcome.PartsEchoed.short ((Error.isConsume_within _ _).trans he)
          ((Error.isConsume_within _ _).trans he')
      | lost he => exact Outcome.PartsEchoed.lost ((Error.isConsume_within _ _).trans he)

/-- An atom of bits of known width. -/
theorem echo_loadBits (env : Env κ) {depth depth' : Nat} (hdepth : depth ≤ depth') :
    EchoedBits env.rules (loadBits env depth) (loadBits env depth') := by
  induction depth generalizing depth' with
  | zero =>
    intro stop width frames frames' a a' layout s s' _ _ _ _ _ _
    refine Together.left (p := fun out _ => ∃ a e, out = ⟨a, some e⟩ ∧ e.isConsume = false)
      ⟨_, _, rfl, rfl⟩ fun out _ _ _ hout => ?_
    obtain ⟨_, _, rfl, he⟩ := hout
    exact .lost he
  | succ depth ih =>
    obtain ⟨depth', rfl⟩ : ∃ d, depth' = d + 1 := ⟨depth' - 1, by omega⟩
    have hinner : EchoedBits env.rules (loadBits env depth) (loadBits env depth') :=
      ih (Nat.le_of_succ_le_succ hdepth)
    intro stop width frames frames' a a' layout s s' hlayout hsettable hstatic hplain h hroom
    have hframe : (a.fill .group []).frame.plain = (a'.fill .group []).frame.plain := by
      rw [Frame.plain_frame, Frame.plain_frame, plain_fill_of_info hplain .group rfl]
    rw [loadBits, loadBits, ← Info.layout_of_seat (Info.seat_of_plain hplain), hlayout,
      ← Info.offset_of_seat (Info.seat_of_plain hplain)]
    cases layout with
    | int bits signed =>
      cases hstatic
      refine (BitLoadM.echo_read width h hroom).bind fun result t result' t' ht => ?_
      cases ht with
      | @same value t t' hvalue =>
        obtain ⟨hecho, hwidth, hhanded⟩ := hvalue
        refine Together.pure (.same ?_ (site_ready _) ?_ hwidth ?_ hecho)
        · rw [plain_ready, plain_ready, plain_fill_of_info hplain _ rfl]
        · refine everywhere_iff.2 ⟨?_, fun _ h => by cases h⟩
          show SteadyBits (.node { a.info with initialized := true } (.bits (value.withSign signed)) [])
          rw [SteadyBits, info_node, hlayout]
          exact ⟨_, rfl, rfl, hwidth, rfl, hsettable.ints _ _ (.here _)⟩
        · show s.Handed ((value.withSign signed).stream s.order) t
          rw [Bitmap.stream_withSign]
          exact hhanded
      | short he he' _ => exact Together.pure (.short he he')
      | lost he => exact Outcome.EchoedBits.lost he
    | record name fields =>
      have hfields : ∀ field ∈ fields, ∀ layout, field.layout = .given layout →
          layout.staticBits.isSome = true → layout.Settable env.rules := by
        intro field hfield layout hgiven hsome
        refine hsettable.inner (.field hfield ?_ (.here layout)) hsome
        rw [hgiven]
        rfl
      have hwidth : staticBitsOfFields 0 fields = some (0 + width) := by
        rw [Nat.zero_add]
        exact hstatic
      refine (echo_loadBitFields hinner frames frames' hframe rfl 0 a.info.offset hwidth hfields h
        hroom).mono fun out t out' t' ht => ht.whole rfl rfl rfl fun parts hnames => ?_
      show SteadyBits (.node { a.info with initialized := true } .group parts)
      rw [SteadyBits, info_node, hlayout]
      exact ⟨rfl, hnames, hsettable.names _ _ (.here _), fun field hfield =>
        (BitLayout.given_of_staticBitsOfFields hstatic field hfield).imp fun _ h => h.1⟩
    | array element shape =>
      obtain ⟨count, bits, rfl, hbits, rfl⟩ := BitLayout.static_of_array hstatic
      have helement : element.Settable env.rules :=
        hsettable.inner (.element (.here _)) (by rw [hbits]; rfl)
      refine (echo_loadBitElements hinner helement hbits count frames frames' env.config.maxElements
        hframe rfl 0 a.info.offset h hroom).mono fun out t out' t' ht =>
          ht.whole rfl rfl rfl fun parts _ => ?_
      show SteadyBits (.node { a.info with initialized := true } .group parts)
      rw [SteadyBits, info_node, hlayout]
      rfl

end Load

end BinaryLayout
