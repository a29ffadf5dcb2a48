import BinaryLayout.Proofs.Bitmap.Vector
import BinaryLayout.Proofs.Layout.Uses
import BinaryLayout.Proofs.RoundTrip.Read

/-!
# Bits that were read

The bits handed out while a host is loaded, followed by the pending ones, are those of the bytes read
so far. An atom of bits keeps the bits that were handed out for it, unless an element of an array
that a rule ends was dropped; so under a layout without such arrays no bit is lost.

## Main definitions

* `BitLoadState.Follows`: the bits handed out and the pending ones are those of the bytes read.

## Main statements

* `follows_loadBits`: an atom of bits keeps what was handed out for it.
* `BitLoadState.Follows.pack_close`: the bytes of a host that was read.
-/

namespace BinaryLayout

variable {κ : Type} {data : Bytes} {order : ByteOrder} {start : Nat}

open Atom

/-- The bits `handed` out since the byte at `start`, followed by the pending ones, are those of the
bytes read from there on. -/
structure BitLoadState.Follows (data : Bytes) (order : ByteOrder) (start : Nat) (handed : List Bool)
    (s : BitLoadState κ) : Prop where
  shows : s.base.Shows data
  packing : s.order = order
  few : s.pending.length < 8
  bytes : ∃ read, read <+: data.drop start ∧ s.base.Stands (start + read.length)
    ∧ handed ++ s.pending = read.flatMap (BitStream.ofByte order)

namespace BitLoadM

open BitLoadState

variable {handed : List Bool} {s : BitLoadState κ}

/-- What holds while bits are handed out: no bit is lost, and a whole byte may be pending. -/
def Streams (data : Bytes) (order : ByteOrder) (start : Nat) (handed : List Bool) (s : BitLoadState κ) : Prop :=
  s.base.Shows data ∧ s.order = order ∧ ∃ read, read <+: data.drop start
    ∧ s.base.Stands (start + read.length) ∧ handed ++ s.pending = read.flatMap (BitStream.ofByte order)

/-- The bits of a byte that was fetched come next. -/
theorem follows_fetch (hs : s.Follows data order start handed) (hnil : s.pending = []) :
    Ends fetch s fun result t =>
      match result with
      | .ok () => Streams data order start handed t
      | .error _ => t.base.Shows data := by
  obtain ⟨hshows, horder, -, read, hread, hstands, hbits⟩ := hs
  rw [hnil, List.append_nil] at hbits
  obtain ⟨hstill, hok⟩ := LoadM.shows_next 1 hshows hstands
  refine ends_fetch ?_
  rw [Ends]
  cases hresult : (LoadM.next 1 s.base).1 with
  | error e => exact hstill
  | ok bytes =>
    obtain ⟨hlength, hmore, hat⟩ := hok bytes hresult
    obtain ⟨b, rfl⟩ := List.length_eq_one_iff.1 hlength
    have hpacking : s.reader.order = order := horder
    refine ⟨hstill, hpacking, read ++ [b], prefix_append_drop hread hmore, ?_, ?_⟩
    · rw [List.length_append, List.length_singleton, ← Nat.add_assoc]
      exact hat
    · rw [hbits, List.flatMap_append, List.flatMap_cons, List.flatMap_nil, List.append_nil, ← hpacking]
      exact congrArg _ (BitReader.pending_refill s.reader b)

/-- The pending bits are handed out in their order. -/
theorem follows_skip (hs : Streams data order start handed s) {count : Nat} (hpos : 0 < count) :
    (s.skip count).Follows data order start (handed ++ s.pending.take count) := by
  obtain ⟨hshows, horder, read, hread, hstands, hbits⟩ := hs
  have hmost := s.pending_le
  refine ⟨hshows, horder, ?_, read, hread, hstands, ?_⟩
  · rw [pending_skip, List.length_drop]
    omega
  · rw [← hbits, pending_skip, List.append_assoc, List.take_append_drop]

/-- A field of bits handed out. -/
theorem follows_read (width : Nat) (hs : s.Follows data order start handed) :
    Ends (read width) s fun result t => t.base.Shows data ∧ ∀ value, result = .ok value →
      t.Follows data order start (handed ++ value.stream order) := by
  refine (ends_read (fun done t => t.Follows data order start (handed ++ done))
    (fun done => Streams data order start (handed ++ done)) (fun _ t => t.base.Shows data)
    (fun done t _ ht hnone => ?_) (fun done t ht _ => ⟨ht.shows, ht.packing, ht.bytes⟩)
    (fun done t count hpos _ _ ht => ?_) (by simpa using hs)).mono fun result t ht => ?_
  · exact follows_fetch ht (t.pending_eq_nil.2 hnone)
  · rw [← List.append_assoc]
    exact follows_skip ht hpos
  · cases result with
    | error e => exact ⟨ht, nofun⟩
    | ok value =>
      obtain ⟨bits, -, rfl, -, ht⟩ := ht
      refine ⟨ht.shows, fun value hvalue => ?_⟩
      cases hvalue
      rwa [hs.packing, Bitmap.stream_ofStream]

/-- Handles do not matter to the bits. -/
theorem follows_ofLedger {α : Type} (m : LedgerM κ α) (hs : s.Follows data order start handed) :
    Ends (ofLedger m) s fun _ t => t.Follows data order start handed :=
  ⟨hs.shows, hs.packing, hs.few, hs.bytes⟩

end BitLoadM

/-! ## Atoms of bits -/

/-- What an atom of bits was made into: it keeps the bits handed out for it. -/
def Outcome.Follows (data : Bytes) (order : ByteOrder) (start : Nat) (handed : List Bool)
    (out : Outcome κ) (t : BitLoadState κ) : Prop :=
  t.base.Shows data ∧
    (out.error? = none → t.Follows data order start (handed ++ out.atom.stream order))

/-- What atoms of bits of layouts without arrays ended by rules are made into. -/
def FollowsBits (rules : Rules κ) (data : Bytes) (order : ByteOrder) (start : Nat)
    (part : LoadPart (BitLoadM κ) κ) : Prop :=
  ∀ frames a layout handed s, a.info.layout = .bits layout → layout.Counted rules →
    s.Follows data order start handed →
      Ends (part frames a) s fun out t => out.Follows data order start handed t

theorem Frame.stream_push {f : Frame κ} (hf : f.content = .group) (hright : f.right = [])
    (a : Atom κ) :
    (f.push a).close.stream order = f.close.stream order ++ a.stream order := by
  obtain ⟨info, content, left, right⟩ := f
  cases hf
  cases hright
  have hclose (as : List (Atom κ)) :
      (Frame.close ⟨info, .group, as, []⟩).stream order = streams order as.reverse := by
    rw [Frame.close, List.reverseAux_eq, List.append_nil]
    rfl
  show (Frame.close ⟨info, .group, a :: left, []⟩).stream order = _
  rw [hclose, hclose, List.reverse_cons, streams_append, streams, streams, List.append_nil]

@[simp] theorem Atom.stream_ready (a : Atom κ) : a.ready.stream order = a.stream order := by
  obtain ⟨info, content, parts⟩ := a
  cases content <;> rfl

/-- A complete atom of bits. -/
theorem Frame.follows {f : Frame κ} {handed : List Bool} {s : BitLoadState κ}
    (hs : s.Follows data order start (handed ++ f.close.stream order)) :
    Outcome.Follows data order start handed ⟨f.close.ready, none⟩ s := by
  refine ⟨hs.shows, fun _ => ?_⟩
  rw [stream_ready]
  exact hs

section Load

variable {env : Env κ} {part : LoadPart (BitLoadM κ) κ}

theorem follows_loadBitFields (hpart : FollowsBits env.rules data order start part)
    (frames : List (Frame κ)) {f : Frame κ} (hf : f.content = .group) (hright : f.right = [])
    (index cursor : Nat) (fields : List (BitField κ (BitLayout κ)))
    (hfields : ∀ field ∈ fields, ∀ layout, field.layout.Offers env.rules.bitLayout layout →
      layout.Counted env.rules)
    {handed : List Bool} {s : BitLoadState κ}
    (hs : s.Follows data order start (handed ++ f.close.stream order)) :
    Ends (loadBitFields env part frames f index cursor fields) s fun out t =>
      out.Follows data order start handed t := by
  induction fields generalizing f index cursor s with
  | nil => exact Ends.pure (Frame.follows hs)
  | cons field fields ih =>
    rw [List.forall_mem_cons] at hfields
    rw [loadBitFields]
    split
    · exact Ends.pure ⟨hs.shows, fun h => by cases h⟩
    · rename_i layout hresolve
      have hcounted := hfields.1 layout (Env.offers_of_resolveBits hresolve)
      have hspawn : Ends (BitLoadM.ofLedger (LedgerM.spawn field.name (.bits layout) cursor)) s
          fun blank t => blank.info.layout = .bits layout
            ∧ t.Follows data order start (handed ++ f.close.stream order) :=
        ⟨rfl, BitLoadM.follows_ofLedger _ hs⟩
      refine hspawn.bind fun blank t ht => ?_
      refine (hpart _ _ _ _ _ ht.1 hcounted ht.2).bind fun out u hu => ?_
      dsimp only
      split
      · exact Ends.pure ⟨hu.1, fun h => by cases h⟩
      · rename_i herror
        refine ih (f := f.push out.atom) hf hright _ _ hfields.2 ?_
        rw [Frame.stream_push hf hright, ← List.append_assoc]
        exact hu.2 herror

theorem follows_loadBitElements (hpart : FollowsBits env.rules data order start part)
    {element : BitLayout κ} (helement : element.Counted env.rules) (count : Nat)
    (frames : List (Frame κ)) (budget : Nat) {f : Frame κ} (hf : f.content = .group)
    (hright : f.right = []) (index cursor : Nat) {handed : List Bool} {s : BitLoadState κ}
    (hs : s.Follows data order start (handed ++ f.close.stream order)) :
    Ends (loadBitElements env part element (.counted count) frames budget f index cursor) s
      fun out t => out.Follows data order start handed t := by
  induction budget generalizing f index cursor s with
  | zero =>
    rw [loadBitElements]
    split
    · exact Ends.pure (Frame.follows hs)
    · exact Ends.pure ⟨hs.shows, fun h => by cases h⟩
  | succ budget ih =>
    rw [loadBitElements]
    split
    · exact Ends.pure (Frame.follows hs)
    · have hspawn : Ends (BitLoadM.ofLedger (LedgerM.spawn (toString index) (.bits element) cursor)) s
          fun blank t => blank.info.layout = .bits element
            ∧ t.Follows data order start (handed ++ f.close.stream order) :=
        ⟨rfl, BitLoadM.follows_ofLedger _ hs⟩
      refine hspawn.bind fun blank t ht => ?_
      refine (hpart _ _ _ _ _ ht.1 helement ht.2).bind fun out u hu => ?_
      split
      · rename_i herror
        split
        · rename_i haccepts
          cases haccepts
        · refine ih (f := f.push out.atom) hf hright _ _ ?_
          rw [Frame.stream_push hf hright, ← List.append_assoc]
          exact hu.2 herror
      · exact Ends.pure ⟨hu.1, fun h => by cases h⟩
      · rename_i hshape
        cases hshape

/-- An atom of bits that was read keeps the bits handed out for it. -/
theorem follows_loadBits (env : Env κ) (data : Bytes) (order : ByteOrder) (start depth : Nat) :
    FollowsBits env.rules data order start (loadBits env depth) := by
  induction depth with
  | zero => exact fun _ _ _ _ _ _ _ hs => Ends.pure ⟨hs.shows, fun h => by cases h⟩
  | succ depth ih =>
    intro frames a layout handed s hlayout hcounted hs
    have hempty : s.Follows data order start
        (handed ++ (a.fill .group []).frame.close.stream order) := by
      rw [close_frame]
      show s.Follows data order start (handed ++ [])
      rwa [List.append_nil]
    rw [loadBits, hlayout]
    cases layout with
    | int bits signed =>
      refine (BitLoadM.follows_read bits hs).bind fun result t ht => ?_
      cases result with
      | error e => exact Ends.pure ⟨ht.1, fun h => by cases h⟩
      | ok value =>
        refine Ends.pure ⟨ht.1, fun _ => ?_⟩
        show t.Follows data order start (handed ++ (value.withSign signed).stream order)
        rw [Bitmap.stream_withSign]
        exact ht.2 value rfl
    | record name fields =>
      exact follows_loadBitFields ih frames rfl rfl _ _ fields
        (BitLayout.counted_record.1 hcounted) hempty
    | array element shape =>
      obtain ⟨count, rfl⟩ := hcounted.shape
      exact follows_loadBitElements ih hcounted.element count frames _ rfl rfl _ _ hempty

end Load

/-! ## Hosts of bits -/

/-- The bits handed out are put back into the bytes they came from: those that are pending fill the
last byte. -/
theorem BitLoadState.Follows.pack_close {handed : List Bool} {s : BitLoadState κ}
    (h : s.Follows data order start handed) :
    BitStream.pack order (BitStream.close order handed s.reader.pad) <+: data.drop start := by
  obtain ⟨-, rfl, hfew, read, hread, -, hbits⟩ := h
  have hlength := congrArg List.length hbits
  rw [List.length_append, BitStream.length_flatMap_ofByte] at hlength
  have hclose : BitStream.close s.order handed s.reader.pad = handed ++ s.pending :=
    s.reader.close_pad hfew (by rw [← BitLoadState.pending]; omega)
  rw [hclose, hbits, BitStream.pack_flatMap]
  exact hread

end BinaryLayout
