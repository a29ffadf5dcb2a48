import BinaryLayout.Atom.Reading
import BinaryLayout.Load.Layout
import BinaryLayout.Proofs.Placement.Basic
import BinaryLayout.Proofs.Run
import BinaryLayout.Proofs.Tree.Recast

/-!
# Atoms up to handles and flags

Handles and flags of an atom come and go while its bytes and its value stay: a part that is loaded
anew has another handle, and a part that was set to the value it had is dirty. Two trees that differ
in nothing else become equal without them. They stand for the same bytes and have the same value, and
whatever is built in the same way from both is again such a pair. The path to an atom does not matter to
its value, and an order of bits around an atom of bytes does not matter to its bytes.

## Main definitions

* `Info.seat`: what an info says about the place of an atom and its layout.
* `Atom.plain`, `Frame.plain`, `Place.plain`: trees without handles and flags.

## Main statements

* `Atom.serialize_of_plain`: the bytes of two such trees.
* `Atom.valueAt_plain`, `Place.value_of_plain`: their values.
* `Atom.valueAt_of_ok`: their values in other places.
* `Atom.serialize_eq`: the bytes of an atom in another order of bits around it.
-/

namespace BinaryLayout

variable {κ : Type}

/-- An info without its handle and without what loading and editing change. -/
def Info.seat (info : Info κ) : Info κ := { info.site with id := 0 }

/-- An info without its handle and its flags, but with its tail. -/
def Info.plain (info : Info κ) : Info κ := { info.seat with tail := info.tail }

namespace Info

variable {i j : Info κ}

theorem keeping_plain : Info.Keeping (Info.plain : Info κ → Info κ) := ⟨fun _ => rfl, fun _ => rfl⟩

theorem seat_of_site (h : i.site = j.site) : i.seat = j.seat := by
  rw [seat, seat, h]

theorem seat_of_plain (h : i.plain = j.plain) : i.seat = j.seat :=
  (congrArg seat h : i.plain.seat = j.plain.seat)

theorem plain_of_seat (h : i.seat = j.seat) (htail : i.tail = j.tail) : i.plain = j.plain := by
  rw [plain, plain, h, htail]

/-- A seat is a name, a layout, an offset and whether a null pointer refers to the atom. -/
theorem seat_ext (hname : i.name = j.name) (hlayout : i.layout = j.layout) (hoffset : i.offset = j.offset)
    (hnull : i.null = j.null) : i.seat = j.seat := by
  cases i
  cases j
  cases hname
  cases hlayout
  cases hoffset
  cases hnull
  rfl

theorem name_of_seat (h : i.seat = j.seat) : i.name = j.name :=
  (congrArg Info.name h : i.seat.name = j.seat.name)

theorem layout_of_seat (h : i.seat = j.seat) : i.layout = j.layout :=
  (congrArg Info.layout h : i.seat.layout = j.seat.layout)

theorem offset_of_seat (h : i.seat = j.seat) : i.offset = j.offset :=
  (congrArg Info.offset h : i.seat.offset = j.seat.offset)

theorem null_of_seat (h : i.seat = j.seat) : i.null = j.null :=
  (congrArg Info.null h : i.seat.null = j.seat.null)

theorem tail_of_plain (h : i.plain = j.plain) : i.tail = j.tail :=
  (congrArg Info.tail h : i.plain.tail = j.plain.tail)

end Info

namespace Atom

def plain : Atom κ → Atom κ := recast Info.plain

@[simp] theorem info_plain (a : Atom κ) : a.plain.info = a.info.plain := info_recast a

@[simp] theorem content_plain (a : Atom κ) : a.plain.content = a.content := content_recast a

@[simp] theorem parts_plain (a : Atom κ) : a.plain.parts = a.parts.map plain := parts_recast a

theorem plain_node (info : Info κ) (content : Content) (parts : List (Atom κ)) :
    plain (.node info content parts) = .node info.plain content (parts.map plain) :=
  recast_node info content parts

/-- Trees agree when their tops and their parts do. -/
theorem plain_ext {a b : Atom κ} (hinfo : a.info.plain = b.info.plain) (hcontent : a.content = b.content)
    (hparts : a.parts.map plain = b.parts.map plain) : a.plain = b.plain := by
  obtain ⟨info, content, parts⟩ := a
  obtain ⟨info', content', parts'⟩ := b
  rw [plain_node, plain_node]
  exact congr (congr (congrArg Atom.node hinfo) hcontent) hparts

/-! ## Trees that differ in handles and flags alone -/

section Same

variable {a b : Atom κ} (h : a.plain = b.plain)

include h

theorem info_of_plain : a.info.plain = b.info.plain := by
  rw [← info_plain, h, info_plain]

theorem seat_of_plain : a.info.seat = b.info.seat := Info.seat_of_plain (info_of_plain h)

theorem name_of_plain : a.info.name = b.info.name := Info.name_of_seat (seat_of_plain h)

theorem layout_of_plain : a.info.layout = b.info.layout := Info.layout_of_seat (seat_of_plain h)

theorem offset_of_plain : a.info.offset = b.info.offset := Info.offset_of_seat (seat_of_plain h)

theorem tail_of_plain : a.info.tail = b.info.tail := Info.tail_of_plain (info_of_plain h)

theorem content_of_plain : a.content = b.content := by
  rw [← content_plain, h, content_plain]

theorem parts_of_plain : a.parts.map plain = b.parts.map plain := by
  rw [← parts_plain, h, parts_plain]

theorem isBits_of_plain : a.isBits = b.isBits := by
  rw [isBits, isBits, layout_of_plain h]

theorem size_of_plain : a.size = b.size :=
  (size_recast Info.keeping_plain a).symm.trans
    ((congrArg size h).trans (size_recast Info.keeping_plain b))

theorem bits_of_plain : a.bits = b.bits :=
  (bits_recast Info.keeping_plain a).symm.trans
    ((congrArg bits h).trans (bits_recast Info.keeping_plain b))

theorem bitCount_of_plain : a.bitCount = b.bitCount :=
  (bitCount_recast a).symm.trans ((congrArg bitCount h).trans (bitCount_recast b))

/-- Handles and flags do not matter to the bytes. -/
theorem serialize_of_plain (order : ByteOrder) : serialize order a = serialize order b :=
  (serialize_recast Info.keeping_plain order a).symm.trans
    ((congrArg (serialize order) h).trans (serialize_recast Info.keeping_plain order b))

end Same

/-! ## Building -/

theorem plain_fill_of_info {a b : Atom κ} (h : a.info.plain = b.info.plain) (content : Content)
    {parts parts' : List (Atom κ)} (hparts : parts.map plain = parts'.map plain) :
    (a.fill content parts).plain = (b.fill content parts').plain :=
  plain_ext h rfl hparts

@[simp] theorem plain_ready (a : Atom κ) : a.ready.plain = a.plain := by
  obtain ⟨info, content, parts⟩ := a
  exact plain_ext rfl rfl rfl

theorem plain_withTail (tail : Bytes) {a b : Atom κ} (h : a.plain = b.plain) :
    (a.withTail tail).plain = (b.withTail tail).plain := by
  obtain ⟨info, content, parts⟩ := a
  obtain ⟨info', content', parts'⟩ := b
  have hseat : info.seat = info'.seat := seat_of_plain h
  have hcontent : content = content' := content_of_plain h
  have hparts : parts.map plain = parts'.map plain := parts_of_plain h
  exact plain_ext (Info.plain_of_seat hseat rfl) hcontent hparts

/-- An atom that was emptied is told by its seat. -/
theorem plain_cleared {a b : Atom κ} (h : a.info.seat = b.info.seat) : a.cleared.plain = b.cleared.plain := by
  obtain ⟨info, content, parts⟩ := a
  obtain ⟨info', content', parts'⟩ := b
  exact plain_ext (Info.plain_of_seat h rfl) rfl rfl

end Atom

open Atom

namespace Frame

def plain (f : Frame κ) : Frame κ :=
  ⟨f.info.plain, f.content, f.left.map Atom.plain, f.right.map Atom.plain⟩

theorem plain_push (f : Frame κ) (a : Atom κ) : (f.push a).plain = f.plain.push a.plain := rfl

theorem plain_plug (f : Frame κ) (a : Atom κ) : (f.plug a).plain = f.plain.plug a.plain := by
  rw [plug, plain_node, List.reverseAux_eq, plug, List.reverseAux_eq, List.map_append,
    List.map_reverse, List.map_cons]
  rfl

theorem plain_close (f : Frame κ) : f.close.plain = f.plain.close := by
  rw [close, plain_node, List.reverseAux_eq, close, List.reverseAux_eq, List.map_append,
    List.map_reverse]
  rfl

theorem plain_frame (a : Atom κ) : a.frame.plain = a.plain.frame := by
  rw [frame, frame, plain, info_plain, content_plain, parts_plain, List.map_reverse]
  rfl

section Same

variable {f g : Frame κ} (h : f.plain = g.plain)

include h

theorem info_of_plain : f.info.plain = g.info.plain := congrArg Frame.info h

theorem offset_of_plain : f.info.offset = g.info.offset :=
  Info.offset_of_seat (Info.seat_of_plain (info_of_plain h))

theorem layout_of_plain : f.info.layout = g.info.layout :=
  Info.layout_of_seat (Info.seat_of_plain (info_of_plain h))

theorem content_of_plain : f.content = g.content := (congrArg Frame.content h :)

theorem push_of_plain {a b : Atom κ} (hab : a.plain = b.plain) : (f.push a).plain = (g.push b).plain := by
  rw [plain_push, plain_push, h, hab]

theorem plug_of_plain {a b : Atom κ} (hab : a.plain = b.plain) : (f.plug a).plain = (g.plug b).plain := by
  rw [plain_plug, plain_plug, h, hab]

theorem close_of_plain : f.close.plain = g.close.plain := by
  rw [plain_close, plain_close, h]

end Same

end Frame

namespace Atom

/-! ## Layouts of contents -/

/-- Only hosts have unused bits. -/
theorem Shaped.layout_of_host {a : Atom κ} (h : a.Shaped) {pad : Bitmap} (hcontent : a.content = .host pad) :
    ∃ root order, a.info.layout = .bytes (.bits root order) := by
  have hadmits := h.admits
  rw [hcontent] at hadmits
  cases hlayout : a.info.layout with
  | bits layout =>
    rw [hlayout] at hadmits
    cases layout <;> cases hadmits
  | bytes layout =>
    rw [hlayout] at hadmits
    cases layout <;> first | exact ⟨_, _, rfl⟩ | cases hadmits

/-- Only unions have shared bytes. -/
theorem Shaped.layout_of_overlay {a : Atom κ} (h : a.Shaped) {backing : Bytes}
    (hcontent : a.content = .overlay backing) :
    ∃ name members size, a.info.layout = .bytes (.union name members size) := by
  have hadmits := h.admits
  rw [hcontent] at hadmits
  cases hlayout : a.info.layout with
  | bits layout =>
    rw [hlayout] at hadmits
    cases layout <;> cases hadmits
  | bytes layout =>
    rw [hlayout] at hadmits
    cases layout <;> first | exact ⟨_, _, _, rfl⟩ | cases hadmits

/-! ## Bytes in an order of bits -/

mutual

/-- The bytes of an atom that is not among bits do not depend on an order of bits around it. -/
theorem serialize_eq (order order' : ByteOrder) : ∀ {a : Atom κ}, Everywhere Shaped a →
    a.isBits = false → serialize order a = serialize order' a
  | .node info content parts, h, hbytes => by
    have hparts := serializeAll_eq order order' h.2
    have hhere : Shaped (.node info content parts) := h.1
    rw [serialize_of_bytes order hbytes, serialize_of_bytes order' hbytes, contentBytes, contentBytes]
    cases content with
    | empty | raw | overlay | pointer | bits => rfl
    | group =>
      have hholds := hhere.holds
      rw [hbytes] at hholds
      exact congrArg (· ++ info.tail) (hparts hholds)
    | host pad =>
      obtain ⟨root, own, hlayout⟩ := hhere.layout_of_host rfl
      dsimp only [content_node, parts_node]
      rw [hlayout]
      rfl

theorem serializeAll_eq (order order' : ByteOrder) : ∀ {as : List (Atom κ)}, EverywhereIn Shaped as →
    (∀ a ∈ as, a.isBits = false) → serializeAll order as = serializeAll order' as
  | [], _, _ => rfl
  | _ :: _, h, hbytes => by
    rw [List.forall_mem_cons] at hbytes
    rw [serializeAll, serializeAll, serialize_eq order order' h.1 hbytes.1,
      serializeAll_eq order order' h.2 hbytes.2]

end

end Atom

/-! ## Values -/

namespace Atom

theorem segment_plain (outer : Info κ) (name : String) :
    Place.segment outer.plain name = Place.segment outer name :=
  rfl

mutual

/-- Handles and flags do not matter to the value. -/
theorem valueAt_plain (path : Path) : ∀ a : Atom κ, valueAt path a.plain = valueAt path a
  | .node info content parts => by
    have hfields := fieldsAt_plain path info parts
    have hitems := itemsAt_plain path info parts
    have hroot := rootAt_plain path info parts
    rw [plain_node]
    simp only [valueAt]
    have hlayout : info.plain.layout = info.layout := rfl
    have hnull : info.plain.null = info.null := rfl
    rw [hlayout, hnull]
    simp only [hfields, hitems, hroot]

theorem fieldsAt_plain (path : Path) (outer : Info κ) : ∀ as : List (Atom κ),
    fieldsAt path outer.plain (as.map plain) = fieldsAt path outer as
  | [] => rfl
  | a :: as => by
    rw [List.map_cons, fieldsAt, fieldsAt, info_plain, segment_plain, valueAt_plain _ a,
      fieldsAt_plain path outer as]
    rfl

theorem itemsAt_plain (path : Path) (outer : Info κ) : ∀ as : List (Atom κ),
    itemsAt path outer.plain (as.map plain) = itemsAt path outer as
  | [] => rfl
  | a :: as => by
    rw [List.map_cons, itemsAt, itemsAt, info_plain, segment_plain, valueAt_plain _ a,
      itemsAt_plain path outer as]
    rfl

theorem rootAt_plain (path : Path) (outer : Info κ) : ∀ as : List (Atom κ),
    rootAt path outer.plain (as.map plain) = rootAt path outer as
  | [] => rfl
  | root :: as => by
    rw [List.map_cons, rootAt, rootAt, info_plain, segment_plain, valueAt_plain _ root]
    rfl

end

theorem valueAt_of_plain {a b : Atom κ} (h : a.plain = b.plain) (path : Path) :
    valueAt path a = valueAt path b := by
  rw [← valueAt_plain, h, valueAt_plain]

/-! ### Values without their errors -/

theorem toOption_map {ε α β : Type} (f : α → β) (x : Except ε α) : (x.map f).toOption = x.toOption.map f := by
  cases x <;> rfl

theorem toOption_scalarAt (path path' : Path) (layout : Layout κ) (content : Content) :
    (scalarAt path layout content).toOption = (scalarAt path' layout content).toOption := by
  cases content with
  | raw bytes =>
    cases layout with
    | text format =>
      rw [scalarAt, scalarAt, rawAt, rawAt]
      dsimp only
      split <;> rfl
    | _ => rfl
  | _ => rfl

mutual

/-- Only the errors of a value name the path. -/
theorem toOption_valueAt (path path' : Path) : ∀ a : Atom κ,
    (valueAt path a).toOption = (valueAt path' a).toOption
  | .node info content parts => by
    have hfields := toOption_fieldsAt path path' info parts
    have hitems := toOption_itemsAt path path' info parts
    have hroot := toOption_rootAt path path' info parts
    have hscalar (layout : Layout κ) := toOption_scalarAt path path' layout content
    simp only [valueAt, readable]
    by_cases hnull : info.null = true
    · simp only [if_pos hnull]
      rfl
    · by_cases hempty : content = .empty
      · simp only [if_neg hnull, if_pos hempty]
        rfl
      · simp only [if_neg hnull, if_neg hempty]
        split <;> first | rfl | simp only [toOption_map, hfields, hitems, hroot, hscalar]

theorem toOption_fieldsAt (path path' : Path) (outer : Info κ) : ∀ as : List (Atom κ),
    (fieldsAt path outer as).toOption = (fieldsAt path' outer as).toOption
  | [] => rfl
  | a :: as => by
    have ha := toOption_valueAt (path ++ [Place.segment outer a.info.name])
      (path' ++ [Place.segment outer a.info.name]) a
    have has := toOption_fieldsAt path path' outer as
    rw [fieldsAt, fieldsAt]
    revert ha
    rcases valueAt (path ++ [Place.segment outer a.info.name]) a with _ | v <;>
      rcases valueAt (path' ++ [Place.segment outer a.info.name]) a with _ | w <;> intro ha
    · rfl
    · cases ha
    · cases ha
    · cases ha
      dsimp only
      rw [toOption_map, toOption_map, has]

theorem toOption_itemsAt (path path' : Path) (outer : Info κ) : ∀ as : List (Atom κ),
    (itemsAt path outer as).toOption = (itemsAt path' outer as).toOption
  | [] => rfl
  | a :: as => by
    have ha := toOption_valueAt (path ++ [Place.segment outer a.info.name])
      (path' ++ [Place.segment outer a.info.name]) a
    have has := toOption_itemsAt path path' outer as
    rw [itemsAt, itemsAt]
    revert ha
    rcases valueAt (path ++ [Place.segment outer a.info.name]) a with _ | v <;>
      rcases valueAt (path' ++ [Place.segment outer a.info.name]) a with _ | w <;> intro ha
    · rfl
    · cases ha
    · cases ha
    · cases ha
      dsimp only
      rw [toOption_map, toOption_map, has]

theorem toOption_rootAt (path path' : Path) (outer : Info κ) : ∀ as : List (Atom κ),
    (rootAt path outer as).toOption = (rootAt path' outer as).toOption
  | [] => rfl
  | root :: as => by
    rw [rootAt, rootAt]
    exact toOption_valueAt _ _ root

end

/-- A value that is there is there wherever the atom stands. -/
theorem valueAt_of_ok {a b : Atom κ} (h : a.plain = b.plain) {path : Path} {v : Value}
    (hv : valueAt path a = .ok v) (path' : Path) : valueAt path' b = .ok v := by
  refine ok_of_toOption ?_
  rw [← valueAt_of_plain h, toOption_valueAt path' path, hv, Except.toOption]

end Atom

namespace Place

def plain (p : Place κ) : Place κ := ⟨p.atom.plain, p.frames.map Frame.plain⟩

variable {p q : Place κ}

/-- Going in to the part of a number. -/
theorem down?_of_part {p : Place κ} {i : Nat} {a : Atom κ} (h : p.atom.parts[i]? = some a) :
    ∃ q, p.down? i = some q ∧ q.atom = a := by
  obtain ⟨hi, rfl⟩ := List.getElem?_eq_some_iff.1 h
  rw [down?, List.drop_eq_getElem_cons hi]
  exact ⟨_, rfl, rfl⟩

/-- What is found by going in is the part of that number. -/
theorem part_of_down? {i : Nat} (h : p.down? i = some q) : p.atom.parts[i]? = some q.atom := by
  rw [down?] at h
  split at h
  · cases h
  · rename_i hdrop
    cases h
    rw [← Nat.add_zero i, ← List.getElem?_drop, hdrop]
    rfl

theorem pathOnto_plain (inner : Path) (name : String) (frames : List (Frame κ)) :
    pathOnto inner name (frames.map Frame.plain) = pathOnto inner name frames := by
  induction frames generalizing inner name with
  | nil => rfl
  | cons f frames ih => exact ih _ _

theorem path_of_plain (h : p.plain = q.plain) : p.path = q.path := by
  have hframes : p.frames.map Frame.plain = q.frames.map Frame.plain := congrArg Place.frames h
  have hatom : p.atom.plain = q.atom.plain := congrArg Place.atom h
  rw [path, path, name_of_plain hatom, ← pathOnto_plain, hframes, pathOnto_plain]

/-- Handles and flags do not matter to the value. -/
theorem value_of_plain (h : p.plain = q.plain) : p.value = q.value := by
  have hatom : p.atom.plain = q.atom.plain := congrArg Place.atom h
  rw [value, value, path_of_plain h, valueAt_of_plain hatom]

/-- A number that is there is there wherever the atom stands. -/
theorem uint_of_ok (h : p.atom.plain = q.atom.plain) {n : Nat} (hn : p.uint = .ok n) :
    q.uint = .ok n := by
  cases hv : p.value with
  | error e =>
    rw [uint, hv] at hn
    cases hn
  | ok v =>
    have hvalue : q.value = .ok v := valueAt_of_ok h hv q.path
    rw [uint, hv] at hn
    rw [uint, hvalue]
    dsimp only at hn ⊢
    cases hnat : v.toNat? with
    | none =>
      rw [hnat] at hn
      cases hn
    | some m =>
      rw [hnat] at hn
      exact hn

theorem assemble_plain (a : Atom κ) (frames : List (Frame κ)) :
    (assemble a frames).plain = assemble a.plain (frames.map Frame.plain) := by
  induction frames generalizing a with
  | nil => rfl
  | cons f frames ih =>
    rw [assemble, ih, Frame.plain_plug]
    rfl

end Place

end BinaryLayout
