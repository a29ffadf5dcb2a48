import BinaryLayout.Proofs.Making.Load

/-!
# Where atoms are put

An atom that was loaded or allocated is laid out, whatever the atom held before and whatever the view was.
What an error leaves is laid out too, unless the error came before anything was done and the atom was not.

## Main definitions

* `Frame.Rising`: the parts that there are so far stand where they should, and the next one comes at a cursor.
* `Outcome.InOrder`: an atom that was made is laid out.

## Main statements

* `Makes.laidOut`: the steps in which atoms are made put them where they should stand.
* `inOrder_load`, `inOrder_allocate`, `inOrder_allocateBits`: atoms that were loaded and allocated, with or
  without an error.
* `laid_load`: the same of those without one.
-/

namespace BinaryLayout

variable {κ : Type}

open Atom

/-! ## Parts one after another -/

/-- The parts before the gap stand where they should, there are none after it, and the next one comes at
`cursor`: behind the others in a group, and at the atom's own offset in a union. -/
structure Frame.Rising (f : Frame κ) (cursor : Nat) : Prop where
  next : f.content = .group ∧ turnEnd f.info.layout.isBits f.info.offset f.left.reverse = cursor
    ∨ (∃ backing, f.content = .overlay backing) ∧ f.info.offset = cursor
  right : f.right = []
  seats : Seats f.info.layout.isBits f.info.offset f.left.reverse f.content
  parts : ∀ part ∈ f.left, Everywhere LaidOut part
  tail : f.info.layout.isBits = true → f.info.tail = []

/-- An atom that was made, or begun until an error ended this, is laid out and stands where the given
info says. -/
structure Outcome.InOrder (info : Info κ) (out : Outcome κ) : Prop where
  laid : Everywhere LaidOut out.atom
  site : out.atom.info.site = info.site

/-- An atom that was made is laid out and stands where the given info says. -/
def Outcome.Laid (info : Info κ) (out : Outcome κ) : Prop :=
  out.error? = none → Everywhere LaidOut out.atom ∧ out.atom.info.site = info.site

theorem Outcome.InOrder.complete {info : Info κ} {out : Outcome κ} (h : out.InOrder info) :
    out.Laid info :=
  fun _ => ⟨h.laid, h.site⟩

/-- The offset of an atom that was made. -/
theorem Outcome.InOrder.offset {info : Info κ} {out : Outcome κ} (h : out.InOrder info) :
    out.atom.info.offset = info.offset :=
  Info.offset_of_site h.site

/-- What was made of an atom is in order, whatever the atom held before, unless an error left the atom
as it was. -/
def Outcome.Orders (a : Atom κ) (out : Outcome κ) : Prop :=
  out.error? = none ∨ Everywhere LaidOut a → out.InOrder a.info

theorem Outcome.Orders.complete {a : Atom κ} {out : Outcome κ} (h : out.Orders a) : out.Laid a.info :=
  fun herror => (h (.inl herror)).complete herror

/-- Flags do not matter, and a tail only to an atom of bits. -/
theorem Atom.Everywhere.laidOut_mapInfo {a : Atom κ} (h : Everywhere LaidOut a)
    {change : Info κ → Info κ} (hsite : (change a.info).site = a.info.site)
    (htail : a.isBits = true → (change a.info).tail = []) : Everywhere LaidOut (a.mapInfo change) := by
  obtain ⟨info, content, parts⟩ := a
  have hhere := h.here
  have hlayout := Info.layout_of_site hsite
  have hoffset := Info.offset_of_site hsite
  have hbits : isBits (mapInfo change (.node info content parts)) = isBits (.node info content parts) :=
    isBits_of_site hsite
  simp only [info_node] at hlayout hoffset
  refine everywhere_iff.2 ⟨⟨?_, fun hb => htail (hbits ▸ hb), ?_⟩, fun _ => h.part⟩
  · have hseats := hhere.seats
    rw [hbits, info_mapInfo, info_node, hoffset]
    exact hseats
  · rw [info_mapInfo, info_node, hlayout]
    exact hhere.wire

theorem Atom.Everywhere.laidOut_ready {a : Atom κ} (h : Everywhere LaidOut a) :
    Everywhere LaidOut a.ready :=
  h.laidOut_mapInfo rfl h.here.tail

/-- Tails of atoms of bytes do not matter. -/
theorem Atom.Everywhere.laidOut_withTail {a : Atom κ} (h : Everywhere LaidOut a)
    (hbits : a.isBits = false) (tail : Bytes) : Everywhere LaidOut (a.withTail tail) :=
  h.laidOut_mapInfo rfl fun hb => absurd hb (by rw [hbits]; exact Bool.false_ne_true)

theorem Atom.Everywhere.laidOut_forceExtent {a : Atom κ} (h : Everywhere LaidOut a)
    (hbits : a.isBits = false) (config : Config) (extent : Nat) :
    Everywhere LaidOut (a.forceExtent config extent) :=
  h.laidOut_mapInfo rfl fun hb => absurd hb (by rw [hbits]; exact Bool.false_ne_true)

/-- An atom without parts whose content is no pointer's. -/
theorem Atom.laidOut_fill_nil {a : Atom κ} {content : Content}
    (hseats : Seats a.isBits a.info.offset ([] : List (Atom κ)) content)
    (htail : a.isBits = true → a.info.tail = [])
    (hwire : ∀ wire, content ≠ .pointer wire) : Everywhere LaidOut (a.fill content []) :=
  everywhere_iff.2 ⟨⟨hseats, htail, fun wire h => absurd h (hwire wire)⟩, fun _ h => nomatch h⟩

/-- A blank atom. -/
theorem Atom.IsBlank.laidOut {a : Atom κ} (h : a.IsBlank) : Everywhere LaidOut a := by
  refine everywhere_iff.2 ⟨⟨?_, fun _ => h.tail, fun wire hwire => ?_⟩, ?_⟩
  · rw [h.content]
    exact h.parts
  · rw [h.content] at hwire
    cases hwire
  · rw [h.parts]
    exact fun _ h => nomatch h

/-- The bytes of an atom without parts. -/
theorem laidOut_withBytes {a : Atom κ} (hbits : a.isBits = false) {layout : Layout κ}
    (hlayout : a.info.layout = .bytes layout) {raw : Bytes}
    (hwire : ∀ format target policy, layout = .pointer format target policy →
      raw.length = format.width) : Everywhere LaidOut (a.withBytes layout raw) := by
  rw [withBytes_eq]
  refine everywhere_iff.2 ⟨⟨?_, fun hb => ?_, fun wire hcontent => ?_⟩, fun _ h => nomatch h⟩
  · cases layout <;> first | rfl | exact trivial
  · rw [isBits, info_fill, ← isBits, hbits] at hb
    cases hb
  · rw [info_fill, hlayout]
    cases layout with
    | pointer format target policy =>
      cases hcontent
      exact ⟨format, target, policy, rfl, hwire _ _ _ rfl⟩
    | int | float | fixed | varint | text | block | constant | padding | align | record | array
    | union | bits => cases hcontent

/-- A host with its root and unused bits that fit. -/
theorem laidOut_hostedBits {a root : Atom κ} (ha : a.isBits = false) {pad : Bitmap}
    (hroot : Everywhere LaidOut root) (hoffset : root.info.offset = hostedAt a.info.offset)
    (hpad : pad.Fits root.bitCount) : Everywhere LaidOut (hostedBits a root pad) := by
  refine everywhere_iff.2 ⟨⟨⟨?_, ?_⟩, fun hb => ?_, nofun⟩, ?_⟩
  · exact List.forall_mem_singleton.2 hoffset
  · exact hpad
  · exact absurd hb (by rw [isBits, hostedBits, info_fill, ← isBits, ha]; exact Bool.false_ne_true)
  · exact List.forall_mem_singleton.2 hroot

namespace Frame.Rising

variable {a : Atom κ} {f : Frame κ} {cursor : Nat}

/-- The frame of an atom that gets its parts next. -/
theorem start (ha : a.IsBlank) {content : Content}
    (hcontent : content = .group ∨ ∃ backing, content = .overlay backing) :
    (a.fill content []).frame.Rising a.info.offset := by
  refine ⟨?_, rfl, ?_, nofun, fun _ => ha.tail⟩
  · exact hcontent.imp (fun h => ⟨h, rfl⟩) fun h => ⟨h, rfl⟩
  · rcases hcontent with rfl | ⟨backing, rfl⟩
    · exact trivial
    · exact fun _ h => absurd h List.not_mem_nil

/-- One more part, at the cursor. -/
theorem push (hf : f.Rising cursor) (ha : Everywhere LaidOut a) (hoffset : a.info.offset = cursor) :
    (f.push a).Rising (f.after cursor a) := by
  have hreverse : (f.push a).left.reverse = f.left.reverse ++ [a] := List.reverse_cons
  have hseats := hf.seats
  refine ⟨?_, hf.right, ?_, List.forall_mem_cons.2 ⟨ha, hf.parts⟩, hf.tail⟩
  · refine hf.next.imp (fun ⟨hgroup, hend⟩ => ⟨hgroup, ?_⟩) fun ⟨⟨backing, hoverlay⟩, hsame⟩ =>
      ⟨⟨backing, hoverlay⟩, ?_⟩
    · rw [hreverse, turnEnd_append, Frame.after, hgroup]
      exact congrArg (satAdd · _) hend
    · rw [Frame.after, hoverlay]
      exact hsame
  · rw [hreverse]
    rcases hf.next with ⟨hgroup, hend⟩ | ⟨⟨backing, hoverlay⟩, hsame⟩
    · rw [hgroup] at hseats
      change Seats _ _ _ f.content
      rw [hgroup]
      exact inTurn_append.2 ⟨hseats, hoffset.trans hend.symm, trivial⟩
    · rw [hoverlay] at hseats
      change Seats _ _ _ f.content
      rw [hoverlay]
      exact List.forall_mem_append.2 ⟨hseats, List.forall_mem_singleton.2 (hoffset.trans hsame.symm)⟩

theorem close (hf : f.Rising cursor) : Everywhere LaidOut f.close := by
  refine everywhere_close.2 ⟨⟨?_, hf.tail, fun wire h => ?_⟩, hf.parts, ?_⟩
  · rw [content_close, parts_close, hf.right, List.append_nil]
    exact hf.seats
  · rw [content_close] at h
    rcases hf.next with ⟨hgroup, -⟩ | ⟨⟨backing, hoverlay⟩, -⟩
    · cases hgroup.symm.trans h
    · cases hoverlay.symm.trans h
  · rw [hf.right]
    exact nofun

end Frame.Rising

/-! ## The steps -/

/-- An atom is blank before it is made, and the parts that it has so far stand where they should. -/
def Stage.Rising : Stage κ → Prop
  | atom a => a.IsBlank
  | parts f _ cursor => f.Rising cursor

/-- However far an atom is made, it is laid out. -/
theorem Makes.laidOut {frames : List (Frame κ)} {stage : Stage κ} {l m : Ledger κ} {out : Outcome κ}
    (h : Makes frames stage l out m) (hstage : stage.Rising) : Everywhere LaidOut out.atom := by
  induction h with
  | refused => exact IsBlank.laidOut hstage
  | @leaf _ a _ layout _ marked hlayout hstores =>
    refine laidOut_withBytes ?_ ?_ hstores.wire
    · rw [isBits, info_mapInfo, hlayout]
      rfl
    · rw [info_mapInfo]
      exact hlayout
  | bits hlayout value => exact laidOut_fill_nil rfl (fun _ => IsBlank.tail hstage) fun _ h => by cases h
  | @host _ a _ _ out _ _ position _ hlayout hposition hpad hroot ih =>
    refine laidOut_hostedBits ?_ (ih (isBlank_blank ..)) ?_ hpad
    · rw [isBits, hlayout]
      rfl
    · exact (Info.offset_of_site hroot.site).trans (hostedAt_of_bitPosition hposition)
  | sized extent _ ih => exact ih (IsBlank.sized hstage extent)
  | compound _ hcontent _ ih => exact ih (Frame.Rising.start hstage hcontent)
  | complete | stopped => exact Frame.Rising.close hstage
  | next _ _ hpart _ _ ihpart ihrest =>
    exact ihrest (Frame.Rising.push hstage (ihpart (isBlank_blank ..)) (Info.offset_of_site hpart.site))
  | dropped _ _ _ _ ihrest => exact ihrest hstage
  | amended hamends _ ih =>
    have hmade := ih hstage
    exact hmade.laidOut_mapInfo hamends.site fun hbits => (hamends.tail hbits).trans (hmade.here.tail hbits)
  | failed _ _ ih | warned _ _ ih => exact ih hstage

theorem Makes.inOrder {frames : List (Frame κ)} {a : Atom κ} {l m : Ledger κ} {out : Outcome κ}
    (h : Makes frames (.atom a) l out m) (ha : a.IsBlank) : out.InOrder a.info :=
  ⟨h.laidOut ha, h.site⟩

namespace MakesOver

variable {restarts : Prop} {frames : List (Frame κ)} {a : Atom κ} {l m : Ledger κ} {out : Outcome κ}

theorem inOrder (h : MakesOver restarts frames a l out m) (hrestarts : restarts) : out.InOrder a.info := by
  rcases h with ⟨-, h⟩ | ⟨hstays, -⟩
  · have hmade := h.inOrder (isBlank_cleared a)
    exact ⟨hmade.laid, hmade.site.trans (site_cleared a)⟩
  · exact absurd hrestarts hstays

theorem orders (h : MakesOver restarts frames a l out m) : out.Orders a := by
  rcases h with ⟨hrestarts, h⟩ | ⟨hstays, rfl, e, rfl⟩
  · exact fun _ => inOrder (.inl ⟨hrestarts, h⟩) hrestarts
  · exact fun h => ⟨h.resolve_left (Option.some_ne_none e), rfl⟩

end MakesOver

/-! ## Loading and allocating -/

/-- Default content for an atom of bits. -/
theorem inOrder_allocateBits (env : Env κ) (depth : Nat) (frames : List (Frame κ)) (a : Atom κ)
    (l : Ledger κ) : Ends (allocateBits env depth frames a) l fun out _ => out.Orders a :=
  (makesOver_allocateBits env depth frames a l).mono fun _ _ h => h.orders

/-- An atom of bytes that was loaded. -/
theorem inOrder_load (env : Env κ) (depth : Nat) (frames : List (Frame κ)) (a : Atom κ)
    (s : LoadState κ) : Ends (load env depth frames a) s fun out _ => out.Orders a :=
  (makesOver_load env depth frames a s).mono fun _ _ h => h.orders

/-- An atom of bytes that was loaded with all layouts before it, whatever it held. -/
theorem inOrder_load_of_bytes (env : Env κ) (frames : List (Frame κ)) {a : Atom κ} {layout : Layout κ}
    (hlayout : a.info.layout = .bytes layout) (s : LoadState κ) :
    Ends (load env Layout.nestingLimit frames a) s fun out _ => out.InOrder a.info := by
  have hbits : a.isBits = false := by
    rw [isBits, hlayout]
    rfl
  exact (makesOver_load env _ frames a s).mono fun _ _ h => h.inOrder ⟨nestingLimit_pos, hbits⟩

/-- An atom of bytes that was loaded without an error, whatever it held before. -/
theorem laid_load (env : Env κ) (depth : Nat) (frames : List (Frame κ)) (a : Atom κ)
    (s : LoadState κ) : Ends (load env depth frames a) s fun out _ => out.Laid a.info :=
  (inOrder_load env depth frames a s).mono fun _ _ h => h.complete

/-- Default content for an atom. -/
theorem inOrder_allocate (env : Env κ) (depth : Nat) (frames : List (Frame κ)) (a : Atom κ)
    (l : Ledger κ) : Ends (allocate env depth frames a) l fun out _ => out.Orders a :=
  (makesOver_allocate env depth frames a l).mono fun _ _ h => h.orders

end BinaryLayout
