import BinaryLayout.Proofs.Flags.Document
import BinaryLayout.Proofs.Frame.Document
import BinaryLayout.Proofs.Pointers.Reference
import BinaryLayout.Proofs.Pointers.Rest
import BinaryLayout.Proofs.Replay.Copy

/-!
# From numbers to addresses and back

Where no rule stands in for the numbers of pointers, a pointer that was pointed at an address means it, and
is followed to it; the address that a number means leads back to the bytes of the number; and a tree that was
read, and whose pointers were followed at most, is not changed when it is recalculated. The number has to be
one of 128 bits with a sign: sixteen bytes without a sign may hold a greater one, which is taken for a
negative number, and that is not stored again.

## Main definitions

* `Document.Read`: documents with a tree that was read and not changed since.

## Main statements

* `Document.Read.hasRead`: what is known of such a tree.
* `Document.Read.recalculate_eq`: recalculating it does nothing.
* `Document.Reachable.pointing_inverts`: from addresses to numbers and back.
-/

namespace BinaryLayout

variable {κ : Type}

open Atom

/-- A result may be left out. -/
theorem DocumentM.run_forget {α : Type} {m : DocumentM κ α} {d t : Document κ} {result : α}
    (h : m.run d = (.ok result, t)) : (do let _ ← m : DocumentM κ Unit).run d = (.ok (), t) := by
  have hmap : (do let _ ← m : DocumentM κ Unit).run d
      = (ExceptT.bindCont (fun _ => pure ()) (m.run d).1 : StateM _ (Except Error Unit)) (m.run d).2 := rfl
  rw [hmap, h]
  rfl

namespace Document

variable {d : Document κ} {id : Nat}

/-- A document with a new outermost atom that was loaded. -/
theorem Attained.loadNew {t : Document κ} {layout : Layout κ} {name : String} {offset : Nat} (hd : Attained d)
    (hrun : (Document.loadNew layout name offset).run d = (.ok id, t)) : Attained t := by
  have hop : (Operation.loadNew layout name offset).run.run d = (.ok (), t) := DocumentM.run_forget hrun
  have hstep : Attained ((Operation.loadNew layout name offset).run.run d).2 :=
    .step (.loadNew layout name offset) hd nofun trivial (congrArg Prod.fst hop)
  rwa [hop] at hstep

/-! ## Trees that were read -/

/-- The tree of the outermost atom with the handle `id` was read from the source or from the bytes of another
atom, and since then nothing was done to it but that pointers in it were followed. What was done to other
trees does not matter. -/
inductive Read (id : Nat) : Document κ → Prop
  | loaded {d t : Document κ} {layout : Layout κ} {name : String} {offset : Nat} (hd : Reachable d)
    (hrun : (loadNew layout name offset).run d = (.ok id, t)) : Read id t
  | cast {d t : Document κ} {layout : Layout κ} {other : Nat} (hd : Reachable d) (hlive : d.Live other)
    (hrun : (Document.cast other layout).run d = (.ok id, t)) : Read id t
  | step {d : Document κ} (op : Operation κ) (h : Read id d) (hlive : ∀ i ∈ op.handles, d.Live i)
    (hinside : ∀ p ∈ d.places, p.root.atom.info.id = id → p.atom.info.id ∈ op.changes →
      op = .dereference p.atom.info.id) : Read id (op.run.run d).2
  | outside {d : Document κ} (sources : Sources) (h : Read id d) : Read id { d with sources }

theorem Operation.handles_of_changes (op : Operation κ) {i : Nat} (h : i ∈ op.changes) : i ∈ op.handles := by
  cases op with
  | referenceAtom source target =>
    cases List.mem_singleton.1 h
    exact List.mem_cons_self
  | create | loadNew | allocateNew | cast | copy | takeWarnings => cases h
  | loadAtom | allocateAtom | assign | assignAt | recalculate | dereference | reference | relocate | commit
  | discard => exact h

/-- Outermost atoms are told apart by their handles. -/
theorem Balanced.eq_root (hd : d.Balanced) {a b : Atom κ} (ha : a ∈ d.roots) (hb : b ∈ d.roots)
    (h : a.info.id = b.info.id) : a = b :=
  congrArg Place.atom (hd.eq_of_id (mem_places.2 ha : (⟨a, []⟩ : Place κ) ∈ d.places)
    (mem_places.2 hb : (⟨b, []⟩ : Place κ) ∈ d.places) h)

/-- There is an outermost atom with the handle, and its tree is as it was read. -/
structure HasRead (id : Nat) (d : Document κ) : Prop where
  balanced : d.Balanced
  tree : ∃ a ∈ d.roots, a.info.id = id ∧ a.AsRead

/-- A pointer in a tree that was read is followed. -/
theorem HasRead.dereferencing (h : d.HasRead id) {p : Place κ} (hp : p ∈ d.places)
    (hroot : p.root.atom.info.id = id) :
    Yields (dereference p.atom.info.id) d (fun _ t => t.HasRead id) fun _ t => t.HasRead id := by
  obtain ⟨hd, a, ha, rfl, hread⟩ := h
  have hall : ∀ b ∈ d.roots, b.info.id = a.info.id → b.AsRead := fun b hb hid => hd.eq_root hb ha hid ▸ hread
  have hasRead : Yields (dereference p.atom.info.id) d
      (fun _ t => ∀ b ∈ t.roots, b.info.id = a.info.id → b.AsRead)
      fun _ t => ∀ b ∈ t.roots, b.info.id = a.info.id → b.AsRead := by
    refine Yields.via (fun q t => q = p ∧ t = d) (DocumentM.yields_found (hd.isForest.found p hp) ⟨rfl, rfl⟩)
      fun q t ht => ?_
    obtain ⟨rfl, rfl⟩ := ht
    refine DocumentM.yields_got ?_
    have hfollow := followPointer_asRead t.env (hall _ (mem_places.1 hp) hroot)
      ⟨t.ledger, t.sources, .source t.source⟩
    refine (DocumentM.yields_ofLoad hfollow).bind fun result u hu => ?_
    obtain ⟨s, rfl, hresult⟩ := hu
    split
    · exact Yields.throw hall
    · refine Yields.via (fun _ v => ∀ b ∈ v.roots, b.info.id = a.info.id → b.AsRead) (Yields.modified ?_)
        fun _ _ hv => Yields.pure hv
      intro b hb hid
      rcases mem_roots_put hb with rfl | hb
      · exact hresult _ rfl
      · exact hall b hb hid
  have hsame {t : Document κ} (ht : d.TurnsInto d.roots t)
      (hroots : ∀ b ∈ t.roots, b.info.id = a.info.id → b.AsRead) : t.HasRead a.info.id := by
    have hmem : a ∈ t.roots := ht.roots.symm ▸ ha
    exact ⟨ht.balanced, a, hmem, rfl, hroots a hmem rfl⟩
  refine ((hd.yields_dereference (live_of_mem hp)).and hasRead).mono (fun _ t ht => ?_)
    fun _ t ht => hsame ht.1 ht.2
  obtain ⟨hturns | ⟨q, r, wire, -, -, -, -, -, hturns⟩, hroots⟩ := ht
  · exact hsame hturns hroots
  · have hmem : Atom.graft p.atom.info.id r a ∈ t.roots := hturns.roots.symm ▸ List.mem_map_of_mem ha
    have hid : (Atom.graft p.atom.info.id r a).info.id = a.info.id := congrArg Info.id (Atom.info_graft _ _ _)
    exact ⟨hturns.balanced, _, hmem, hid, hroots _ hmem hid⟩

/-- One operation, on other trees or to follow a pointer of this one. -/
theorem HasRead.run (h : d.HasRead id) (op : Operation κ) (hlive : ∀ i ∈ op.handles, d.Live i)
    (hinside : ∀ p ∈ d.places, p.root.atom.info.id = id → p.atom.info.id ∈ op.changes →
      op = .dereference p.atom.info.id) : (op.run.run d).2.HasRead id := by
  obtain ⟨hd, a, ha, hid, hread⟩ := h
  by_cases helse : ∀ i ∈ op.changes, a.holds i = false
  · have hkept := Keeping.run ⟨hd, ha⟩ op hlive helse
    exact ⟨hkept.balanced, a, hkept.root, hid, hread⟩
  · obtain ⟨i, hi, hin⟩ : ∃ i ∈ op.changes, a.holds i = true := by simpa using helse
    obtain ⟨p, hp, -, rfl⟩ := find?_of_live (hlive i (op.handles_of_changes hi))
    have hroot : p.root.atom.info.id = id := by rw [hd.eq_root_of_holds ha hp hin, hid]
    rw [hinside p hp hroot hi]
    have hfollow := HasRead.dereferencing ⟨hd, a, ha, hid, hread⟩ hp hroot
    exact Yields.of_run (Yields.bind hfollow fun _ _ ht => Yields.pure ht)

namespace Read

/-- Any pointer may be followed. -/
theorem follow (h : Read id d) {pointer : Nat} (hlive : d.Live pointer) :
    Read id ((Operation.dereference pointer).run.run d).2 := by
  refine .step (.dereference pointer) h (List.forall_mem_singleton.2 hlive) fun p _ _ hp => ?_
  rw [List.mem_singleton.1 hp]

/-- What a run keeps of the tree. -/
theorem hasRead (h : Read id d) : d.HasRead id := by
  induction h with
  | @loaded d t layout name offset hd hrun =>
    obtain ⟨out, s, others, hload, herror, hid, hroots, -⟩ :=
      (yields_loadNew_next d layout name offset).of_ok hrun
    have hmem : out.atom ∈ t.roots := hroots ▸ List.mem_cons_self
    exact ⟨(hd.balanced.balancing_loadNew layout name offset).of_ok hrun, out.atom, hmem, hid,
      asRead_of_load rfl hload herror⟩
  | @cast d t layout other hd hlive hrun =>
    obtain ⟨p, -, hfind, -⟩ := find?_of_live hlive
    obtain ⟨out, s, hload, herror, hid, ht⟩ := (yields_cast_next hfind layout).of_ok hrun
    have hmem : out.atom ∈ t.roots := ht ▸ List.mem_cons_self
    exact ⟨(hd.balanced.balancing_cast hlive layout).of_ok hrun, out.atom, hmem, hid,
      asRead_of_load rfl hload herror⟩
  | step op _ hlive hinside ih => exact ih.run op hlive hinside
  | outside sources _ ih => exact ⟨⟨ih.balanced.shaped, ih.balanced.balance⟩, ih.tree⟩

/-- Recalculating an atom of the tree does nothing, if the numbers of the pointers in it are found again. -/
theorem recalculate_eq {p : Place κ} (hp : p ∈ d.places) (h : Read p.root.atom.info.id d)
    (hregains : ∀ q ∈ p.walk, q.Regains) : (recalculate p.atom.info.id).run d = (.ok (), d) := by
  obtain ⟨hd, a, ha, hid, hread⟩ := h.hasRead
  have hroot : p.root.atom = a := hd.eq_root (mem_places.1 hp) ha hid.symm
  have hrest : ∀ q ∈ p.preorder, q.AtRest d.env :=
    Place.atRest_of_asRead (hroot ▸ hread) (p.walk_eq_preorder ▸ hregains)
  obtain ⟨before, after, hroots⟩ := List.append_of_mem (mem_places.1 hp)
  have hput : { d with ledger := d.ledger }.put p = d := by
    have hput := (hd.put_among (m := d.ledger) hroots rfl (hd.shaped_place hp) fun _ => rfl).1
    rw [← hroots] at hput
    exact hput
  have hnothing : Yields (recalculate p.atom.info.id) d (fun _ t => t = d) fun _ _ => False := by
    refine DocumentM.yields_got (yields_edit_found (hd.isForest.found p hp) ?_)
    refine (EditM.rests_recalculate (s := ⟨d.ledger, p⟩) hrest).mono (fun _ s hs => ?_) fun _ _ h => h
    rw [hs]
    exact hput
  obtain ⟨_, t, hrun, rfl⟩ := hnothing.succeeds fun _ _ => id
  exact hrun

end Read

/-! ## Numbers and addresses -/

/-- A pointer that was pointed at an address means it, and is followed to it unless its number is zero. An
address that a number means gives the bytes of the number back. A tree that was read, and whose pointers
were followed at most, stays as it is when it is recalculated. All this holds of policies without rules that
stand in for numbers, of numbers of 128 bits with a sign, and the first of it where everything is laid out. -/
theorem Reachable.pointing_inverts (hd : Reachable d) :
    (∀ id address e, d.InPlace → d.Live id → address < pow2 64 → (reference id address).run d = (.ok (), e) →
      ∃ pointer raw p, e.Pointing id pointer raw p ∧ (pointer.policy.isPlain = true →
        e.env.address pointer.policy p (pointer.wire.read raw) = .ok address
          ∧ (pointer.wire.read raw ≠ 0 → ∀ sources r f,
            (dereference id).run { e with sources } = (.ok r, f) →
              ∃ q, f.find? r = some q ∧ q.atom.info.offset = address)))
      ∧ (∀ (p : Place κ) (pointer : PointerLayout κ) raw address, pointer.policy.isPlain = true →
        (∀ info ∈ p.sites, info.offset < pow2 64) → raw.length = pointer.wire.width → pointer.wire.Fits raw →
          d.env.address pointer.policy p (pointer.wire.read raw) = .ok address →
            (d.env.wireFor pointer.policy p address).bind (fun wire => pointer.wire.encode (.signed wire))
              = .ok raw)
      ∧ ∀ p ∈ d.places, Read p.root.atom.info.id d → (∀ q ∈ p.walk, q.Regains) →
        (recalculate p.atom.info.id).run d = (.ok (), d) := by
  refine ⟨fun id address e hplace hlive hword hrun => ?_, ?_, fun p hp hread hregains =>
    hread.recalculate_eq hp hregains⟩
  · obtain ⟨hbalanced, -, pointer, raw, p, hpointing, hmeans⟩ :=
      (hd.balanced.yields_reference hplace hlive hword).of_ok hrun
    refine ⟨pointer, raw, p, hpointing, fun hplain => ⟨hmeans hplain, fun hwire sources r f hfollow => ?_⟩⟩
    have hopened : Pointing { e with sources } id pointer raw p :=
      ⟨hpointing.found, hpointing.mem, hpointing.pointer, hpointing.content, hpointing.parts⟩
    have hsame : Balanced { e with sources } := ⟨hbalanced.shaped, hbalanced.balance⟩
    exact (hsame.yields_dereference_of_address hopened hwire (hmeans hplain)).of_ok hfollow
  · intro p pointer raw address hplain hwords hlength hfits haddress
    obtain ⟨start, hstart⟩ := Env.countsFrom_of_address hplain haddress
    obtain ⟨hlow, hhigh⟩ := IntFormat.read_range hlength
    rw [Env.wireFor_of_address hstart (hstart.lt_of_words hwords) hlow hhigh haddress]
    exact IntFormat.encode_read hlength hfits

end Document

/-! ## A pointer of one byte -/

namespace BytePointer

open Document PlainBytes

/-- A pointer that counts from the start of its record. -/
def layout : Layout Unit := .record "R" [⟨"k", .given (.int .u8), none, none⟩,
  ⟨"p", .given (.pointer .u8 (.int .u8) (.relative .root)), none, none⟩]

/-- The record stands at one, and the pointer has the number two. -/
def loaded : Document Unit := ((loadNew layout "r" 1).run (empty #[0xEE, 7, 2, 0xAA])).2

def followed : Document Unit := ((Operation.dereference 2).run.run loaded).2

def pointed : Document Unit := ((reference 2 2).run followed).2

theorem attained_loaded : Attained loaded :=
  .loadNew (.empty ..) (run_of_toOption (a := 0) (by decide +kernel))

theorem attained_followed : Attained followed :=
  .step (.dereference 2) attained_loaded (List.forall_mem_singleton.2 (by decide +kernel)) trivial
    (ok_of_toOption (by decide +kernel))

theorem read_followed : Read 0 followed := by
  have hloaded : Read 0 loaded := .loaded (.empty ..) (run_of_toOption (by decide +kernel))
  exact hloaded.follow (by decide +kernel)

/-- Pointed at two, the pointer means two and is followed there. Its old number leads to three and back. The
record as it was read is not changed when it is recalculated. -/
theorem pointing_inverts_of_byte :
    (∃ pointer raw p, pointed.Pointing 2 pointer raw p
        ∧ pointed.env.address pointer.policy p (pointer.wire.read raw) = .ok 2
        ∧ ∀ sources r f, (dereference 2).run { pointed with sources } = (.ok r, f) →
          ∃ q, f.find? r = some q ∧ q.atom.info.offset = 2)
      ∧ (∃ p, followed.find? 2 = some p ∧ (followed.env.wireFor (.relative .root) p 3).bind
        (fun wire => IntFormat.u8.encode (.signed wire)) = .ok [2])
      ∧ (recalculate 0).run followed = (.ok (), followed) := by
  obtain ⟨hpoint, hback, hrest⟩ := attained_followed.reachable.pointing_inverts
  refine ⟨?_, ?_, ?_⟩
  · have hrun : (reference 2 2).run followed = (.ok (), pointed) := run_of_toOption (by decide +kernel)
    obtain ⟨pointer, raw, p, hpointing, hmeans⟩ := hpoint 2 2 pointed attained_followed.inPlace
      (by decide +kernel) (by decide) hrun
    have hshown : ((pointed.find? 2).all fun p => (pointerAt p.atom).toOption.all fun pointer =>
        pointer.policy.isPlain && p.atom.stored?.all fun raw => pointer.wire.read raw ≠ 0) = true := by
      decide +kernel
    rw [hpointing.found, Option.all_some, hpointing.pointer, Except.toOption, Option.all_some,
      Bool.and_eq_true, stored?, hpointing.content, Option.all_some, decide_eq_true_iff] at hshown
    obtain ⟨haddress, hfollow⟩ := hmeans hshown.1
    exact ⟨pointer, raw, p, hpointing, haddress, hfollow hshown.2⟩
  · obtain ⟨p, -, hfind, -, hshown⟩ := shown_of_live (show followed.Live 2 by decide +kernel)
      (fun p => p.sites.all (fun info => info.offset < pow2 64)
        && (followed.env.address (.relative .root) p (IntFormat.u8.read [2])).toOption == some 3)
      (by decide +kernel)
    rw [Bool.and_eq_true, List.all_eq_true, beq_iff_eq] at hshown
    obtain ⟨hwords, haddress⟩ := hshown
    have hwords : ∀ info ∈ p.sites, info.offset < pow2 64 := fun info hinfo =>
      of_decide_eq_true (hwords info hinfo)
    exact ⟨p, hfind, hback p ⟨.u8, .int .u8, .relative .root⟩ [2] 3 rfl hwords rfl
      (IntFormat.fits_of_width (by decide) rfl) (ok_of_toOption haddress)⟩
  · obtain ⟨p, hp, hfind, hid, hshown⟩ := shown_of_live (show followed.Live 0 by decide +kernel)
      (fun p => p.root.atom.info.id == 0 && p.walk.all fun q => decide q.Regains) (by decide +kernel)
    rw [Bool.and_eq_true, beq_iff_eq, List.all_eq_true] at hshown
    obtain ⟨hroot, hregains⟩ := hshown
    rw [← hid]
    exact hrest p hp (hroot ▸ read_followed) fun q hq => of_decide_eq_true (hregains q hq)

end BytePointer

/-! ## A pointer of sixteen bytes without a sign -/

namespace WidePointer

open Document PlainBytes

/-- Integers have sixteen bytes at most. -/
theorem greatest_width_mem : 1 ≤ 16 ∧ 16 ≤ 16 := by decide

def wide : IntFormat := ⟨16, false, .little, greatest_width_mem⟩

/-- A pointer that counts from the start of its record. -/
def layout : Layout Unit := .record "R" [⟨"k", .given (.int .u8), none, none⟩,
  ⟨"p", .given (.pointer wide (.int .u8) (.relative .root)), none, none⟩]

/-- All bits but the lowest three, as sixteen bytes. -/
def number : Bytes := 0xF8 :: List.replicate 15 0xFF

def loaded : Document Unit :=
  ((loadNew layout "r" 16).run (empty (List.replicate 17 0 ++ number).toArray)).2

def followed : Document Unit := ((Operation.dereference 2).run.run loaded).2

theorem attained_loaded : Attained loaded :=
  .loadNew (.empty ..) (run_of_toOption (a := 0) (by decide +kernel))

theorem read_followed : Read 0 followed := by
  have hloaded : Read 0 loaded := .loaded (.empty ..) (run_of_toOption (by decide +kernel))
  exact hloaded.follow (by decide +kernel)

/-- The number is taken for a negative one and means eight, but it is not found again from eight, and so
recalculating the record as it was read fails. -/
theorem not_inverted_of_sixteen_bytes : Read 0 followed
    ∧ (∃ p, followed.find? 2 = some p ∧ p.atom.content = .pointer number
      ∧ followed.env.address (.relative .root) p (wide.read number) = .ok 8
      ∧ (followed.env.wireFor (.relative .root) p 8).bind (fun n => wide.encode (.signed n))
        ≠ .ok number)
    ∧ ((recalculate 0).run followed).1 ≠ .ok () := by
  refine ⟨read_followed, ?_, fun h => ?_⟩
  · obtain ⟨p, -, hfind, -, hshown⟩ := shown_of_live (show followed.Live 2 by decide +kernel)
      (fun p => p.atom.content == .pointer number
        && (followed.env.address (.relative .root) p (wide.read number)).toOption == some 8
        && ((followed.env.wireFor (.relative .root) p 8).bind
          fun n => wide.encode (.signed n)).toOption == none) (by decide +kernel)
    simp only [Bool.and_eq_true, beq_iff_eq] at hshown
    obtain ⟨⟨hcontent, haddress⟩, hlost⟩ := hshown
    refine ⟨p, hfind, hcontent, ok_of_toOption haddress, fun h => ?_⟩
    rw [h] at hlost
    cases hlost
  · have hfailed : ((recalculate 0).run followed).1.toOption = none := by decide +kernel
    rw [h] at hfailed
    cases hfailed

end WidePointer

end BinaryLayout
