import BinaryLayout.Proofs.Frame.Document
import BinaryLayout.Proofs.Replay.Document

/-!
# Copies

A copy is an outermost atom that is loaded from the bytes of another atom. It stands for the first of
these bytes, whatever the layout is, and for all of them if it is as long as the other. It can be
shorter: a copy knows neither the atom around the other one, from which padding up to an alignment is
counted, nor the extent that a record forced, whose last bytes are not part of the layout. The other
atoms of settable layouts are copied whole. What is done with a copy afterwards leaves the other atom
as it is, and the other way round.

## Main definitions

* `Document.Copied`: a copy, and the atom that it was made from.

## Main statements

* `Document.Balanced.serialize_copy`: the bytes of a copy.
* `Document.Loaded.serialize_copy`: an atom in a tree that was loaded is copied whole.
* `Document.copy_of_loaded`: both, for the atoms of a tree that was loaded.
-/

namespace BinaryLayout

variable {κ : Type}

open Atom

namespace Document

variable {d t : Document κ} {p q : Place κ} {layout : Layout κ} {id new : Nat}

/-- The atom that is made next from another one, without content. -/
def nextCast (d : Document κ) (layout : Layout κ) (p : Place κ) : Atom κ :=
  d.next layout p.atom.info.name p.atom.byteOffset

/-- Where loading it from the bytes of the other one starts. -/
def casting (d : Document κ) (p : Place κ) : LoadState κ :=
  ⟨d.ledger.take.2, [], .ofBytes (p.serialize d.env.config.bitOrder) p.atom.byteOffset⟩

/-- A new outermost atom from the bytes of another is there when it was loaded, and only then. -/
theorem yields_cast_next (hfind : d.find? id = some p) (layout : Layout κ) :
    Yields (cast id layout) d
      (fun new t => ∃ out s, load d.env Layout.nestingLimit [] (d.nextCast layout p)
          (d.casting p) = (out, s)
        ∧ out.error? = none ∧ out.atom.info.id = new ∧ t = ({ d with ledger := s.ledger }.add out.atom))
      fun _ _ => ∃ out s, load d.env Layout.nestingLimit [] (d.nextCast layout p)
        (d.casting p) = (out, s) ∧ out.error? ≠ none := by
  refine Yields.via (fun q t => q = p ∧ t = d) (DocumentM.yields_found hfind ⟨rfl, rfl⟩) fun q t ht => ?_
  obtain ⟨rfl, rfl⟩ := ht
  refine DocumentM.yields_got ?_
  dsimp only
  have hspawned : Ends (LedgerM.spawn q.atom.info.name (.bytes layout) q.atom.byteOffset) t.ledger
      fun blank l => blank = t.nextCast layout q ∧ l = t.ledger.take.2 := ⟨rfl, rfl⟩
  refine (DocumentM.yields_ofLedger hspawned).bind fun blank u hu => ?_
  obtain ⟨_, rfl, rfl, rfl⟩ := hu
  have hloaded : Ends (LedgerM.fromBytes (q.serialize t.env.config.bitOrder) q.atom.byteOffset
      (load t.env Layout.nestingLimit [] (t.nextCast layout q))) t.ledger.take.2
      fun out l => ∃ s, load t.env Layout.nestingLimit [] (t.nextCast layout q)
        (t.casting q) = (out, s) ∧ l = s.ledger := ⟨_, rfl, rfl⟩
  refine (DocumentM.yields_ofLedger hloaded).bind fun out v hv => ?_
  obtain ⟨_, rfl, s, hrun, rfl⟩ := hv
  split
  · rename_i e herror
    refine Yields.via (fun _ _ => True) trivial fun _ _ _ => Yields.throw ⟨out, s, hrun, ?_⟩
    rw [herror]
    exact nofun
  · rename_i herror
    refine Yields.via (fun _ w => w = ({ t with ledger := s.ledger }.add out.atom)) (Yields.modified rfl)
      fun _ w hw => ?_
    exact Yields.pure ⟨out, s, hrun, herror, rfl, hw⟩

/-- What a copy leaves: the document has one more outermost atom. -/
theorem Balanced.yields_copy_next (hd : d.Balanced) (hp : p ∈ d.places)
    (hlayout : p.atom.info.layout = .bytes layout) :
    Yields (copy p.atom.info.id) d
      (fun new t => ∃ out s, load d.env Layout.nestingLimit [] (d.nextCast layout p)
          (d.casting p) = (out, s)
        ∧ out.error? = none ∧ out.atom.info.id = new ∧ d.TurnsInto (out.atom :: d.roots) t)
      fun _ _ => ∃ out s, load d.env Layout.nestingLimit [] (d.nextCast layout p)
        (d.casting p) = (out, s) ∧ out.error? ≠ none := by
  have hfind := hd.isForest.found p hp
  refine Yields.via (fun q t => q = p ∧ t = d) (DocumentM.yields_found hfind ⟨rfl, rfl⟩) fun q t ht => ?_
  obtain ⟨rfl, rfl⟩ := ht
  rw [hlayout]
  have hboth := (yields_cast_next hfind layout).and (hd.adds_cast (live_of_mem hp) layout)
  refine hboth.mono (fun new u hu => ?_) fun _ _ h => h.1
  obtain ⟨⟨out, s, hrun, herror, hnew, hadd⟩, a, hturns⟩ := hu
  refine ⟨out, s, hrun, herror, hnew, ?_⟩
  have hroots := congrArg roots hadd
  rw [hturns.roots] at hroots
  obtain ⟨rfl, -⟩ := List.cons.inj hroots
  exact hturns

/-- The atom with the handle `new` is a copy of the one at `p`. -/
structure Copied (p : Place κ) (t : Document κ) (new : Nat) (q : Place κ) : Prop where
  found : t.find? new = some q
  outermost : q.frames = []
  layout : q.atom.info.layout = p.atom.info.layout
  offset : q.atom.info.offset = p.atom.info.offset
  original : t.find? p.atom.info.id = some p
  apart : ∀ id, q.atom.holds id = true → p.root.atom.holds id = false
  /-- Whatever is done outside the copy leaves it as it is. -/
  copyKept : ∀ u, t.RunsBeside q.atom u → u.find? new = some q
  /-- Whatever is done outside the tree of the original, to the copy too, leaves the original as it is. -/
  originalKept : ∀ u, t.RunsBeside p.root.atom u → u.find? p.atom.info.id = some p

/-- A new outermost atom that was loaded as a copy. -/
theorem TurnsInto.copied {a : Atom κ} (h : d.TurnsInto (a :: d.roots) t) (hp : p ∈ d.places)
    (hlayout : a.info.layout = p.atom.info.layout) (hoffset : a.info.offset = p.atom.info.offset) :
    Copied p t a.info.id ⟨a, []⟩ := by
  have hcopy : (⟨a, []⟩ : Place κ) ∈ t.places := mem_places.2 (h.roots.symm ▸ List.mem_cons_self)
  have horiginal : p ∈ t.places :=
    mem_places.2 (h.roots.symm ▸ List.mem_cons_of_mem _ (mem_places.1 hp))
  have hforest := h.balanced.isForest
  refine ⟨hforest.found _ hcopy, rfl, hlayout, hoffset, hforest.found p horiginal, fun id hid => ?_,
    fun _ hu => RunsBeside.find?_eq h.balanced hcopy hu, fun _ hu => RunsBeside.find?_eq h.balanced horiginal hu⟩
  -- No handle occurs twice.
  have honce := h.balanced.tallies_le id
  have htree := tallies_pos (mem_places.1 hp) id
  rw [h.roots, tallies] at honce
  have hcount : 0 < a.tally id := (holds_iff id a).1 hid
  rw [← Bool.not_eq_true, holds_iff]
  omega

/-- The bytes of an atom of bytes are the same in every order of bits around it. -/
theorem Balanced.serialize_place (hd : d.Balanced) (hp : p ∈ d.places)
    (hlayout : p.atom.info.layout = .bytes layout) (order order' : ByteOrder) :
    p.serialize order = serialize order' p.atom := by
  have hbits : p.atom.isBits = false := by
    rw [isBits, hlayout]
    rfl
  exact serialize_eq _ _ (Everywhere.of_assemble (hd.shaped_place hp)) hbits

/-- A copy stands for the first bytes of the atom that it was made from, as many as it has. -/
theorem Balanced.serialize_copy (hd : d.Balanced) (hp : p ∈ d.places)
    (hlayout : p.atom.info.layout = .bytes layout) (hcounted : layout.BitsCounted d.env.rules)
    (hrun : (copy p.atom.info.id).run d = (.ok new, t)) :
    ∃ q, Copied p t new q ∧ ∀ order, (q.serialize order).length = q.atom.size
      ∧ q.serialize order = (p.serialize order).take q.atom.size := by
  obtain ⟨out, s, hload, herror, rfl, hturns⟩ := (hd.yields_copy_next hp hlayout).of_ok hrun
  have hoffset : p.atom.byteOffset = p.atom.info.offset := by
    rw [byteOffset, isBits, hlayout]
    rfl
  have hlaid := laid_load d.env Layout.nestingLimit [] (d.nextCast layout p) (d.casting p)
  have hbegins : Ends (LedgerM.fromBytes (p.serialize d.env.config.bitOrder) p.atom.byteOffset
      (load d.env Layout.nestingLimit [] (d.nextCast layout p))) d.ledger.take.2 _ :=
    mirrors_fromBytes d.env Layout.nestingLimit [] (a := d.nextCast layout p) rfl hcounted
      (p.serialize d.env.config.bitOrder) d.ledger.take.2
  have hsame : (LedgerM.fromBytes (p.serialize d.env.config.bitOrder) p.atom.byteOffset
      (load d.env Layout.nestingLimit [] (d.nextCast layout p)) d.ledger.take.2).1 = out :=
    congrArg Prod.fst hload
  rw [Ends, hsame] at hbegins
  rw [Ends, hload] at hlaid
  obtain ⟨hwhole, hsite⟩ := hlaid herror
  refine ⟨⟨out.atom, []⟩, hturns.copied hp ((Info.layout_of_site hsite).trans hlayout.symm)
    ((Info.offset_of_site hsite).trans hoffset), fun order => ?_⟩
  have hlength := length_serialize (Place.bitOrder ⟨out.atom, []⟩ order) out.atom hwhole
  have hprefix := hbegins herror (Place.bitOrder ⟨out.atom, []⟩ order)
  rw [List.prefix_iff_eq_take, hlength, hd.serialize_place hp hlayout _ order,
    ← hd.serialize_place hp hlayout order order] at hprefix
  exact ⟨hlength, hprefix⟩

/-! ## Trees that were loaded -/

theorem Loaded.balanced (h : Loaded layout d id t) (hd : d.Balanced) : t.Balanced := by
  cases h with
  | @new name offset _ _ hrun => exact (hd.balancing_loadNew layout name offset).of_ok hrun
  | @again a _ hroot _ hrun =>
    have hplace : (⟨a, []⟩ : Place κ) ∈ d.places := mem_places.2 hroot
    exact ((hd.renewing_loadAtom (live_of_mem hplace)).of_ok hrun).balanced

/-- What is known below a place in the tree of an outermost atom that was loaded. -/
theorem Loaded.sound_place (h : Loaded layout d id t) (hd : d.Balanced) (hsettable : layout.Settable d.env.rules)
    (hsource : View.Coherent (.source d.source, d.sources))
    (hquiet : t.ledger.unterminated = d.ledger.unterminated) (hp : p ∈ t.places)
    (hroot : p.root.atom.info.id = id) :
    t.env = d.env ∧ Everywhere (fun b => b.Sound d.env ∧ b.IsSettled d.env) p.atom := by
  obtain ⟨hbalanced, henv, a, ha, rfl, hsound⟩ := h.sound hd hsettable hsource hquiet
  have houter : p.root = ⟨a, []⟩ := hbalanced.eq_of_id (p := p.root) (q := ⟨a, []⟩)
    (mem_places_of_root (p := p) rfl hp) (mem_places.2 ha) hroot
  have htree : p.root.atom = a := congrArg Place.atom houter
  rw [← htree] at hsound
  exact ⟨henv, Everywhere.of_assemble hsound⟩

/-- An atom of bytes that was loaded with its tree is copied whole, unless it is padding up to an alignment or an
array that ends by what stands around it. -/
theorem Loaded.serialize_copy (h : Loaded layout d id t) (hd : d.Balanced) (hsettable : layout.Settable d.env.rules)
    (hsource : View.Coherent (.source d.source, d.sources))
    (hquiet : t.ledger.unterminated = d.ledger.unterminated) (hp : p ∈ t.places)
    (hroot : p.root.atom.info.id = id) {inner : Layout κ} (hown : p.atom.info.layout = .bytes inner)
    (hfree : inner.Freestanding d.env.rules) (hend : p.atom.info.offset + p.atom.size < pow2 64) :
    ∃ new u q, (copy p.atom.info.id).run t = (.ok new, u) ∧ Copied p u new q
      ∧ ∀ order, q.serialize order = p.serialize order := by
  have ht := h.balanced hd
  obtain ⟨henv, hall⟩ := h.sound_place hd hsettable hsource hquiet hp hroot
  have hbits : p.atom.isBits = false := by
    rw [isBits, hown]
    rfl
  have hoffset : p.atom.byteOffset = p.atom.info.offset := by
    rw [byteOffset, hbits]
    rfl
  obtain ⟨hnull, hagain⟩ := hall.here.2.portable inner hown hfree
  have hseat : (t.nextCast inner p).info.seat = p.atom.info.seat :=
    Info.seat_ext rfl hown.symm hoffset hnull.symm
  have hserial := ht.serialize_place hp hown t.env.config.bitOrder t.env.config.bitOrder
  have hbytes := length_serialize t.env.config.bitOrder p.atom (hall.mono fun _ h => h.1.laid)
  have hgives : (t.casting p).view.Gives p.atom.info.offset (serialize d.env.config.bitOrder p.atom) := by
    rw [← henv, ← hoffset]
    refine hserial ▸ View.gives_ofBytes ?_ []
    rw [hoffset, hserial, hbytes]
    exact hend
  have hremade := hagain ⟨0, []⟩ [] (t.nextCast inner p) (t.casting p) rfl hseat hgives
  rw [← henv] at hremade
  obtain ⟨new, u, hrun, out, s, hload', -, rfl, hturns⟩ :=
    (ht.yields_copy_next hp hown).succeeds fun e u hfailed => by
      obtain ⟨out, s, hload', hnot⟩ := hfailed
      rw [Ends, hload'] at hremade
      exact hnot hremade.complete
  rw [Ends, hload'] at hremade
  have hplain : out.atom.plain = p.atom.plain := hremade.plain
  refine ⟨_, u, ⟨out.atom, []⟩, hrun, hturns.copied hp (layout_of_plain hplain) (offset_of_plain hplain),
    fun order => ?_⟩
  rw [ht.serialize_place hp hown order (Place.bitOrder ⟨out.atom, []⟩ order)]
  exact serialize_of_plain hplain _

/-- If an atom in a tree that was loaded is copied, then the copy stands for the first bytes of the atom, as many
as it has. If the layout is settable and nothing around the atom matters to it, it is copied, and whole. -/
theorem copy_of_loaded (hd : d.Reachable) (hload : Loaded layout d id t) (hp : p ∈ t.places)
    (hroot : p.root.atom.info.id = id) {inner : Layout κ} (hown : p.atom.info.layout = .bytes inner)
    (hcounted : inner.BitsCounted t.env.rules) :
    (∀ new u, (copy p.atom.info.id).run t = (.ok new, u) → ∃ q, Copied p u new q
      ∧ ∀ order, (q.serialize order).length = q.atom.size
        ∧ q.serialize order = (p.serialize order).take q.atom.size)
    ∧ (layout.Settable d.env.rules → View.Coherent (.source d.source, d.sources) →
      t.ledger.unterminated = d.ledger.unterminated → inner.Freestanding d.env.rules →
      p.atom.info.offset + p.atom.size < pow2 64 →
        ∃ new u q, (copy p.atom.info.id).run t = (.ok new, u) ∧ Copied p u new q
          ∧ ∀ order, q.serialize order = p.serialize order) :=
  ⟨fun _ _ hrun => (hload.balanced hd.balanced).serialize_copy hp hown hcounted hrun,
    fun hsettable hsource hquiet hfree hend =>
      hload.serialize_copy hd.balanced hsettable hsource hquiet hp hroot hown hfree hend⟩

/-- The items of a record that counts their bytes, copied. -/
theorem copy_of_loaded_of_items :
    let d := counting (.memory #[5, 0, 0x61, 5, 0, 0x61] true 0)
    let run := (loadNew counted "x" 0).run d
    counted.Settable d.env.rules ∧ View.Coherent (.source d.source, d.sources) ∧ run.1.toOption = some 0
      ∧ run.2.ledger.unterminated = d.ledger.unterminated
      ∧ ∃ p ∈ run.2.places, p.root.atom.info.id = 0 ∧ p.serialize .big = [0, 0x61, 5, 0, 0x61]
        ∧ ∃ new u q, (copy p.atom.info.id).run run.2 = (.ok new, u) ∧ Copied p u new q
          ∧ ∀ order, q.serialize order = p.serialize order := by
  intro d run
  have hsettable : counted.Settable d.env.rules := settable_counted _
  have hsees (rule : Unit) : d.env.rules.SeesElement rule := fun _ _ _ => rfl
  have hhonest : Sources.Honest d.sources 0 := trivial
  have hsource : View.Coherent (.source d.source, d.sources) := hhonest.coherent
  have hok : run.1.toOption = some 0 := by decide +kernel
  have hrun : (loadNew counted "x" 0).run d = (.ok 0, run.2) := run_of_toOption hok
  have hquiet : run.2.ledger.unterminated = d.ledger.unterminated := by decide +kernel
  have hlive : run.2.Live 2 := by decide +kernel
  obtain ⟨p, hp, hfind, -⟩ := find?_of_live hlive
  have hseen : (run.2.find? 2).map (fun p => (p.root.atom.info.id, p.atom.info.layout.isArray, p.atom.isBits,
      p.atom.info.offset + p.atom.size, p.serialize .big)) = some (0, true, false, 6, [0, 0x61, 5, 0, 0x61]) := by
    decide +kernel
  rw [hfind] at hseen
  simp only [Option.map_some, Option.some.injEq, Prod.mk.injEq] at hseen
  obtain ⟨hroot, harray, hbits, hend, hbytes⟩ := hseen
  obtain ⟨inner, hown, hfree⟩ : ∃ inner, p.atom.info.layout = .bytes inner ∧ inner.Freestanding d.env.rules := by
    rw [isBits] at hbits
    cases hlayout : p.atom.info.layout with
    | bits layout =>
      rw [hlayout] at hbits
      cases hbits
    | bytes inner =>
      rw [hlayout] at harray
      refine ⟨inner, rfl, ?_⟩
      cases inner with
      | array element shape =>
        cases shape with
        | terminated rule => exact hsees rule
        | counted | block | unending => trivial
      | _ => cases harray
  have hload : Loaded counted d 0 run.2 := .new hrun
  have hd : d.Reachable := .empty _ _ _
  obtain ⟨henv, hall⟩ := hload.sound_place hd.balanced hsettable hsource hquiet hp hroot
  have hcounted : inner.BitsCounted run.2.env.rules := by
    rw [henv]
    exact (hall.here.2.settable inner hown).bitsCounted
  refine ⟨hsettable, hsource, hok, hquiet, p, hp, hroot, hbytes, ?_⟩
  refine (copy_of_loaded hd hload hp hroot hown hcounted).2 hsettable hsource hquiet hfree ?_
  rw [hend]
  decide

/-- Padding up to an alignment inside a record that is not aligned, and a field with a byte more than its
number needs. The copy of the padding is shorter, since it is counted from where the data starts, and the
copy of the field is its number alone. -/
theorem copy_ne_of_surroundings :
    let record : Layout Unit := .record "r" [⟨"a", .given (.int .u8), none, none⟩,
      ⟨"padding", .given (.align 4), none, none⟩, ⟨"sized", .given (.int .u8), some (), none⟩]
    let d : Document Unit :=
      { counting (.memory #[0, 0, 1, 2, 3, 4, 5, 6] true 0) with
        env := ⟨{}, { (counting (.memory #[] true 0)).env.rules with extent := fun _ _ => .ok 2 }⟩ }
    let loaded := (loadNew record "r" 2).run d
    let padding := (copy 2).run loaded.2
    let sized := (copy 3).run padding.2
    loaded.1.toOption = some 0 ∧ (loaded.2.find? 2).map (Place.serialize · .big) = some [2, 3, 4]
      ∧ (loaded.2.find? 3).map (Place.serialize · .big) = some [5, 6]
      ∧ padding.1.toOption = some 4 ∧ (padding.2.find? 4).map (Place.serialize · .big) = some [2]
      ∧ sized.1.toOption = some 5 ∧ (sized.2.find? 5).map (Place.serialize · .big) = some [5] := by
  decide +kernel

end Document

end BinaryLayout
