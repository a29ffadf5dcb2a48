import BinaryLayout.Proofs.Placement.Document
import BinaryLayout.Proofs.Replay.Document
import BinaryLayout.Proofs.Resize.Offsets

/-!
# Values of another size

A value that is assigned to an atom without parts takes the place of the one before, whatever its size
is. The bytes of the outermost atom are those before the atom, its new bytes, and those after it. Nothing
before the atom moves, and everything after it in its layout moves by the difference in size.

This needs a tree in which atoms stand where their layouts put them, as they do after a load and as long as
no operation fails. It is about trees in which each atom decides its size alone: no rule decides a layout
or an extent, and no members share bytes. All that follows the change there is that later atoms move, and that
those around it are marked as dirty. Offsets end with the last one, so what would move past it stays there.

## Main definitions

* `Document.Undisturbed`: an outermost atom that was loaded, or made with no operation failing so far.
* `Place.Splices`: an atom before and after its bytes were replaced by others.

## Main statements

* `EditM.follows_afterChange`: what surrounds a changed atom moves.
* `EditM.follows_setValue`: what surrounds an atom that a value is assigned to moves.
* `Document.splices_assign`: a value assigned to an atom without parts.
* `Document.offset_eq_of_last`: an atom that stays at the last offset.
-/

namespace BinaryLayout

section Edits

variable {κ : Type}

open Atom

/-! ## What follows a change -/

namespace Frame

variable {f : Frame κ} {frames : List (Frame κ)}

theorem IsRun.indifferent (hf : f.IsRun) : f.Indifferent := by
  have hstatic := hf.static
  refine ⟨fun backing hcontent => ?_, fun name fields hlayout field hfield => ?_, fun name fields hlayout => ?_⟩
  · cases hf.content.symm.trans hcontent
  · rw [hlayout] at hstatic
    exact List.all_eq_true.1 hstatic field (List.mem_of_mem_drop hfield)
  · rw [hlayout] at hstatic
    cases hstatic

theorem unaffected_of_isRun (hrun : ∀ f ∈ frames, f.IsRun) : Unaffected frames := by
  induction frames with
  | nil => trivial
  | cons f frames ih =>
    rw [List.forall_mem_cons] at hrun
    exact .inr ⟨hrun.1.indifferent, ih hrun.2⟩

theorem isRun_following (hrun : ∀ f ∈ frames, f.IsRun) (a : Atom κ) : ∀ f ∈ following a frames, f.IsRun := by
  induction frames generalizing a with
  | nil => exact nofun
  | cons f frames ih =>
    rw [List.forall_mem_cons] at hrun
    rw [following]
    exact List.forall_mem_cons.2 ⟨⟨hrun.1.content, hrun.1.static⟩, ih hrun.2 _⟩

end Frame

namespace EditM

variable {env : Env κ} {s : Workplace κ}

/-- What comes after a changed atom moves, and what is around it is marked. -/
theorem follows_afterChange (hrun : ∀ f ∈ s.place.frames, f.IsRun)
    (hpoised : Poised s.place.atom.info.offset s.place.frames) :
    Yields (afterChange env) s
      (fun _ t => t.place = ⟨s.place.atom, markDirty (Frame.following s.place.atom s.place.frames)⟩)
      fun _ _ => False := by
  refine (yields_around_self ((Frame.unaffected_of_isRun hrun).followDependents_eq env _)).bind fun _ t ht => ?_
  subst ht
  refine Yields.via (fun _ u => u.place = ⟨t.place.atom, Frame.following t.place.atom t.place.frames⟩)
    (Yields.modified ?_) fun _ u hu => ?_
  · exact Place.reflowIn_following hrun hpoised
  have hunions : Yields (around (syncUnions env)) u (fun _ v => v = u) fun _ _ => False := by
    refine yields_around_self ?_
    rw [hu]
    exact (Frame.unaffected_of_isRun (Frame.isRun_following hrun _)).syncUnions_eq env _
  refine hunions.bind fun _ v hv => Yields.modified ?_
  subst hv
  dsimp only
  rw [hu]

/-! ## Atoms without parts -/

/-- The atom at the place was changed, and what surrounds it waits. -/
def Replaced (s t : Workplace κ) : Prop :=
  t.place.atom.info.site = s.place.atom.info.site ∧ t.place.frames = s.place.frames

theorem replaced_prepare (hs : Everywhere Shaped s.whole) :
    Yields (prepare env) s (fun _ t => Replaced s t) fun _ _ => True := by
  refine (yields_atom s).bind fun a t ht => ?_
  obtain ⟨rfl, rfl⟩ := ht
  dsimp only
  split
  · exact Yields.throw_bind trivial
  · split
    · refine yields_remake ((accounts_allocate env Layout.nestingLimit t.place.frames
        (Everywhere.of_assemble hs) t.ledger).mono fun out l hout => ⟨fun _ => ?_, fun _ _ => trivial⟩)
      exact ⟨hout.1.site, rfl⟩
    · exact Yields.pure ⟨rfl, rfl⟩

theorem replaced_setScalar (layout : Layout κ) (v : Value) :
    Yields (setScalar layout v) s (fun _ t => Replaced s t) fun _ _ => True := by
  refine Yields.via (fun _ t => t = s) (yields_ofExcept (fun _ _ => rfl) fun _ _ => trivial) fun raw t ht => ?_
  subst ht
  refine (yields_atom t).bind fun a u hu => ?_
  obtain ⟨rfl, rfl⟩ := hu
  refine Yields.via (fun _ v => v.place = u.place) rfl fun _ w hw => ?_
  have hframes : w.place.frames = u.place.frames := congrArg Place.frames hw
  refine yields_setAtom ⟨?_, hframes⟩
  rw [withBytes_eq, info_fill, info_mapInfo]
  rfl

/-- A value is assigned to an atom without parts of its own, in a tree of static layouts. -/
theorem follows_setValue (v : Value) (hstatic : Everywhere IsStatic s.whole)
    (hpointer : ∀ f ∈ s.place.frames, ¬ f.isPointer = true)
    (hleaf : s.place.atom.info.layout.isRun = false) :
    Yields (setValue env v) s
      (fun _ t => ∃ b, b.info.site = s.place.atom.info.site
        ∧ t.place = ⟨b, markDirty (Frame.following b s.place.frames)⟩) fun _ _ => True := by
  have hrun := Frame.isRun_of_static hstatic hpointer
  have hpoised := poised_of_laidOut (hstatic.mono fun _ h => h.laid)
  have hatom : s.place.atom.IsStatic := (Everywhere.of_assemble hstatic).here
  refine (yields_atom s).bind fun a t ht => ?_
  obtain ⟨rfl, rfl⟩ := ht
  rw [hatom.isBits, if_neg Bool.false_ne_true, setBytes.eq_def]
  refine (replaced_prepare (hstatic.mono fun _ h => h.shaped)).bind fun _ u hu => ?_
  have hscalar (layout : Layout κ) : Yields (do setScalar layout v; finish env) u
      (fun _ w => ∃ b, b.info.site = t.place.atom.info.site
        ∧ w.place = ⟨b, markDirty (Frame.following b t.place.frames)⟩) fun _ _ => True := by
    refine (replaced_setScalar layout v).bind fun _ w hw => ?_
    refine (yields_atom w).bind fun a x hx => ?_
    obtain ⟨rfl, rfl⟩ := hx
    refine Yields.via (fun _ y => y.place = ⟨x.place.atom.ready, x.place.frames⟩) rfl fun _ y hy => ?_
    have hsite : x.place.atom.ready.info.site = t.place.atom.info.site := by
      rw [site_ready, hw.1, hu.1]
    have hframes : y.place.frames = t.place.frames := by rw [hy, hw.2, hu.2]
    have hready : y.place.atom = x.place.atom.ready := by rw [hy]
    refine (follows_afterChange (s := y) (hframes ▸ hrun) ?_).mono (fun _ z hz => ?_) fun _ _ _ => trivial
    · rw [hframes, hready, Info.offset_of_site hsite]
      exact hpoised
    · rw [hready, hframes] at hz
      exact ⟨_, hsite, hz⟩
  refine (yields_atom u).bind fun a w hw => ?_
  obtain ⟨rfl, rfl⟩ := hw
  have hsame := Info.layout_of_site hu.1
  have hfixed := hatom.static
  rw [← hsame] at hfixed hleaf
  cases hlayout : w.place.atom.info.layout with
  | bits layout =>
    rw [hlayout] at hfixed
    cases hfixed
  | bytes layout =>
    rw [hlayout] at hfixed hleaf
    cases layout with
    | record | array => cases hleaf
    | union | bits => cases hfixed
    | int | float | fixed | varint | text | block | constant | padding | align | pointer => exact hscalar _

end EditM

end Edits

variable {κ : Type}

open Atom

namespace Document

variable {d t : Document κ} {layout : Layout κ} {id : Nat}

/-! ## Atoms that were loaded -/

/-- The outermost atom with the handle is laid out, in a document where no handle occurs twice. -/
def HasLaid (d : Document κ) (id : Nat) : Prop :=
  d.Balanced ∧ ∃ a ∈ d.roots, a.info.id = id ∧ Everywhere LaidOut a

/-- An outermost atom that was there is loaded. -/
theorem Balanced.hasLaid_loadAtom (hd : d.Balanced) {a : Atom κ} (hroot : a ∈ d.roots) :
    Yields (loadAtom a.info.id) d (fun _ t => t.HasLaid a.info.id) fun _ _ => True := by
  have hplace : (⟨a, []⟩ : Place κ) ∈ d.places := mem_places.2 hroot
  refine (DocumentM.yields_place (live_of_mem hplace)).bind fun p t ht => ?_
  obtain ⟨⟨-, hfind, -⟩, rfl⟩ := ht
  obtain rfl : p = ⟨a, []⟩ := Option.some.inj (hfind.symm.trans (hd.find?_root hroot))
  dsimp only
  split
  · exact Yields.throw_bind trivial
  · refine DocumentM.yields_got ?_
    have hload := (accounts_load t.env Layout.nestingLimit [] (.inl (hd.shaped a hroot))
      ⟨t.ledger, t.sources, .source t.source⟩).and
        (laid_load t.env Layout.nestingLimit [] a ⟨t.ledger, t.sources, .source t.source⟩)
    refine (DocumentM.yields_ofLoad hload).bind fun out u hu => ?_
    obtain ⟨s, rfl, haccounts, hlaid⟩ := hu
    split
    · exact Yields.via (fun _ _ => True) trivial fun _ _ _ => Yields.throw trivial
    · rename_i herror
      have hd' : Balanced { t with sources := s.sources } := ⟨hd.shaped, hd.balance⟩
      obtain ⟨hbalanced, hmem, -⟩ := hd'.put_root hroot haccounts
      exact Yields.modified ⟨hbalanced, out.atom, hmem, Info.id_of_site haccounts.site, (hlaid herror).1⟩

/-- What was loaded is laid out. -/
theorem Loaded.hasLaid (h : Loaded layout d id t) (hd : d.Balanced) : t.HasLaid id := by
  cases h with
  | again hroot _ hrun => exact (hd.hasLaid_loadAtom hroot).of_ok hrun
  | @new name offset _ _ hrun =>
    obtain ⟨out, s, others, hload, herror, rfl, hroots, -, -⟩ :=
      (yields_loadNew_next d layout name offset).of_ok hrun
    have hlaid := laid_load d.env Layout.nestingLimit [] (d.next layout name offset) d.loadingNext
    rw [Ends, hload] at hlaid
    refine ⟨(hd.balancing_loadNew layout name offset).of_ok hrun, out.atom, ?_, rfl, (hlaid herror).1⟩
    rw [hroots]
    exact List.mem_cons_self

/-- The outermost atom with the handle was loaded just now, or no operation has failed so far. -/
inductive Undisturbed (d : Document κ) (id : Nat) : Prop
  | loaded {layout : Layout κ} {e : Document κ} (he : e.Reachable) (h : Loaded layout e id d)
  | attained (h : d.Attained)

/-- An outermost atom of which nothing was left half changed is laid out. -/
theorem Undisturbed.laid {p : Place κ} (h : d.Undisturbed p.root.atom.info.id) (hp : p ∈ d.places) :
    d.Balanced ∧ Everywhere LaidOut p.root.atom := by
  cases h with
  | attained h => exact ⟨h.reachable.balanced, h.inPlace.place hp⟩
  | loaded he h =>
    obtain ⟨hbalanced, a, hroot, hid, hlaid⟩ := h.hasLaid he.balanced
    refine ⟨hbalanced, ?_⟩
    have hwhole : p.root.root = p.root := rfl
    have hsame : ⟨a, []⟩ = p.root :=
      hbalanced.eq_of_id (mem_places.2 hroot) (mem_places_of_root hwhole hp) hid
    rw [← hsame]
    exact hlaid

end Document

/-! ## Values -/

/-- The bytes of an atom were replaced by others: those before it and after it stay, and so do all
offsets before it, while later ones move by the difference in size. -/
structure Place.Splices (p q : Place κ) : Prop where
  site : q.atom.info.site = p.atom.info.site
  before : ∀ order, p.root.atom.serialize order =
    Frame.front order p.frames ++ p.atom.serialize order ++ Frame.back order p.frames
  after : ∀ order, q.root.atom.serialize order =
    Frame.front order p.frames ++ q.atom.serialize order ++ Frame.back order p.frames
  frames : List.Forall₂ (Frame.Spliced p.atom.size q.atom.size) p.frames q.frames

/-- An atom of whole bytes whose surroundings followed it. -/
theorem Place.splices_following {p : Place κ} {b : Atom κ} (htree : Everywhere IsStatic p.root.atom)
    (hrun : ∀ f ∈ p.frames, f.IsRun) (hsite : b.info.site = p.atom.info.site) :
    p.Splices ⟨b, markDirty (Frame.following b p.frames)⟩ where
  site := hsite
  before order := Frame.serialize_assemble order hrun p.atom
  after order := by
    rw [root, serialize_markDirty, Frame.serialize_assemble order (Frame.isRun_following hrun b),
      Frame.front_following, Frame.back_following]
  frames := Frame.spliced_markDirty (Frame.spliced_following htree hrun (Info.offset_of_site hsite)
    (Nat.zero_add _).symm (Nat.zero_add _).symm)

namespace Document

variable {d t : Document κ}

/-- A value that is assigned to an atom without parts, in a tree of static layouts, takes the place of
the bytes before it. -/
theorem splices_assign {p : Place κ} (hd : d.Undisturbed p.root.atom.info.id) (hp : p ∈ d.places)
    (hstatic : Everywhere (fun a => a.info.layout.isStatic = true) p.root.atom)
    (hpointer : ∀ f ∈ p.frames, ¬ f.isPointer = true) (hleaf : p.atom.info.layout.isRun = false) {v : Value}
    (hset : (assign p.atom.info.id v).run d = (.ok (), t)) :
    ∃ q, t.find? p.atom.info.id = some q ∧ p.Splices q := by
  obtain ⟨hbalanced, hlaid⟩ := hd.laid hp
  have hshaped := hbalanced.shaped_place hp
  have htree : Everywhere IsStatic p.root.atom :=
    (Everywhere.and _ (Everywhere.and _ hshaped hlaid) hstatic).mono fun _ h => ⟨h.1.1, h.1.2, h.2⟩
  have hrun := Frame.isRun_of_static htree hpointer
  suffices hassign : Yields (assign p.atom.info.id v) d
      (fun _ t => ∃ q, t.find? p.atom.info.id = some q ∧ p.Splices q) fun _ _ => True from
    hassign.of_ok hset
  refine DocumentM.yields_got (yields_edit (live_of_mem hp) fun p' hp' _ hid => ?_)
  obtain rfl := hbalanced.eq_of_id hp' hp hid
  have hfollows : Yields (EditM.setValue d.env v) ⟨d.ledger, p'⟩ _ _ :=
    EditM.follows_setValue v htree hpointer hleaf
  have hkeeps := EditM.keeps_setValue d.env v (s := ⟨d.ledger, p'⟩) hshaped
  refine (hfollows.and hkeeps).mono (fun _ s hs => ?_) fun _ _ _ => trivial
  obtain ⟨⟨b, hsite, hq⟩, hconserves⟩ := hs
  have haccounts := hconserves.accounts
  obtain ⟨before, after, -, hput, hbalanced'⟩ := hbalanced.put (mem_places.1 hp) (m := s.ledger)
    (q := s.place) (Info.id_of_site haccounts.site) haccounts.shaped haccounts.balance
  have hplace : s.place ∈ ({ d with ledger := s.ledger }.put s.place).places := by
    refine mem_places.2 ?_
    rw [hput]
    exact List.mem_append_right _ List.mem_cons_self
  obtain ⟨q, hfound, hfind, hsame⟩ := find?_of_live (live_of_mem hplace)
  obtain rfl := hbalanced'.eq_of_id hfound hplace hsame
  have hid' : s.place.atom.info.id = p'.atom.info.id := by
    rw [hq]
    exact Info.id_of_site hsite
  rw [hid'] at hfind
  exact ⟨_, hfind, hq ▸ Place.splices_following htree hrun hsite⟩

/-! ## Two fields of bytes -/

def twoFields (first second : Nat) : Layout Empty :=
  .record "r" [⟨"a", .given (.block first), none, none⟩, ⟨"b", .given (.block second), none, none⟩]

def overBytes (data : Array UInt8) : Document Empty where
  env := ⟨{}, ⟨nofun, nofun, nofun, nofun, nofun, nofun, nofun, nofun⟩⟩
  sources := [.memory data false 0]
  source := 0

/-- Two fields, loaded from bytes in memory. -/
def loadTwoFields (first second offset : Nat) (data : Array UInt8) : Except Error Nat × Document Empty :=
  (loadNew (twoFields first second) "x" offset).run (overBytes data)

def loadedField (id : Nat) (name : String) (offset : Nat) (bytes : Bytes) : Atom Empty :=
  .node { id, name, layout := .bytes (.block bytes.length), offset, initialized := true } (.raw bytes) []

/-- The first of two fields that were loaded. -/
def firstField (offset : Nat) (first second : Bytes) : Place Empty :=
  let layout := .bytes (twoFields first.length second.length)
  ⟨loadedField 1 "a" offset first, [⟨{ id := 0, name := "x", layout, offset, initialized := true }, .group,
    [], [loadedField 2 "b" (satAdd offset first.length) second]⟩]⟩

theorem isStatic_firstField (offset : Nat) (first second : Bytes) :
    Everywhere (fun a => a.info.layout.isStatic = true) (firstField offset first second).root.atom :=
  ⟨rfl, ⟨rfl, trivial⟩, ⟨rfl, trivial⟩, trivial⟩

/-- A block of two bytes is given four. -/
theorem splices_assign_of_longer_block :
    (loadTwoFields 2 1 1 #[0, 1, 2, 3]).1.toOption = some 0
      ∧ firstField 1 [1, 2] [3] ∈ (loadTwoFields 2 1 1 #[0, 1, 2, 3]).2.places
      ∧ ∃ t q, (assign 1 (.bytes [4, 5, 6, 7])).run (loadTwoFields 2 1 1 #[0, 1, 2, 3]).2 = (.ok (), t)
        ∧ t.find? 1 = some q ∧ (firstField 1 [1, 2] [3]).Splices q := by
  have hload : (loadTwoFields 2 1 1 #[0, 1, 2, 3]).1.toOption = some 0 := by decide +kernel
  have hp : firstField 1 [1, 2] [3] ∈ (loadTwoFields 2 1 1 #[0, 1, 2, 3]).2.places :=
    List.mem_of_getElem? (i := 1) rfl
  have hset : ((assign 1 (.bytes [4, 5, 6, 7])).run (loadTwoFields 2 1 1 #[0, 1, 2, 3]).2).1.toOption
      = some () := by decide +kernel
  have hrun : (loadNew (twoFields 2 1) "x" 1).run (overBytes #[0, 1, 2, 3]) =
      (.ok 0, (loadTwoFields 2 1 1 #[0, 1, 2, 3]).2) := run_of_toOption hload
  obtain ⟨q, hq, hsplices⟩ := splices_assign (.loaded (.empty _ _ _) (.new hrun)) hp
    (isStatic_firstField 1 [1, 2] [3]) (List.forall_mem_singleton.2 Bool.false_ne_true) rfl
    (run_of_toOption hset)
  exact ⟨hload, hp, _, q, run_of_toOption hset, hq, hsplices⟩

/-- Two blocks without bytes stand at the last offset. When the first one is given two bytes, the second
one stays, although two bytes more come before it. -/
theorem offset_eq_of_last :
    (loadTwoFields 0 0 (pow2 64 - 1) #[]).1.toOption = some 0
      ∧ (∀ p ∈ (loadTwoFields 0 0 (pow2 64 - 1) #[]).2.places, p.atom.info.layout.isStatic = true)
      ∧ ((assign 1 (.bytes [1, 2])).run (loadTwoFields 0 0 (pow2 64 - 1) #[]).2).1.toOption = some ()
      ∧ ¬ ∀ p q b c, (loadTwoFields 0 0 (pow2 64 - 1) #[]).2.find? 1 = some p →
        ((assign 1 (.bytes [1, 2])).run (loadTwoFields 0 0 (pow2 64 - 1) #[]).2).2.find? 1 = some q →
        (loadTwoFields 0 0 (pow2 64 - 1) #[]).2.find? 2 = some b →
        ((assign 1 (.bytes [1, 2])).run (loadTwoFields 0 0 (pow2 64 - 1) #[]).2).2.find? 2 = some c →
          c.atom.info.offset + p.atom.size = b.atom.info.offset + q.atom.size := by
  have hp : ((loadTwoFields 0 0 (pow2 64 - 1) #[]).2.find? 1).map (fun p => p.atom.size) = some 0 := by
    decide +kernel
  have hq : (((assign 1 (.bytes [1, 2])).run (loadTwoFields 0 0 (pow2 64 - 1) #[]).2).2.find? 1).map
      (fun p => p.atom.size) = some 2 := by decide +kernel
  have hb : ((loadTwoFields 0 0 (pow2 64 - 1) #[]).2.find? 2).map (fun p => p.atom.info.offset)
      = some (pow2 64 - 1) := by decide +kernel
  have hc : (((assign 1 (.bytes [1, 2])).run (loadTwoFields 0 0 (pow2 64 - 1) #[]).2).2.find? 2).map
      (fun p => p.atom.info.offset) = some (pow2 64 - 1) := by decide +kernel
  refine ⟨by decide +kernel, by decide +kernel, by decide +kernel, fun h => ?_⟩
  obtain ⟨p, hp, hsize⟩ := Option.map_eq_some_iff.1 hp
  obtain ⟨q, hq, hsize'⟩ := Option.map_eq_some_iff.1 hq
  obtain ⟨b, hb, hoffset⟩ := Option.map_eq_some_iff.1 hb
  obtain ⟨c, hc, hoffset'⟩ := Option.map_eq_some_iff.1 hc
  have hmoved := h p q b c hp hq hb hc
  rw [hsize, hsize', hoffset, hoffset'] at hmoved
  exact absurd (Nat.add_left_cancel hmoved) (by decide)

end Document

end BinaryLayout
