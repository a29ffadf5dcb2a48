import BinaryLayout.Proofs.Edit.Rules
import BinaryLayout.Proofs.Placement.Surroundings
import BinaryLayout.Proofs.Replay.Follow
import Mathlib.Data.List.Forall2

/-!
# Offsets after a change of size

When an atom takes more or fewer bytes than before, everything after it in its layout moves by the
difference, and nothing before it moves. What a pointer refers to is a layout of its own and stays.

Offsets end with the last one, so an atom that would have to stand further on stands there. It is told
by how many bytes come before it where an atom stands, before the change and after it.

Later fields whose layout or extent is decided by a rule are laid out anew after a change, and members that
share the bytes of the changed one are loaded anew. Where there are none of these, up to the nearest pointer,
the atoms around the changed one only move, and nothing can go wrong.

## Main definitions

* `AtomLayout.isStatic`: atoms whose parts come one after another and have layouts that are given.
* `Atom.own`: an atom and what it contains of its own layout.
* `Displaced`: offsets with one count of bytes before them, but for the bytes that were replaced.
* `Atom.Moved`: an atom that moved by the difference.
* `Frame.following`: what encloses an atom, in order again.
* `Frame.Indifferent`, `Frame.Unaffected`: nothing in an atom depends on one of its parts, and the same of
  everything around an atom.

## Main statements

* `Atom.moved_own`: an atom that moves takes along what it contains.
* `Place.reflowIn_following`: what comes after an atom follows it.
* `Frame.spliced_following`: it moves by the difference in size.
* `Frame.Unaffected.followDependents_eq`, `Frame.Unaffected.syncUnions_eq`: unaffected surroundings stay.
* `EditM.succeeds_afterChange`: nothing goes wrong in unaffected surroundings.
-/

namespace BinaryLayout

variable {κ : Type}

open Atom

/-! ## Static layouts -/

/-- The layout of the field is given, and so is the number of its bytes. -/
def Field.isStatic (field : Field κ (Layout κ)) : Bool :=
  match field.layout with
  | .given _ => field.extent?.isNone
  | .computed _ => false

/-- Atoms of the layout have no parts that share bytes, that are bits, or whose layout or number of bytes
is decided by a rule. -/
def AtomLayout.isStatic : AtomLayout κ → Bool
  | .bytes (.record _ fields) => fields.all Field.isStatic
  | .bytes (.union ..) | .bytes (.bits ..) | .bits _ => false
  | .bytes _ => true

namespace Atom

/-- The atom is in order, and its layout is static. -/
structure IsStatic (a : Atom κ) : Prop where
  shaped : a.Shaped
  laid : a.LaidOut
  static : a.info.layout.isStatic = true

variable {a : Atom κ}

theorem IsStatic.isBits (h : a.IsStatic) : a.isBits = false := by
  have hstatic := h.static
  rw [Atom.isBits]
  cases hlayout : a.info.layout with
  | bits layout =>
    rw [hlayout] at hstatic
    cases hstatic
  | bytes layout => rfl

/-- What an atom of a static layout contains. -/
theorem IsStatic.content_cases (h : a.IsStatic) :
    a.content = .group ∨ (∃ wire, a.content = .pointer wire) ∨ a.parts = [] := by
  have hadmits := h.shaped.admits
  have hstatic := h.static
  have hseats := h.laid.seats
  cases hcontent : a.content with
  | group => exact .inl rfl
  | pointer wire => exact .inr (.inl ⟨wire, rfl⟩)
  | empty | raw | bits =>
    rw [hcontent] at hseats
    exact .inr (.inr hseats)
  | overlay backing =>
    obtain ⟨name, members, size, hlayout⟩ := h.shaped.layout_of_overlay hcontent
    rw [hlayout] at hstatic
    cases hstatic
  | host pad =>
    obtain ⟨root, order, hlayout⟩ := h.shaped.layout_of_host hcontent
    rw [hlayout] at hstatic
    cases hstatic

end Atom

/-! ## Offsets -/

/-- So many bytes come before both offsets, besides `old` of them before the first one and `new` of them
before the second one. An offset that would come after the last one is the last one. -/
def Displaced (old new offset offset' : Nat) : Prop :=
  ∃ n, offset = min (n + old) (pow2 64 - 1) ∧ offset' = min (n + new) (pow2 64 - 1)

theorem Displaced.satAdd {old new offset offset' : Nat} (h : Displaced old new offset offset') (amount : Nat) :
    Displaced old new (satAdd offset amount) (satAdd offset' amount) := by
  obtain ⟨n, rfl, rfl⟩ := h
  refine ⟨n + amount, ?_, ?_⟩
  · rw [BinaryLayout.satAdd]
    omega
  · rw [BinaryLayout.satAdd]
    omega

/-- Where atoms stand after one that takes `n + old` bytes, and after one that takes `n + new` bytes. -/
theorem displaced_satAdd (old new offset n : Nat) :
    Displaced old new (satAdd offset (n + old)) (satAdd offset (n + new)) := by
  refine ⟨offset + n, ?_, ?_⟩
  · rw [satAdd, Nat.add_assoc]
  · rw [satAdd, Nat.add_assoc]

/-! ## Atoms that move -/

namespace Atom

mutual

/-- The atom, and what it contains of its own layout: what pointers refer to is left out. -/
def own : Atom κ → List (Atom κ)
  | .node info content parts =>
    .node info content parts ::
      match content with
      | .pointer _ => []
      | _ => ownAll parts

/-- Atoms, and what they contain of their own layout. -/
def ownAll : List (Atom κ) → List (Atom κ)
  | [] => []
  | a :: as => own a ++ ownAll as

end

/-- The atom was moved, because `new` bytes stand where `old` ones stood before it. Nothing else of it
changed. -/
structure Moved (old new : Nat) (a b : Atom κ) : Prop where
  unplaced : b.unplaced = a.unplaced
  /-- Unless it stood at the last offset or goes there, it moved by the difference. -/
  offset : a.info.offset < pow2 64 - 1 →
    old ≤ a.info.offset ∧ b.info.offset = min (a.info.offset - old + new) (pow2 64 - 1)

variable {old new : Nat}

theorem moved_of_displaced {a b : Atom κ} (hsame : b.unplaced = a.unplaced)
    (h : Displaced old new a.info.offset b.info.offset) : Moved old new a b := by
  obtain ⟨n, hbefore, hafter⟩ := h
  refine ⟨hsame, fun hlt => ?_⟩
  have hn : a.info.offset = n + old := by omega
  rw [hn, Nat.add_sub_cancel]
  exact ⟨Nat.le_add_left old n, hafter⟩

/-- An atom that is in order is moved with its parts, also if it stands there already. -/
theorem moveTo_eq {a : Atom κ} (h : a.LaidOut) (offset : Nat) :
    moveTo offset a =
      .node { a.info with offset } a.content (partsAt a.isBits a.content offset a.parts) := by
  obtain ⟨info, content, parts⟩ := a
  rw [moveTo_node]
  split
  · rename_i hsame
    subst hsame
    have hself := arranged_self h
    rw [arranged_eq] at hself
    exact hself.symm
  · rfl

/-- An atom that is no group contains nothing of its own layout, if its layout is static. -/
theorem IsStatic.own_eq {a : Atom κ} (h : a.IsStatic) (hgroup : a.content ≠ .group) (info : Info κ) :
    own (.node info a.content a.parts) = [.node info a.content a.parts] := by
  rcases h.content_cases with hcontent | ⟨wire, hcontent⟩ | hparts
  · exact absurd hcontent hgroup
  · rw [hcontent]
    rfl
  · rw [hparts]
    cases a.content <;> rfl

theorem IsStatic.partsAt_eq {a : Atom κ} (h : a.IsStatic) (hgroup : a.content ≠ .group) (offset : Nat) :
    partsAt false a.content offset a.parts = a.parts := by
  rcases h.content_cases with hcontent | ⟨wire, hcontent⟩ | hparts
  · exact absurd hcontent hgroup
  · rw [hcontent]
    rfl
  · rw [hparts]
    cases a.content <;> rfl

mutual

/-- An atom that moves takes along what it contains of its own layout. -/
theorem moved_own : ∀ (a : Atom κ) {offset : Nat}, Everywhere IsStatic a →
    Displaced old new a.info.offset offset →
    List.Forall₂ (Moved old new) (own a) (own (moveTo offset a))
  | .node info content parts, offset, h, hoffset => by
    have hhere : IsStatic (.node info content parts) := h.1
    have hself : Moved old new (.node info content parts) (moveTo offset (.node info content parts)) :=
      moved_of_displaced (unplaced_moveTo offset _) (by rw [offset_moveTo]; exact hoffset)
    rw [moveTo_eq hhere.laid, hhere.isBits] at hself ⊢
    by_cases hgroup : content = .group
    · subst hgroup
      have hturn : InTurn (isBits (.node info .group parts)) info.offset parts := hhere.laid.seats
      rw [hhere.isBits] at hturn
      exact .cons hself (moved_ownAll parts h.2 hturn hoffset)
    · have hown := hhere.own_eq hgroup info
      rw [hhere.partsAt_eq hgroup] at hself ⊢
      rw [hhere.own_eq hgroup]
      dsimp only [content_node, parts_node] at hown
      rw [hown]
      exact .cons hself .nil

/-- Atoms that stand one after another move together. -/
theorem moved_ownAll : ∀ (as : List (Atom κ)) {cursor offset : Nat}, EverywhereIn IsStatic as →
    InTurn false cursor as → Displaced old new cursor offset →
    List.Forall₂ (Moved old new) (ownAll as) (ownAll (moveInTurn false offset as))
  | [], _, _, _, _, _ => .nil
  | a :: as, _, _, h, hturn, hcursor => by
    obtain ⟨rfl, hrest⟩ := hturn
    rw [ownAll, moveInTurn, ownAll]
    exact List.rel_append (moved_own a h.1 hcursor) (moved_ownAll as h.2 hrest (hcursor.satAdd _))

end

end Atom

/-! ## What encloses an atom -/

namespace Frame

/-- Atoms of a static layout around others: their parts come one after another. -/
structure IsRun (f : Frame κ) : Prop where
  content : f.content = .group
  static : f.info.layout.isStatic = true

/-- What encloses an atom, with what comes after the atom moved to where it belongs. -/
def following (a : Atom κ) : List (Frame κ) → List (Frame κ)
  | [] => []
  | f :: frames =>
    let g : Frame κ := { f with right := moveInTurn false (satAdd a.info.offset a.size) f.right }
    g :: following (g.plug a) frames

variable {a b : Atom κ} {f : Frame κ} {frames : List (Frame κ)} {old new : Nat}

theorem IsRun.isBits (h : f.IsRun) : f.info.layout.isBits = false := by
  have hstatic := h.static
  cases hlayout : f.info.layout with
  | bits layout =>
    rw [hlayout] at hstatic
    cases hstatic
  | bytes layout => rfl

theorem IsRun.not_pointer (h : f.IsRun) : ¬ f.isPointer = true := by
  rw [isPointer_iff, h.content]
  exact nofun

/-- What encloses an atom in a tree of static layouts, as far as what a pointer refers to. -/
theorem isRun_of_static (h : Everywhere IsStatic (Place.assemble a frames))
    (hpointer : ∀ f ∈ frames, ¬ f.isPointer = true) : ∀ f ∈ frames, f.IsRun := by
  induction frames generalizing a with
  | nil => exact nofun
  | cons f frames ih =>
    rw [List.forall_mem_cons] at hpointer ⊢
    have hf : (f.plug a).IsStatic := (Everywhere.of_assemble_cons h).here
    refine ⟨⟨?_, hf.static⟩, ih h hpointer.2⟩
    rcases hf.content_cases with hgroup | ⟨wire, hwire⟩ | hparts
    · exact hgroup
    · exact absurd (isPointer_iff.2 ⟨wire, hwire⟩) hpointer.1
    · rw [parts_plug] at hparts
      exact absurd hparts (by simp)

/-- The size of an atom around another one. -/
theorem IsRun.size_plug (h : f.IsRun) (a : Atom κ) :
    (f.plug a).size = sizes f.left.reverse + a.size + sizes f.right + f.info.tail.length := by
  have hbits : (f.plug a).isBits = false := h.isBits
  rw [Atom.size, contentSize_of_bytes hbits, content_plug, h.content, info_plug]
  simp only [parts_plug, sizes_eq, List.map_append, List.map_cons, List.sum_append, List.sum_cons]
  omega

end Frame

/-- Surroundings that wait for an atom follow it. -/
theorem Place.reflowIn_following {a : Atom κ} {frames : List (Frame κ)} (hrun : ∀ f ∈ frames, f.IsRun)
    (h : Poised a.info.offset frames) : reflowIn a frames = ⟨a, Frame.following a frames⟩ := by
  induction frames generalizing a with
  | nil => rfl
  | cons f frames ih =>
    rw [List.forall_mem_cons] at hrun
    obtain ⟨hf, hrun⟩ := hrun
    obtain ⟨hawaits, houter⟩ := (poised_cons hf.not_pointer).1 h
    have hexpects := hawaits.expects
    rw [Frame.Expects, hf.content, hf.isBits] at hexpects
    obtain ⟨hturn, hoffset⟩ := hexpects
    let g : Frame κ := { f with right := moveInTurn false (satAdd a.info.offset a.size) f.right }
    have hplug : (f.plug a).arranged = g.plug a := by
      rw [arranged_eq, Atom.isBits, Frame.info_plug, Frame.content_plug, Frame.parts_plug, hf.content,
        hf.isBits, partsAt, moveInTurn_append, moveInTurn_self hturn, moveInTurn, ← hoffset, moveTo_self rfl,
        Frame.plug, List.reverseAux_eq, ← hf.content]
      rfl
    have hdown : (⟨g.plug a, Frame.following (g.plug a) frames⟩ : Place κ).down? f.left.length =
        some ⟨a, g :: Frame.following (g.plug a) frames⟩ := by
      have hparts := down?_of_parts (p := ⟨g.plug a, Frame.following (g.plug a) frames⟩) (g.parts_plug a)
      rwa [List.length_reverse, List.reverse_reverse] at hparts
    rw [reflowIn, hf.content]
    dsimp only
    rw [hplug, ih (a := g.plug a) hrun houter, hdown]
    rfl

namespace Frame

variable {a b : Atom κ} {f : Frame κ} {frames : List (Frame κ)} {old new : Nat}

/-- What encloses an atom, before and after `old` bytes inside became `new` ones: what comes before the
gap is the same, and what comes after it moved. -/
structure Spliced (old new : Nat) (f g : Frame κ) : Prop where
  info : g.info = { f.info with dirty := g.info.dirty }
  content : g.content = f.content
  left : g.left = f.left
  right : List.Forall₂ (Moved old new) (ownAll f.right) (ownAll g.right)

/-- What comes after an atom moves by the difference in size. -/
theorem spliced_following (hstatic : Everywhere IsStatic (Place.assemble a frames))
    (hrun : ∀ f ∈ frames, f.IsRun) (hoffset : b.info.offset = a.info.offset) {n : Nat}
    (ha : a.size = n + old) (hb : b.size = n + new) :
    List.Forall₂ (Spliced old new) frames (following b frames) := by
  induction frames generalizing a b n with
  | nil => exact .nil
  | cons f frames ih =>
    rw [List.forall_mem_cons] at hrun
    obtain ⟨hf, hrun⟩ := hrun
    obtain ⟨hhere, -, -, hright⟩ := everywhere_plug.1 (Everywhere.of_assemble_cons hstatic)
    have hseats := hhere.laid.seats
    rw [content_plug, hf.content, hhere.isBits, parts_plug] at hseats
    have hturn : InTurn false (satAdd a.info.offset a.size) f.right := by
      obtain ⟨hgap, hturn⟩ := (inTurn_append.1 hseats).2
      rw [hgap]
      exact hturn
    have hcursor := displaced_satAdd old new a.info.offset n
    rw [← ha, ← hb] at hcursor
    let g : Frame κ := { f with right := moveInTurn false (satAdd b.info.offset b.size) f.right }
    have hg : g.IsRun := ⟨hf.content, hf.static⟩
    have hsizes : sizes g.right = sizes f.right := by
      rw [← sizes_unplacedAll, unplacedAll_eq, map_unplaced_moveInTurn, ← unplacedAll_eq, sizes_unplacedAll]
    refine .cons ⟨rfl, rfl, rfl, ?_⟩ (ih (a := f.plug a) (b := g.plug b) hstatic hrun rfl
      (n := sizes f.left.reverse + n + sizes f.right + f.info.tail.length) ?_ ?_)
    · rw [hoffset]
      exact moved_ownAll f.right (everywhereIn_iff.2 hright) hturn hcursor
    · rw [hf.size_plug, ha]
      omega
    · rw [hg.size_plug, hsizes, hb]
      show sizes f.left.reverse + (n + new) + sizes f.right + f.info.tail.length = _
      omega

/-! ## Bytes -/

/-- The bytes before an atom, in what encloses it. -/
def front (order : ByteOrder) : List (Frame κ) → Bytes
  | [] => []
  | f :: frames => front order frames ++ serializeAll order f.left.reverse

/-- The bytes after an atom, in what encloses it. -/
def back (order : ByteOrder) : List (Frame κ) → Bytes
  | [] => []
  | f :: frames => serializeAll order f.right ++ f.info.tail ++ back order frames

/-- The bytes of an atom stand between those before it and those after it. -/
theorem serialize_assemble (order : ByteOrder) (hrun : ∀ f ∈ frames, f.IsRun) (a : Atom κ) :
    serialize order (Place.assemble a frames) = front order frames ++ serialize order a ++ back order frames := by
  induction frames generalizing a with
  | nil => rw [front, back, List.nil_append, List.append_nil, Place.assemble]
  | cons f frames ih =>
    rw [List.forall_mem_cons] at hrun
    obtain ⟨hf, hrun⟩ := hrun
    have hbits : (f.plug a).isBits = false := hf.isBits
    rw [Place.assemble, ih hrun, serialize_of_bytes order hbits, contentBytes, content_plug, hf.content,
      parts_plug, serializeAll_append, serializeAll, info_plug, front, back]
    simp only [List.append_assoc]

/-- Atoms that move keep their bytes. -/
theorem back_following (order : ByteOrder) (a : Atom κ) (frames : List (Frame κ)) :
    back order (following a frames) = back order frames := by
  induction frames generalizing a with
  | nil => rfl
  | cons f frames ih =>
    have hright (cursor : Nat) : serializeAll order (moveInTurn false cursor f.right) =
        serializeAll order f.right := by
      rw [← serializeAll_unplacedAll, unplacedAll_eq, map_unplaced_moveInTurn, ← unplacedAll_eq,
        serializeAll_unplacedAll]
    rw [following, back, back, ih]
    dsimp only
    rw [hright]

/-- Nothing before an atom changes. -/
theorem front_following (order : ByteOrder) (a : Atom κ) (frames : List (Frame κ)) :
    front order (following a frames) = front order frames := by
  induction frames generalizing a with
  | nil => rfl
  | cons f frames ih => rw [following, front, front, ih]

/-- Marks of a change are no change. -/
theorem spliced_markDirty {gs : List (Frame κ)} (h : List.Forall₂ (Spliced old new) frames gs) :
    List.Forall₂ (Spliced old new) frames (markDirty gs) := by
  induction h with
  | nil => exact .nil
  | @cons f g frames gs hframe hrest ih =>
    rw [markDirty]
    split
    · exact .cons hframe hrest
    · refine .cons ⟨?_, hframe.content, hframe.left, hframe.right⟩ ih
      dsimp only
      rw [hframe.info]

end Frame

/-- An atom is marked, and nothing else of it changes, when something inside it changed. -/
theorem Place.serialize_markDirty (order : ByteOrder) (a : Atom κ) (frames : List (Frame κ)) :
    (assemble a (markDirty frames)).serialize order = (assemble a frames).serialize order := by
  refine serialize_of_plain ?_ order
  rw [assemble_plain, assemble_plain, plain_markDirty]

/-! ## Surroundings that a change does not affect -/

namespace Frame

/-- Nothing in the atom depends on the part in the gap: no rule decides a later field, and no other part
shares its bytes. -/
structure Indifferent (f : Frame κ) : Prop where
  not_shared : ∀ backing, f.content ≠ .overlay backing
  fields : ∀ name fields, f.info.layout = .bytes (.record name fields) →
    ∀ field ∈ fields.drop (f.left.length + 1), field.isStatic = true
  bitFields : ∀ name fields, f.info.layout = .bits (.record name fields) →
    ∀ field ∈ fields.drop (f.left.length + 1), ∃ layout, field.layout = .given layout

/-- Nothing around an atom depends on it, as far as what a pointer refers to. -/
def Unaffected : List (Frame κ) → Prop
  | [] => True
  | f :: frames => f.isPointer = true ∨ f.Indifferent ∧ Unaffected frames

variable {f g : Frame κ} {frames others : List (Frame κ)}

/-- A field of a static layout is left as it is. -/
theorem followField_of_static {field : Field κ (Layout κ)} (h : field.isStatic = true) (env : Env κ)
    (frames : List (Frame κ)) (f : Frame κ) (a : Atom κ) :
    followField env frames f field a = pure ⟨a, none⟩ := by
  obtain ⟨name, layout, extent?, update?⟩ := field
  cases layout with
  | computed rule => cases h
  | given layout =>
    cases extent? with
    | some rule => cases h
    | none => rfl

/-- A field of bits whose layout is given is left as it is. -/
theorem followBitField_of_given {field : BitField κ (BitLayout κ)} {layout : BitLayout κ}
    (h : field.layout = .given layout) (env : Env κ) (frames : List (Frame κ)) (f : Frame κ) (a : Atom κ) :
    followBitField env frames f field a = pure ⟨a, none⟩ := by
  rw [followBitField, h]

/-- Fields that are left as they are. -/
theorem followFields_eq {φ : Type} {name : φ → String}
    {follow : Frame κ → φ → Atom κ → LedgerM κ (Outcome κ)} {fields : List φ}
    (h : ∀ field ∈ fields, ∀ f a, follow f field a = pure ⟨a, none⟩) (info : Info κ) (content : Content)
    (left right : List (Atom κ)) :
    followFields name follow info content left right fields = pure ⟨right, none⟩ := by
  induction right generalizing left fields with
  | nil => rfl
  | cons a right ih =>
    cases fields with
    | nil => rfl
    | cons field fields =>
      rw [List.forall_mem_cons] at h
      rw [followFields, h.1, pure_bind]
      dsimp only
      rw [ih h.2, pure_bind]

/-- The later parts of an indifferent atom are left as they are. -/
theorem Indifferent.followGap_eq (hf : f.Indifferent) (env : Env κ) (frames : List (Frame κ)) (a : Atom κ) :
    followGap env frames f a = pure ⟨f.right, none⟩ := by
  rw [followGap.eq_def]
  split
  · rename_i name fields _ hlayout
    exact followFields_eq (fun field hfield g b =>
      followField_of_static (hf.fields name fields hlayout field hfield) env frames g b) _ _ _ _
  · rename_i name fields _ hlayout
    refine followFields_eq (fun field hfield g b => ?_) _ _ _ _
    obtain ⟨layout, hgiven⟩ := hf.bitFields name fields hlayout field hfield
    exact followBitField_of_given hgiven env frames g b
  · rfl

/-- No layout is decided anew. -/
theorem Unaffected.followDependents_eq (h : Unaffected frames) (env : Env κ) (a : Atom κ) :
    followDependents env a frames = pure ⟨frames, none⟩ := by
  induction frames generalizing a with
  | nil => rfl
  | cons f frames ih =>
    rw [followDependents]
    split
    · rfl
    · rename_i hpointer
      obtain ⟨hf, hframes⟩ := h.resolve_left hpointer
      rw [hf.followGap_eq, pure_bind]
      dsimp only
      rw [ih hframes, pure_bind]

/-- No bytes are shared. -/
theorem Unaffected.syncUnions_eq (h : Unaffected frames) (env : Env κ) (a : Atom κ) :
    syncUnions env a frames = pure ⟨frames, none⟩ := by
  induction frames generalizing a with
  | nil => rfl
  | cons f frames ih =>
    rw [syncUnions]
    split
    · rfl
    · rename_i backing hcontent
      rcases h with hpointer | ⟨hf, -⟩
      · obtain ⟨wire, hwire⟩ := isPointer_iff.1 hpointer
        cases hcontent.symm.trans hwire
      · exact absurd hcontent (hf.not_shared backing)
    · rename_i hwire _
      rcases h with hpointer | ⟨-, hframes⟩
      · obtain ⟨wire, hcontent⟩ := isPointer_iff.1 hpointer
        exact absurd hcontent (hwire wire)
      · rw [ih hframes, pure_bind]

/-! ## Frames that were moved -/

/-- Edits of other parts do not make an atom depend on its part. -/
theorem Indifferent.of_outline (hf : f.Indifferent) (h : g.outline = f.outline) : g.Indifferent := by
  have hlayout : g.info.layout = f.info.layout := congrArg (fun o => o.1.2.2) h
  have hkind : g.content.kind = f.content.kind := congrArg (fun o => o.2.1) h
  have hleft : g.left.length = f.left.length := congrArg (fun o => o.2.2.1) h
  refine ⟨fun backing hcontent => ?_, ?_, ?_⟩
  · rw [hcontent] at hkind
    cases hshared : f.content with
    | overlay other => exact hf.not_shared other hshared
    | empty | raw | group | pointer | host | bits =>
      rw [hshared] at hkind
      cases hkind
  · rw [hlayout, hleft]
    exact hf.fields
  · rw [hlayout, hleft]
    exact hf.bitFields

theorem isPointer_of_outline (hf : f.isPointer = true) (h : g.outline = f.outline) : g.isPointer = true := by
  obtain ⟨wire, hcontent⟩ := isPointer_iff.1 hf
  exact isPointer_iff.2 (Content.pointer_of_kind (congrArg (fun o => o.2.1) h).symm hcontent)

theorem Unaffected.of_outline (hframes : Unaffected frames) (h : others.map outline = frames.map outline) :
    Unaffected others := by
  induction frames generalizing others with
  | nil =>
    rw [List.map_nil, List.map_eq_nil_iff] at h
    subst h
    trivial
  | cons f frames ih =>
    obtain ⟨g, others, rfl, hg, hothers⟩ := List.map_eq_cons_iff.1 h
    rcases hframes with hpointer | ⟨hf, hframes⟩
    · exact .inl (isPointer_of_outline hpointer hg)
    · exact .inr ⟨hf.of_outline hg, ih hframes hothers⟩

end Frame

namespace EditM

variable {s : Workplace κ}

/-- What surrounds an atom stays as it is. -/
theorem yields_around_self {follow : Atom κ → List (Frame κ) → LedgerM κ (Surroundings κ)}
    (h : follow s.place.atom s.place.frames = pure ⟨s.place.frames, none⟩) :
    Yields (around follow) s (fun _ t => t = s) fun _ _ => False := by
  refine yields_around ?_
  rw [h]
  exact ⟨fun _ => rfl, fun _ he => by cases he⟩

/-- Nothing goes wrong in surroundings that a change does not affect. -/
theorem succeeds_afterChange (env : Env κ) (h : Frame.Unaffected s.place.frames) :
    Yields (afterChange env) s (fun _ _ => True) fun _ _ => False := by
  refine (yields_around_self (h.followDependents_eq env _)).bind fun _ t ht => ?_
  subst ht
  refine Yields.via (fun _ u => u.place = t.place.reflow) (Yields.modified rfl) fun _ u hu => ?_
  have hmoved := h.of_outline (Frame.map_outline_of_unplaced (Place.unplaced_reflow t.place).2)
  rw [← hu] at hmoved
  refine (yields_around_self (hmoved.syncUnions_eq env _)).bind fun _ v _ => Yields.modified trivial

end EditM

end BinaryLayout
