import BinaryLayout.Proofs.Extent.Allocate
import BinaryLayout.Proofs.Placement.Surroundings

/-!
# Extents of what surrounds a change

An atom is loose when nothing declares how many bytes it takes: no extent is forced on it, and it is no
block array. If all atoms around a changed one are loose, as far out as what a pointer refers to, then
whatever follows the change keeps to its extents. Later fields are laid out anew and then get their
extent, members of unions are loaded anew, and everything else only moves.

## Main definitions

* `Info.Free`, `Info.Loose`, `LooseIn`: atoms for which no number of bytes is declared.

## Main statements

* `honours_assemble`: an atom replaced in loose surroundings.
* `honours_followDependents`, `honours_reflow`, `honours_syncUnions`, `honours_markDirty`: what follows
  a change.
-/

namespace BinaryLayout

variable {κ : Type}

open Atom

/-- No extent is forced on the atom. Atoms of bits are not measured in bytes. -/
def Info.Free (info : Info κ) : Prop := info.layout.isBits = true ∨ info.extent? = none

/-- Nothing declares how many bytes the atom takes. -/
structure Info.Loose (info : Info κ) : Prop where
  free : info.Free
  unblocked : ∀ extent, ¬ IsBlockArray extent info.layout

instance (info : Info κ) : Decidable info.Free := inferInstanceAs (Decidable (_ ∨ _))

instance : (layout : AtomLayout κ) → Decidable (∀ extent, ¬ IsBlockArray extent layout)
  | .bytes (.array element (.block extent)) => isFalse fun h => h extent ⟨element, rfl⟩
  | .bytes (.array _ (.counted _)) | .bytes (.array _ (.terminated _)) | .bytes (.array _ .unending)
  | .bytes (.int _) | .bytes (.float ..) | .bytes (.fixed ..) | .bytes (.varint _) | .bytes (.text _)
  | .bytes (.block _) | .bytes (.constant _) | .bytes (.padding _) | .bytes (.align _)
  | .bytes (.record ..) | .bytes (.union ..) | .bytes (.pointer ..) | .bytes (.bits ..) | .bits _ =>
    isTrue fun _ ⟨_, h⟩ => by cases h

instance (info : Info κ) : Decidable info.Loose :=
  decidable_of_iff (info.Free ∧ ∀ extent, ¬ IsBlockArray extent info.layout)
    ⟨fun h => ⟨h.1, h.2⟩, fun h => ⟨h.free, h.unblocked⟩⟩

theorem Info.Free.of_eq {i j : Info κ} (h : i.Free) (hlayout : j.layout = i.layout)
    (hextent : j.extent? = i.extent?) : j.Free := by
  rw [Info.Free, hlayout, hextent]
  exact h

theorem Info.Loose.of_eq {i j : Info κ} (h : i.Loose) (hlayout : j.layout = i.layout)
    (hextent : j.extent? = i.extent?) : j.Loose := by
  refine ⟨h.free.of_eq hlayout hextent, ?_⟩
  rw [hlayout]
  exact h.unblocked

/-- The enclosing atoms are loose, as far out as what a pointer refers to. -/
def LooseIn : List (Frame κ) → Prop
  | [] => True
  | f :: frames => f.isPointer = false → f.info.Loose ∧ LooseIn frames

instance : (frames : List (Frame κ)) → Decidable (LooseIn frames)
  | [] => isTrue trivial
  | f :: frames =>
    have : Decidable (LooseIn frames) := instDecidableLooseIn frames
    inferInstanceAs (Decidable (f.isPointer = false → f.info.Loose ∧ LooseIn frames))

/-! ## Atoms replaced -/

/-- Atoms between which an atom around them does not tell apart which extents are forced. -/
structure SameBound (a b : Atom κ) : Prop where
  kind : b.isBits = a.isBits
  extent : b.isBits = false → b.info.extent? = a.info.extent?

theorem SameBound.refl (a : Atom κ) : SameBound a a := ⟨rfl, fun _ => rfl⟩

theorem SameBound.of_info {a b : Atom κ} (hlayout : b.info.layout = a.info.layout)
    (hextent : b.info.extent? = a.info.extent?) : SameBound a b :=
  ⟨by rw [isBits, isBits, hlayout], fun _ => hextent⟩

/-- The parts of an atom may be replaced by others with the same bounds. -/
theorem ruled_plug {f : Frame κ} {a b : Atom κ} (h : SameBound a b)
    (ha : ∀ i part, (f.plug a).parts[i]? = some part → part.isBits = false →
      part.info.extent? ≠ none → f.content = .group ∧ f.info.layout.Forces i) (i : Nat) (part : Atom κ)
    (hpart : (f.plug b).parts[i]? = some part) (hbits : part.isBits = false)
    (hextent : part.info.extent? ≠ none) : f.content = .group ∧ f.info.layout.Forces i := by
  rw [Frame.parts_plug] at hpart
  simp only [Frame.parts_plug] at ha
  by_cases hi : i = f.left.reverse.length
  · subst hi
    rw [List.getElem?_append_right (Nat.le_refl _), Nat.sub_self, List.getElem?_cons_zero,
      Option.some.injEq] at hpart
    subst hpart
    refine ha f.left.reverse.length a ?_ (h.kind ▸ hbits) ?_
    · rw [List.getElem?_append_right (Nat.le_refl _), Nat.sub_self, List.getElem?_cons_zero]
    · rw [← h.extent hbits]
      exact hextent
  · refine ha i part ?_ hbits hextent
    rw [← hpart]
    by_cases hlt : i < f.left.reverse.length
    · rw [List.getElem?_append_left hlt, List.getElem?_append_left hlt]
    · obtain ⟨j, hj⟩ : ∃ j, i - f.left.reverse.length = j + 1 :=
        ⟨i - f.left.reverse.length - 1, by omega⟩
      rw [List.getElem?_append_right (by omega), List.getElem?_append_right (by omega), hj,
        List.getElem?_cons_succ, List.getElem?_cons_succ]

/-- A loose atom keeps to whatever is declared for its parts. -/
theorem Info.Loose.honours {a : Atom κ} (h : a.info.Loose)
    (hruled : ∀ i part, a.parts[i]? = some part → part.isBits = false → part.info.extent? ≠ none →
      a.content = .group ∧ a.info.layout.Forces i) : a.Honours := by
  refine ⟨fun hbits extent hextent => ?_, fun extent hblock hextent => ?_, hruled⟩
  · rcases h.free with hloose | hnone
    · rw [isBits, hloose] at hbits
      cases hbits
    · rw [hnone] at hextent
      cases hextent
  · exact absurd hblock (h.unblocked extent)

/-- An atom that takes as many bytes as before. The mark of a change does not matter. -/
theorem Atom.Honours.of_footing {a b : Atom κ} (ha : a.Honours) (h : SameFooting a b)
    (hinfo : b.info = { a.info with dirty := b.info.dirty })
    (hruled : ∀ i part, b.parts[i]? = some part → part.isBits = false → part.info.extent? ≠ none →
      b.content = .group ∧ b.info.layout.Forces i) : b.Honours := by
  have hlayout : b.info.layout = a.info.layout := congrArg (·.layout) hinfo
  have hextent : b.info.extent? = a.info.extent? := congrArg (·.extent?) hinfo
  have htail : b.info.tail = a.info.tail := congrArg (·.tail) hinfo
  have hready : b.info.initialized = a.info.initialized := congrArg (·.initialized) hinfo
  have hcontent : b.contentSize = a.contentSize := by
    have hsize := h.size
    rw [size, size, htail] at hsize
    omega
  refine ⟨fun hbits extent hforced hfits => ?_, fun extent hblock hnone hmade => ?_, hruled⟩
  · rw [hextent] at hforced
    rw [hcontent] at hfits
    exact h.size.trans (ha.forced (h.isBits.symm.trans hbits) extent hforced hfits)
  · rw [hlayout] at hblock
    exact h.size.trans (ha.block extent hblock (hextent ▸ hnone) (hready ▸ hmade))

/-- An atom that takes as many bytes as before, replaced in any surroundings. -/
theorem honours_assemble_of_footing {a b : Atom κ} (h : SameFooting a b) (hbound : SameBound a b)
    {frames : List (Frame κ)} (hb : Everywhere Honours b)
    (ha : Everywhere Honours (Place.assemble a frames)) :
    Everywhere Honours (Place.assemble b frames) :=
  everywhere_assemble_of (R := fun a b => SameFooting a b ∧ SameBound a b)
    (fun _ _ _ hxy hx =>
      ⟨hx.of_footing hxy.1.plug rfl (ruled_plug hxy.2 hx.ruled), hxy.1.plug, .of_info rfl rfl⟩)
    ⟨h, hbound⟩ hb ha

/-- An atom replaced in loose surroundings, whatever its size is. -/
theorem honours_assemble {a b : Atom κ} (h : SameBound a b) {frames : List (Frame κ)}
    (hloose : LooseIn frames) (hb : Everywhere Honours b)
    (ha : Everywhere Honours (Place.assemble a frames)) :
    Everywhere Honours (Place.assemble b frames) := by
  induction frames generalizing a b with
  | nil => exact hb
  | cons f frames ih =>
    have hf : Everywhere Honours (f.plug a) := Everywhere.of_assemble_cons ha
    obtain ⟨hhere, hleft, -, hright⟩ := everywhere_plug.1 hf
    have hruled := ruled_plug h hhere.ruled
    cases hpointer : f.isPointer with
    | true =>
      -- A pointer takes the bytes of its number, whatever it refers to.
      have hfooting : SameFooting (f.plug a) (f.plug b) :=
        f.sameFooting_of_isPointer hpointer
      have hplug : (f.plug b).Honours := hhere.of_footing hfooting rfl hruled
      exact honours_assemble_of_footing hfooting (.of_info rfl rfl)
        (everywhere_plug.2 ⟨hplug, hleft, hb, hright⟩) ha
    | false =>
      obtain ⟨hinfo, houter⟩ := hloose hpointer
      have hplug : (f.plug b).Honours := Info.Loose.honours (a := f.plug b) hinfo hruled
      exact ih (a := f.plug a) (.of_info rfl rfl) houter (everywhere_plug.2 ⟨hplug, hleft, hb, hright⟩) ha

/-! ## Offsets -/

theorem honours_unplaced {a : Atom κ} : a.unplaced.Honours ↔ a.Honours := by
  have hat (i : Nat) : a.unplaced.parts[i]? = a.parts[i]?.map unplaced := by
    rw [parts_unplaced, List.getElem?_map]
  constructor
  · intro h
    refine ⟨fun hbits extent hextent hfits => ?_, fun extent hblock hextent hready => ?_,
      fun i part hpart hbits hextent => ?_⟩
    · have hsize := h.forced (by rwa [isBits_unplaced]) extent (by rwa [info_unplaced])
        (by rwa [contentSize_unplaced])
      rwa [size_unplaced] at hsize
    · have hsize := h.block extent (by rwa [info_unplaced]) (by rwa [info_unplaced])
        (by rwa [info_unplaced])
      rwa [size_unplaced] at hsize
    · have hruled := h.ruled i part.unplaced (by rw [hat, hpart, Option.map_some])
        (by rwa [isBits_unplaced]) (by rwa [info_unplaced])
      rwa [content_unplaced, info_unplaced] at hruled
  · intro h
    refine ⟨fun hbits extent hextent hfits => ?_, fun extent hblock hextent hready => ?_,
      fun i part hpart hbits hextent => ?_⟩
    · rw [isBits_unplaced] at hbits
      rw [info_unplaced] at hextent
      rw [contentSize_unplaced] at hfits
      rw [size_unplaced]
      exact h.forced hbits extent hextent hfits
    · rw [info_unplaced] at hblock hextent hready
      rw [size_unplaced]
      exact h.block extent hblock hextent hready
    · rw [hat, Option.map_eq_some_iff] at hpart
      obtain ⟨own, hown, rfl⟩ := hpart
      rw [isBits_unplaced] at hbits
      rw [info_unplaced] at hextent
      rw [content_unplaced, info_unplaced]
      exact h.ruled i own hown hbits hextent

/-- Where atoms stand does not matter. -/
theorem everywhere_honours_unplaced (a : Atom κ) : Everywhere Honours a.unplaced ↔ Everywhere Honours a :=
  everywhere_unplaced (fun _ => honours_unplaced) a

/-- Moving atoms does not matter. -/
theorem honours_of_unplaced {a b : Atom κ} (h : b.unplaced = a.unplaced) (ha : Everywhere Honours a) :
    Everywhere Honours b := by
  rw [← everywhere_honours_unplaced, h, everywhere_honours_unplaced]
  exact ha

theorem looseIn_of_unplaced {frames frames' : List (Frame κ)}
    (h : frames'.map Frame.unplaced = frames.map Frame.unplaced) (hloose : LooseIn frames) :
    LooseIn frames' := by
  induction frames' generalizing frames with
  | nil => trivial
  | cons f' frames' ih =>
    obtain _ | ⟨f, frames⟩ := frames
    · cases h
    rw [List.map_cons, List.map_cons, List.cons.injEq] at h
    obtain ⟨hf, hrest⟩ := h
    intro hpointer
    have hpointer' : f.isPointer = false := by
      have hpadless : f'.content.padless = f.content.padless := congrArg Frame.content hf
      unfold Frame.isPointer at hpointer ⊢
      cases hcontent : f.content <;> cases hcontent' : f'.content <;>
        simp_all [Content.padless]
    obtain ⟨hinfo, houter⟩ := hloose hpointer'
    have hlayout : f'.unplaced.info.layout = f.unplaced.info.layout := by rw [hf]
    have hextent : f'.unplaced.info.extent? = f.unplaced.info.extent? := by rw [hf]
    change f'.info.layout = f.info.layout at hlayout
    change f'.info.extent? = f.info.extent? at hextent
    exact ⟨hinfo.of_eq hlayout hextent, ih hrest houter⟩

/-- Everything around a changed atom in order. -/
theorem honours_reflow {p : Place κ} (hp : Everywhere Honours p.root.atom) (hloose : LooseIn p.frames) :
    Everywhere Honours p.reflow.root.atom ∧ LooseIn p.reflow.frames := by
  refine ⟨?_, looseIn_of_unplaced p.unplaced_reflow.2 hloose⟩
  obtain ⟨a, frames⟩ := p
  show Everywhere Honours (Place.reflowIn a frames).root.atom
  induction frames generalizing a with
  | nil => exact hp
  | cons f frames ih =>
    have hf : Everywhere Honours (f.plug a) := Everywhere.of_assemble_cons hp
    have houter (outer : Atom κ) (hpointer : f.isPointer = false) (hbound : SameBound (f.plug a) outer)
        (h : Everywhere Honours outer) : Everywhere Honours
          (((Place.reflowIn outer frames).down? f.left.length).getD ⟨a, f :: frames⟩).root.atom := by
      have hframes := (hloose hpointer).2
      have hback := ih outer (honours_assemble hbound hframes h hp) hframes
      cases hdown : (Place.reflowIn outer frames).down? f.left.length with
      | none => exact hp
      | some q =>
        rw [Option.getD_some, Place.root_down? hdown]
        exact hback
    rw [Place.reflowIn]
    cases hcontent : f.content with
    | group =>
      have hpointer : f.isPointer = false := by rw [Frame.isPointer, hcontent]
      refine houter _ hpointer (.of_info ?_ ?_) (honours_of_unplaced (unplaced_arranged _) hf) <;>
        rw [arranged_eq, info_node]
    | host pad =>
      have hpointer : f.isPointer = false := by rw [Frame.isPointer, hcontent]
      have hinfo : (f.plug a).fixPad.info = f.info := info_fixPad _
      refine houter _ hpointer (.of_info ?_ ?_) (everywhere_iff.2 ⟨Info.Loose.honours ?_ ?_, ?_⟩)
      · rw [hinfo, Frame.info_plug]
      · rw [hinfo, Frame.info_plug]
      · rw [hinfo]
        exact (hloose hpointer).1
      · intro i part hpart hbits hextent
        rw [parts_fixPad] at hpart
        have hgroup := (hf.here.ruled i part hpart hbits hextent).1
        rw [Frame.content_plug, hcontent] at hgroup
        cases hgroup
      · rw [parts_fixPad]
        exact (everywhere_iff.1 hf).2
    | overlay backing =>
      have hpointer : f.isPointer = false := by rw [Frame.isPointer, hcontent]
      exact houter _ hpointer (.refl _) hf
    | empty | raw | pointer | bits => exact hp

/-! ## Dependent fields -/

section Fields

variable {env : Env κ}

/-- A field that was laid out: what is in it keeps to its extents, and so does the field, if it has no
rule for one. -/
structure Atom.LaidAnew (rule? : Option κ) (a : Atom κ) : Prop where
  parts : ∀ part ∈ a.parts, Everywhere Honours part
  ruled : ∀ i part, a.parts[i]? = some part → part.isBits = false → part.info.extent? ≠ none →
    a.content = .group ∧ a.info.layout.Forces i
  free : rule? = none → Everywhere Honours a ∧ a.info.extent? = none

theorem Atom.Made.laidAnew {info : Info κ} {a : Atom κ} (h : a.Made info) {rule? : Option κ}
    (hextent : rule? = none → info.extent? = none) : a.LaidAnew rule? := by
  refine ⟨h.parts, ?_, fun hrule => ⟨h.honours (hextent hrule), h.extent.trans (hextent hrule)⟩⟩
  rw [h.layout]
  exact h.ruled

theorem honours_rebuild (frames : List (Frame κ)) (a : Atom κ) (layout : Layout κ) {rule? : Option κ}
    (hextent : rule? = none → a.info.extent? = none) (l : Ledger κ) :
    Ends (rebuild env frames a layout) l fun out _ => out.error? = none → out.atom.LaidAnew rule? := by
  have hbefore : (a.mapInfo fun info => { info with layout := .bytes layout }).info.extent?
      = a.info.extent? := by rw [info_mapInfo]
  have hlayout : (a.mapInfo fun info => { info with layout := .bytes layout }).info.layout
      = .bytes layout := by rw [info_mapInfo]
  rw [rebuild]
  generalize a.mapInfo (fun info => { info with layout := .bytes layout }) = b at hbefore hlayout ⊢
  have hload (data : Bytes) (origin : Nat) : Ends (LedgerM.fromBytes data origin
      (load env Layout.nestingLimit frames b)) l fun out _ =>
        (out.atom.info.layout = .bytes layout ∧ out.atom.info.extent? = a.info.extent?)
          ∧ (out.error? = none → out.atom.Made b.info) := by
    refine LedgerM.ends_fromBytes (Ends.mono ((honours_load env Layout.nestingLimit frames b _).and
      (accounts_load env Layout.nestingLimit frames (a := b) (.inr ⟨nestingLimit_pos, ?_⟩) _))
      fun out t h => ⟨⟨?_, h.1.extent.trans hbefore⟩, h.1.made⟩)
    · rw [isBits, hlayout]
      rfl
    · exact (Info.layout_of_site h.2.site).trans hlayout
  refine (hload _ _).bind fun out m hout => ?_
  split
  · exact (honours_allocate env _ frames hout.1.1 m).mono fun last _ hlast herror =>
      (hlast herror).1.laidAnew fun hrule => hout.1.2.trans (hextent hrule)
  · exact Ends.pure fun herror => (hout.2 herror).laidAnew fun hrule => hbefore.trans (hextent hrule)

/-- A later field keeps to its extent, and one is forced on it only if there is a rule for it. -/
theorem honours_followField (frames : List (Frame κ)) (f : Frame κ) (field : Field κ (Layout κ))
    {a : Atom κ} (ha : Everywhere Honours a) (hextent : a.info.extent? ≠ none → field.extent? ≠ none)
    (l : Ledger κ) :
    Ends (followField env frames f field a) l fun out _ => out.error? = none →
      Everywhere Honours out.atom ∧ (out.atom.info.extent? ≠ none → field.extent? ≠ none) := by
  have hnone (hrule : field.extent? = none) : a.info.extent? = none :=
    Decidable.byContradiction fun h => hextent h hrule
  have hlayout : Ends (followLayout env frames f field a) l fun out _ =>
      out.error? = none → out.atom.LaidAnew field.extent? := by
    rw [followLayout]
    split
    · exact Ends.pure fun _ => ⟨(everywhere_iff.1 ha).2, ha.here.ruled, fun hrule => ⟨ha, hnone hrule⟩⟩
    · split
      · refine Ends.pure fun h => ?_
        cases h
      · exact honours_rebuild _ a _ hnone l
  rw [followField_eq]
  refine hlayout.bind fun out m hout => Ends.pure ?_
  rw [followExtent]
  split
  · intro h
    cases h
  · rename_i herror hrule
    intro _
    obtain ⟨hhonours, hfree⟩ := (hout herror).free hrule
    exact ⟨hhonours, fun h => absurd hfree h⟩
  · rename_i rule herror hrule
    split
    · intro h
      cases h
    · intro _
      refine ⟨honours_forceExtent (hout herror).parts (hout herror).ruled env.config _, fun _ h => ?_⟩
      rw [hrule] at h
      cases h

theorem honours_followBitField (frames : List (Frame κ)) (f : Frame κ)
    (field : BitField κ (BitLayout κ)) {a : Atom κ} (hbits : a.isBits = true)
    (hshaped : Everywhere Shaped a) (l : Ledger κ) :
    Ends (followBitField env frames f field a) l fun out _ => out.error? = none →
      Everywhere Honours out.atom ∧ out.atom.isBits = true :=
  Ends.mono (becomes_followBitField frames f field hbits hshaped l) fun _ _ h _ =>
    ⟨honours_of_bits _ h.shaped (h.isBits.trans hbits), h.isBits.trans hbits⟩

/-- Laying out fields of a record, one after another. -/
theorem honours_followFields (frames : List (Frame κ)) (info : Info κ) (left right : List (Atom κ))
    (fields : List (Field κ (Layout κ))) (hright : ∀ a ∈ right, Everywhere Honours a)
    (hruled : ∀ (i : Nat) (a : Atom κ), right[i]? = some a → a.info.extent? ≠ none →
      ∃ field : Field κ (Layout κ), fields[i]? = some field ∧ field.extent? ≠ none) (l : Ledger κ) :
    Ends (followFields Field.name (followField env frames) info .group left right fields) l fun out _ =>
      out.error? = none → (∀ a ∈ out.parts, Everywhere Honours a)
        ∧ ∀ (i : Nat) (a : Atom κ), out.parts[i]? = some a → a.info.extent? ≠ none →
          ∃ field : Field κ (Layout κ), fields[i]? = some field ∧ field.extent? ≠ none := by
  induction right generalizing left fields l with
  | nil => exact Ends.pure fun _ => ⟨hright, hruled⟩
  | cons a right ih =>
    cases fields with
    | nil => exact Ends.pure fun _ => ⟨hright, hruled⟩
    | cons field fields =>
      rw [List.forall_mem_cons] at hright
      have hhere (h : a.info.extent? ≠ none) : field.extent? ≠ none := by
        obtain ⟨own, hown, hforced⟩ := hruled 0 a rfl h
        cases hown
        exact hforced
      rw [followFields]
      refine (honours_followField frames _ field hright.1 hhere l).bind fun out m hout => ?_
      split
      · refine Ends.pure fun h => ?_
        cases h
      · rename_i herror
        refine (ih (out.atom :: left) fields hright.2 (fun i b hb h => hruled (i + 1) b hb h) m).bind
          fun later n hlater => Ends.pure fun hdone => ?_
        obtain ⟨hparts, hrules⟩ := hlater hdone
        obtain ⟨hhonours, hextent⟩ := hout herror
        refine ⟨List.forall_mem_cons.2 ⟨hhonours, hparts⟩, fun i b hb h => ?_⟩
        cases i with
        | zero =>
          cases hb
          exact ⟨field, rfl, hextent h⟩
        | succ i => exact hrules i b hb h

/-- Laying out fields of a record of bits, one after another. -/
theorem honours_followBitFields (frames : List (Frame κ)) (info : Info κ) (left right : List (Atom κ))
    (fields : List (BitField κ (BitLayout κ)))
    (hright : ∀ a ∈ right, Everywhere Honours a ∧ a.isBits = true ∧ Everywhere Shaped a) (l : Ledger κ) :
    Ends (followFields BitField.name (followBitField env frames) info .group left right fields) l
      fun out _ => out.error? = none → ∀ a ∈ out.parts, Everywhere Honours a ∧ a.isBits = true := by
  induction right generalizing left fields l with
  | nil => exact Ends.pure fun _ a ha => ⟨(hright a ha).1, (hright a ha).2.1⟩
  | cons a right ih =>
    cases fields with
    | nil => exact Ends.pure fun _ a ha => ⟨(hright a ha).1, (hright a ha).2.1⟩
    | cons field fields =>
      rw [List.forall_mem_cons] at hright
      obtain ⟨-, hbits, hshaped⟩ := hright.1
      rw [followFields]
      refine (honours_followBitField frames _ field hbits hshaped l).bind fun out m hout => ?_
      split
      · refine Ends.pure fun h => ?_
        cases h
      · rename_i herror
        refine (ih (out.atom :: left) fields hright.2 m).bind fun later n hlater => Ends.pure fun hdone => ?_
        exact List.forall_mem_cons.2 ⟨hout herror, hlater hdone⟩

/-- A loose atom whose later fields were laid out anew. -/
theorem honours_followGap (frames : List (Frame κ)) {f : Frame κ} {a : Atom κ}
    (hshaped : Everywhere Shaped (f.plug a)) (hf : Everywhere Honours (f.plug a)) (hloose : f.info.Loose)
    (l : Ledger κ) :
    Ends (followGap env frames f a) l fun out _ => out.error? = none →
      Everywhere Honours (Frame.plug { f with right := out.parts } a) := by
  obtain ⟨hhere, hleft, ha, hright⟩ := everywhere_plug.1 hf
  have hindex (i : Nat) : (f.plug a).parts[f.left.length + 1 + i]? = f.right[i]? := by
    rw [Frame.parts_plug, List.getElem?_append_right (by rw [List.length_reverse]; omega),
      List.length_reverse, show f.left.length + 1 + i - f.left.length = i + 1 by omega,
      List.getElem?_cons_succ]
  -- What is before the gap, and in it, stays.
  have hafter {parts : List (Atom κ)} (hparts : ∀ b ∈ parts, Everywhere Honours b)
      (hruled : ∀ i b, parts[i]? = some b → b.isBits = false → b.info.extent? ≠ none →
        f.content = .group ∧ f.info.layout.Forces (f.left.length + 1 + i)) :
      Everywhere Honours (Frame.plug { f with right := parts } a) := by
    refine everywhere_plug.2 ⟨Info.Loose.honours hloose fun i part hpart hbits hextent => ?_, hleft, ha,
      hparts⟩
    replace hpart : (f.left.reverse ++ a :: parts)[i]? = some part := by
      rw [← hpart, Frame.parts_plug]
    by_cases hi : i < f.left.length + 1
    · have hlt (others : List (Atom κ)) :
          (f.left.reverse ++ a :: others)[i]? = (f.left.reverse ++ [a])[i]? := by
        rw [List.append_cons, List.getElem?_append_left]
        rw [List.length_append, List.length_reverse, List.length_singleton]
        exact hi
      refine hhere.ruled i part ?_ hbits hextent
      rw [Frame.parts_plug, hlt, ← hlt parts]
      exact hpart
    · obtain ⟨j, rfl⟩ : ∃ j, i = f.left.length + 1 + j := ⟨i - (f.left.length + 1), by omega⟩
      refine hruled j part ?_ hbits hextent
      rw [← hpart, List.getElem?_append_right (by rw [List.length_reverse]; omega), List.length_reverse,
        show f.left.length + 1 + j - f.left.length = j + 1 by omega, List.getElem?_cons_succ]
  rw [followGap]
  split
  · rename_i name fields hgroup hlayout
    have hholds := hshaped.here.holds
    rw [Frame.content_plug, hgroup] at hholds
    have hmeasure (b : Atom κ) (hb : b ∈ f.right) : b.isBits = false := by
      refine (hholds b (by simp [hb])).trans ?_
      rw [isBits, Frame.info_plug, hlayout]
      rfl
    refine (honours_followFields frames f.info (a :: f.left) f.right (fields.drop (f.left.length + 1))
      hright (fun i b hb hextent => ?_) l).mono fun out _ h herror => ?_
    · obtain ⟨-, name', fields', field, hsame, hfield, hforced⟩ := hhere.ruled (f.left.length + 1 + i) b
        (by rw [hindex]; exact hb) (hmeasure b (List.mem_of_getElem? hb)) hextent
      rw [Frame.info_plug, hlayout] at hsame
      cases hsame
      exact ⟨field, by rw [List.getElem?_drop]; exact hfield, hforced⟩
    · refine hafter (h herror).1 fun i b hb _ hextent => ⟨hgroup, ?_⟩
      obtain ⟨field, hfield, hforced⟩ := (h herror).2 i b hb hextent
      rw [List.getElem?_drop] at hfield
      exact ⟨name, fields, field, hlayout, hfield, hforced⟩
  · rename_i name fields hgroup hlayout
    have hholds := hshaped.here.holds
    rw [Frame.content_plug, hgroup] at hholds
    have hparts := (everywhere_plug.1 hshaped).2.2.2
    refine (honours_followBitFields frames f.info (a :: f.left) f.right
      (fields.drop (f.left.length + 1)) (fun b hb => ⟨hright b hb, ?_, hparts b hb⟩) l).mono
      fun out _ h herror => ?_
    · refine (hholds b (by simp [hb])).trans ?_
      rw [isBits, Frame.info_plug, hlayout]
      rfl
    · refine hafter (fun b hb => (h herror b hb).1) fun i b hb hbits => ?_
      rw [(h herror b (List.mem_of_getElem? hb)).2] at hbits
      cases hbits
  · refine Ends.pure fun _ => hafter hright fun i b hb hbits hextent => ?_
    exact hhere.ruled _ b (by rw [hindex]; exact hb) hbits hextent

/-- The dependent fields around an atom. -/
theorem honours_followDependents (a : Atom κ) (frames : List (Frame κ))
    (hw : Everywhere Shaped (Place.assemble a frames))
    (h : Everywhere Honours (Place.assemble a frames)) (hloose : LooseIn frames) (l : Ledger κ) :
    Ends (followDependents env a frames) l fun out _ => out.error? = none →
      Everywhere Honours (Place.assemble a out.frames) ∧ LooseIn out.frames := by
  induction frames generalizing a l with
  | nil => exact Ends.pure fun _ => ⟨h, hloose⟩
  | cons f frames ih =>
    have hf : Everywhere Shaped (f.plug a) := Everywhere.of_assemble_cons hw
    rw [followDependents]
    split
    · exact Ends.pure fun _ => ⟨h, hloose⟩
    · rename_i hpointer
      obtain ⟨hinfo, houter⟩ := hloose (by simpa using hpointer)
      refine ((honours_followGap frames hf (Everywhere.of_assemble_cons h) hinfo l).and
        (accounts_followGap frames hf l)).bind fun out m hout => ?_
      dsimp only
      split
      · refine Ends.pure fun hnone => ?_
        cases hnone
      · rename_i herror
        have hwhole := honours_assemble (a := f.plug a) (b := Frame.plug { f with right := out.parts } a)
          (.of_info rfl rfl) houter (hout.1 herror) h
        refine (ih _ (hout.2.assemble hw).shaped hwhole houter m).bind fun outer n hrest =>
          Ends.pure fun hdone => ?_
        exact ⟨(hrest hdone).1, fun _ => ⟨hinfo, (hrest hdone).2⟩⟩

/-! ## Unions and dirt -/

/-- The members of a union, loaded anew but for one. -/
theorem honours_reloadMembers (frames : List (Frame κ)) (info : Info κ) (backing : Bytes) (kept : Nat)
    (left as : List (Atom κ)) (has : ∀ a ∈ as, Everywhere Honours a ∧ a.info.extent? = none)
    (l : Ledger κ) :
    Ends (reloadMembers env frames info backing kept left as) l fun out _ => out.error? = none →
      ∀ a ∈ out.parts, Everywhere Honours a ∧ a.info.extent? = none := by
  induction as generalizing left l with
  | nil => exact Ends.pure fun _ => has
  | cons a as ih =>
    rw [List.forall_mem_cons] at has
    have hmember : Ends (reloadMember env frames ⟨info, .overlay backing, left, as⟩ backing kept a) l
        fun out _ => out.error? = none → Everywhere Honours out.atom ∧ out.atom.info.extent? = none := by
      rw [reloadMember]
      split
      · exact Ends.pure fun _ => has.1
      · refine LedgerM.ends_fromBytes (Ends.mono (honours_load env _ _ a _) fun out m h herror => ?_)
        exact ⟨(h.made herror).honours has.1.2, h.extent.trans has.1.2⟩
    rw [reloadMembers_cons]
    refine hmember.bind fun out m hout => ?_
    split
    · refine Ends.pure fun h => ?_
      cases h
    · rename_i herror
      refine (ih (out.atom :: left) has.2 m).bind fun later n hlater => Ends.pure fun hdone => ?_
      exact List.forall_mem_cons.2 ⟨hout herror, hlater hdone⟩

/-- The unions around an atom. They have as many shared bytes as before, whatever a member writes. -/
theorem honours_syncUnions (a : Atom κ) (frames : List (Frame κ))
    (hw : Everywhere Shaped (Place.assemble a frames))
    (h : Everywhere Honours (Place.assemble a frames)) (l : Ledger κ) :
    Ends (syncUnions env a frames) l fun out _ => out.error? = none →
      Everywhere Honours (Place.assemble a out.frames) ∧ (LooseIn frames → LooseIn out.frames) := by
  induction frames generalizing a l with
  | nil => exact Ends.pure fun _ => ⟨h, id⟩
  | cons f frames ih =>
    have hf : Everywhere Honours (f.plug a) := Everywhere.of_assemble_cons h
    have hshaped : Everywhere Shaped (f.plug a) := Everywhere.of_assemble_cons hw
    rw [syncUnions]
    split
    · exact Ends.pure fun _ => ⟨h, id⟩
    · rename_i backing hcontent
      have hpointer : f.isPointer = false := by rw [Frame.isPointer, hcontent]
      dsimp only
      generalize hbytes : overwrite (Place.serialize ⟨a, f :: frames⟩ env.config.bitOrder) backing = bytes
      have hlength : bytes.length = backing.length := by rw [← hbytes, length_overwrite]
      have hmembers (part : Atom κ) (hpart : part ∈ (f.plug a).parts) :
          Everywhere Honours part ∧ part.info.extent? = none := by
        refine ⟨hf.part hpart, Decidable.byContradiction fun hextent => ?_⟩
        obtain ⟨i, hi, rfl⟩ := List.getElem_of_mem hpart
        have hholds := hshaped.here.holds
        rw [Frame.content_plug, hcontent] at hholds
        have hgroup := (hf.here.ruled i _ (List.getElem?_eq_getElem hi) (hholds _ hpart) hextent).1
        rw [Frame.content_plug, hcontent] at hgroup
        cases hgroup
      refine (((honours_reloadMembers frames f.info bytes f.left.length [] (f.plug a).parts hmembers l).and
        (kept_reloadMembers _ _ _ _ _ _ l)).and
        (becomeAll_reloadMembers frames f.info bytes f.left.length [] (f.plug a).parts
          (everywhere_iff.1 hshaped).2 l)).bind fun out m hout => ?_
      obtain ⟨⟨hhonours, hkept⟩, hbecome⟩ := hout
      have hkept : out.parts[f.left.length]? = some a := by
        rw [hkept f.left.length (Nat.zero_add _)]
        simp
      split
      · refine Ends.pure fun h => ?_
        cases h
      · rename_i herror
        let f' : Frame κ := ⟨f.info, .overlay bytes, (out.parts.take f.left.length).reverse,
          out.parts.drop (f.left.length + 1)⟩
        have hparts : (f'.plug a).parts = out.parts := Frame.parts_around hkept
        have hfooting : SameFooting (f.plug a) (f'.plug a) :=
          Frame.sameFooting_overlay hcontent rfl rfl hlength
        have hnew : Everywhere Honours (f'.plug a) := by
          refine everywhere_iff.2
            ⟨hf.here.of_footing hfooting rfl fun i part hpart hbits hextent => ?_, ?_⟩
          · rw [hparts] at hpart
            exact absurd (hhonours herror part (List.mem_of_getElem? hpart)).2 hextent
          · rw [hparts]
            exact fun part hpart => (hhonours herror part hpart).1
        have hunion : Accounts (f.plug a) l (f'.plug a) m := by
          refine .of_parts rfl hshaped.here ?_ ?_ ?_
          · rw [Frame.info_plug, Frame.content_plug, Frame.content_plug, hcontent]
            exact f.info.layout.admits_overlay _ _
          · rw [Frame.content_plug, hcontent]
            exact id
          · rw [hparts]
            exact hbecome
        have hwhole := honours_assemble_of_footing (a := f.plug a) (b := f'.plug a) hfooting
          (.of_info rfl rfl) hnew h
        refine (ih _ (hunion.assemble hw).shaped hwhole m).bind fun outer n hrest =>
          Ends.pure fun hdone => ?_
        refine ⟨(hrest hdone).1, fun hloose _ => ?_⟩
        exact ⟨(hloose hpointer).1, (hrest hdone).2 (hloose hpointer).2⟩
    · refine (ih _ hw h l).bind fun outer n hrest => Ends.pure fun hdone => ?_
      refine ⟨(hrest hdone).1, fun hloose hpointer => ?_⟩
      exact ⟨(hloose hpointer).1, (hrest hdone).2 (hloose hpointer).2⟩

theorem honours_markDirty {a : Atom κ} {frames : List (Frame κ)}
    (h : Everywhere Honours (Place.assemble a frames)) :
    Everywhere Honours (Place.assemble a (markDirty frames))
      ∧ (LooseIn frames → LooseIn (markDirty frames)) := by
  induction frames generalizing a with
  | nil => exact ⟨h, id⟩
  | cons f frames ih =>
    rw [markDirty]
    split
    · exact ⟨h, id⟩
    · obtain ⟨hhere, hleft, ha, hright⟩ := everywhere_plug.1 (Everywhere.of_assemble_cons h)
      let f' : Frame κ := { f with info := { f.info with dirty := true } }
      have hfooting : SameFooting (f.plug a) (f'.plug a) :=
        show SameFooting (f.plug a) ((f.plug a).mapInfo fun info => { info with dirty := true })
          from sameFooting_mapInfo rfl rfl
      have hdirty : Everywhere Honours (f'.plug a) :=
        everywhere_plug.2 ⟨hhere.of_footing hfooting rfl hhere.ruled, hleft, ha, hright⟩
      obtain ⟨hwhole, hrest⟩ := ih (a := f'.plug a)
        (honours_assemble_of_footing (a := f.plug a) hfooting (.of_info rfl rfl) hdirty h)
      refine ⟨hwhole, fun hloose hpointer => ?_⟩
      exact ⟨(hloose hpointer).1.of_eq rfl rfl, hrest (hloose hpointer).2⟩

end Fields

end BinaryLayout
