import BinaryLayout.Proofs.Handles.Surroundings
import BinaryLayout.Proofs.Placement.Load
import BinaryLayout.Proofs.Tree.Outline

/-!
# Where the surroundings of a changed atom stand

While an atom is being changed, its later siblings may stand in the wrong places, and so may the
later siblings of each atom around it. Everything before them is in place, and so are the starts of
the enclosing atoms: nothing moves an atom by changing what comes after its own offset. So all that
surroundings have to know of the changed atom is its offset, and one pass from the inside out puts
them in order. The pass may stop at a pointer, because an atom around a pointer never sees how
many bytes the referent has.

## Main definitions

* `Frame.Awaits`: an enclosing atom that will be in order when its later parts are moved.
* `Poised`: this holds of all surroundings, as far out as the nearest pointer.

## Main statements

* `laidOut_reflow`: poised surroundings are put in order.
* `poised_followDependents`: later fields laid out anew leave them poised.
* `laidOut_syncUnions`, `laidOut_markDirty`: what comes after leaves them in order.
-/

namespace BinaryLayout

variable {κ : Type}

open Atom

/-! ## Surroundings out of order -/

/-- The atom in the gap stands at `offset` because of the content and of the parts before it. -/
def Frame.Expects (f : Frame κ) (offset : Nat) : Prop :=
  match f.content with
  | .group => InTurn f.info.layout.isBits f.info.offset f.left.reverse
      ∧ offset = turnEnd f.info.layout.isBits f.info.offset f.left.reverse
  | .overlay _ => offset = f.info.offset ∧ ∀ part ∈ f.left ++ f.right, part.info.offset = f.info.offset
  | .host _ => offset = hostedAt f.info.offset
      ∧ ∀ part ∈ f.left ++ f.right, part.info.offset = hostedAt f.info.offset
  | _ => False

/-- The enclosing atom is in order with an atom at `offset` in its gap, but for where the later parts
stand and for the unused bits of a host. -/
structure Frame.Awaits (f : Frame κ) (offset : Nat) : Prop where
  expects : f.Expects offset
  left : ∀ part ∈ f.left, Everywhere LaidOut part
  right : ∀ part ∈ f.right, Everywhere LaidOut part
  tail : f.info.layout.isBits = true → f.info.tail = []

/-- Each enclosing atom is in order for an atom at `offset`, but for later parts and unused bits.
What is around a pointer is in order whatever the pointer refers to. -/
def Poised (offset : Nat) : List (Frame κ) → Prop
  | [] => True
  | f :: frames =>
    if f.isPointer then
      ∀ a, Everywhere LaidOut a → Everywhere LaidOut (Place.assemble a (f :: frames))
    else f.Awaits offset ∧ Poised f.info.offset frames

theorem poised_cons {f : Frame κ} {frames : List (Frame κ)} {offset : Nat} (h : ¬ f.isPointer = true) :
    Poised offset (f :: frames) ↔ f.Awaits offset ∧ Poised f.info.offset frames := by
  rw [Poised, if_neg h]

namespace Frame

variable {f : Frame κ} {a b : Atom κ}

theorem isPointer_iff : f.isPointer = true ↔ ∃ wire, f.content = .pointer wire := by
  rw [isPointer]
  cases f.content <;> simp

/-- What holds of the atom in the gap and of the other parts. -/
theorem forall_mem_plug {P : Atom κ → Prop} (ha : P a) (h : ∀ part ∈ f.left ++ f.right, P part) :
    ∀ part ∈ (f.plug a).parts, P part := by
  rw [parts_plug]
  rw [List.forall_mem_append] at h
  refine List.forall_mem_append.2 ⟨?_, List.forall_mem_cons.2 ⟨ha, h.2⟩⟩
  exact fun part hpart => h.1 part (List.mem_reverse.1 hpart)

/-- What a pointer refers to does not matter to the atoms around the pointer. -/
theorem sameFooting_of_isPointer (h : f.isPointer = true) : SameFooting (f.plug a) (f.plug b) := by
  obtain ⟨wire, hcontent⟩ := isPointer_iff.1 h
  obtain ⟨info, content, left, right⟩ := f
  cases hcontent
  refine ⟨rfl, rfl, ?_, rfl⟩
  cases hbits : info.layout.isBits <;> simp [plug, size, contentSize, hbits, bitCount]

/-- What a union takes is its shared bytes, whatever its members are. -/
theorem sameFooting_overlay {g : Frame κ} {backing bytes : Bytes} (hf : f.content = .overlay backing)
    (hg : g.content = .overlay bytes) (hinfo : g.info = f.info) (hlength : bytes.length = backing.length) :
    SameFooting (f.plug a) (g.plug b) := by
  obtain ⟨info, content, left, right⟩ := f
  obtain ⟨info', content', left', right'⟩ := g
  cases hf
  cases hg
  cases hinfo
  refine ⟨rfl, rfl, ?_, rfl⟩
  cases hbits : info.layout.isBits <;> simp [plug, size, contentSize, hbits, bitCount, hlength]

/-- The atom around one in its place is laid out. -/
theorem awaits_of_laidOut (hf : Everywhere LaidOut (f.plug a)) (hpointer : f.isPointer = false) :
    f.Awaits a.info.offset := by
  obtain ⟨hhere, hleft, -, hright⟩ := everywhere_plug.1 hf
  have hseats := hhere.seats
  rw [content_plug, parts_plug] at hseats
  refine ⟨?_, hleft, hright, hhere.tail⟩
  have hother (offset : Nat) (hall : ∀ part ∈ f.left.reverse ++ a :: f.right, part.info.offset = offset) :
      a.info.offset = offset ∧ ∀ part ∈ f.left ++ f.right, part.info.offset = offset := by
    refine ⟨hall a (by simp), fun part hpart => hall part ?_⟩
    rw [List.mem_append] at hpart
    simpa using hpart.imp_right .inr
  rw [Expects]
  cases hcontent : f.content with
  | pointer wire => exact absurd (isPointer_iff.2 ⟨wire, hcontent⟩) (by simp [hpointer])
  | empty | raw | bits =>
    rw [hcontent] at hseats
    exact absurd hseats (by simp [Seats])
  | group =>
    rw [hcontent] at hseats
    have hturn := inTurn_append.1 hseats
    exact ⟨hturn.1, hturn.2.1⟩
  | overlay backing =>
    rw [hcontent] at hseats
    exact hother _ hseats
  | host pad =>
    rw [hcontent] at hseats
    exact hother _ hseats.1

end Frame

/-- What surrounds an atom in a whole that is laid out. -/
theorem poised_of_laidOut {a : Atom κ} {frames : List (Frame κ)}
    (h : Everywhere LaidOut (Place.assemble a frames)) : Poised a.info.offset frames := by
  induction frames generalizing a with
  | nil => exact trivial
  | cons f frames ih =>
    have hf : Everywhere LaidOut (f.plug a) := Everywhere.of_assemble_cons h
    rw [Poised]
    split
    · rename_i hpointer
      intro b hb
      obtain ⟨hhere, hleft, -, hright⟩ := everywhere_plug.1 hf
      have hfooting : SameFooting (f.plug a) (f.plug b) := f.sameFooting_of_isPointer hpointer
      refine hfooting.laidOut_assemble (everywhere_plug.2 ⟨⟨?_, hhere.tail, hhere.wire⟩, hleft, hb, hright⟩) h
      obtain ⟨wire, hcontent⟩ := Frame.isPointer_iff.1 hpointer
      rw [Frame.content_plug, hcontent]
      exact trivial
    · rename_i hpointer
      exact ⟨Frame.awaits_of_laidOut hf (by simpa using hpointer), ih h⟩

/-! ## Offsets -/

def Frame.starts (frames : List (Frame κ)) : List Nat := frames.map fun f => f.info.offset

/-- Surroundings that are poised are put in order, and no enclosing atom moves. -/
theorem laidOut_reflow {a : Atom κ} {frames : List (Frame κ)} (ha : Everywhere LaidOut a)
    (h : Poised a.info.offset frames) :
    ∃ frames', Place.reflowIn a frames = ⟨a, frames'⟩
      ∧ Everywhere LaidOut (Place.assemble a frames')
      ∧ Frame.starts frames' = Frame.starts frames := by
  induction frames generalizing a with
  | nil => exact ⟨[], rfl, ha, rfl⟩
  | cons f frames ih =>
    rw [Poised] at h
    rw [Place.reflowIn]
    split at h
    · rename_i hpointer
      obtain ⟨wire, hcontent⟩ := Frame.isPointer_iff.1 hpointer
      rw [hcontent]
      exact ⟨f :: frames, rfl, h a ha, rfl⟩
    · obtain ⟨⟨hexpects, hleft, hright, htail⟩, houter⟩ := h
      have hparts : ∀ part ∈ (f.plug a).parts, Everywhere LaidOut part :=
        Frame.forall_mem_plug ha (List.forall_mem_append.2 ⟨hleft, hright⟩)
      have hall {offset : Nat} (hoffset : a.info.offset = offset)
          (hothers : ∀ part ∈ f.left ++ f.right, part.info.offset = offset) :
          ∀ part ∈ (f.plug a).parts, part.info.offset = offset :=
        Frame.forall_mem_plug hoffset hothers
      -- the enclosing atom in order: it still has `a` in its gap, so going back in finds `a`
      have hback (outer : Atom κ) (right : List (Atom κ)) (hlaid : Everywhere LaidOut outer)
          (hinfo : outer.info = f.info) (houterparts : outer.parts = f.left.reverse ++ a :: right) :
          ∃ frames', ((Place.reflowIn outer frames).down? f.left.length).getD ⟨a, f :: frames⟩
              = ⟨a, frames'⟩
            ∧ Everywhere LaidOut (Place.assemble a frames')
            ∧ Frame.starts frames' = Frame.starts (f :: frames) := by
        rw [← hinfo] at houter
        obtain ⟨frames', hreflow, hwhole, hstarts⟩ := ih hlaid houter
        have hdown := Place.down?_of_parts (p := ⟨outer, frames'⟩) houterparts
        rw [List.length_reverse] at hdown
        refine ⟨_, by rw [hreflow, hdown]; rfl, ?_, ?_⟩
        · have hplug : Frame.plug ⟨outer.info, outer.content, f.left.reverse.reverse, right⟩ a = outer := by
            obtain ⟨info, content, parts⟩ := outer
            cases houterparts
            simp [Frame.plug, List.reverseAux_eq]
          rw [Place.assemble, hplug]
          exact hwhole
        · rw [Frame.starts, List.map_cons, ← Frame.starts, hstarts, hinfo]
          rfl
      rw [Frame.Expects] at hexpects
      cases hcontent : f.content with
      | empty | raw | pointer | bits =>
        rw [hcontent] at hexpects
        exact hexpects.elim
      | group =>
        rw [hcontent] at hexpects
        obtain ⟨hturn, hoffset⟩ := hexpects
        refine hback _ (moveInTurn f.info.layout.isBits
          (satAdd (turnEnd f.info.layout.isBits f.info.offset f.left.reverse)
            (a.step f.info.layout.isBits)) f.right) ?_ ?_ ?_
        · exact laidOut_arranged hparts htail (.inl hcontent)
        · rw [arranged_eq, info_node, Frame.info_plug]
        · rw [arranged_eq, parts_node, Frame.content_plug, hcontent, Frame.parts_plug]
          show moveInTurn f.info.layout.isBits f.info.offset _ = _
          rw [moveInTurn_append, moveInTurn_self hturn, moveInTurn, moveTo_self hoffset]
      | overlay backing =>
        rw [hcontent] at hexpects
        obtain ⟨hoffset, hothers⟩ := hexpects
        refine hback _ f.right ?_ rfl (Frame.parts_plug f a)
        refine everywhere_iff.2 ⟨⟨?_, htail, fun wire h => ?_⟩, hparts⟩
        · rw [Frame.content_plug, hcontent]
          exact hall hoffset hothers
        · rw [Frame.content_plug, hcontent] at h
          cases h
      | host pad =>
        rw [hcontent] at hexpects
        obtain ⟨hoffset, hothers⟩ := hexpects
        refine hback _ f.right ?_ (info_fixPad _) (by rw [parts_fixPad, Frame.parts_plug])
        exact laidOut_fixPad hparts htail hcontent (hall hoffset hothers)

/-! ## Dependent fields -/

section Fields

variable {env : Env κ}

/-- An atom under another layout, whatever it held under the one before. -/
theorem laid_rebuild (frames : List (Frame κ)) (a : Atom κ) (layout : Layout κ) (l : Ledger κ) :
    Ends (rebuild env frames a layout) l fun out _ => Everywhere LaidOut out.atom := by
  have hlayout : (a.mapInfo fun info => { info with layout := .bytes layout }).info.layout
      = .bytes layout := by
    rw [info_mapInfo]
  rw [rebuild]
  refine Ends.via (fun out _ => Everywhere LaidOut out.atom)
    (LedgerM.ends_fromBytes ((inOrder_load_of_bytes env frames hlayout _).mono fun _ _ h => h.laid))
    fun out m hout => ?_
  split
  · exact (inOrder_allocate env _ frames _ m).mono fun _ _ h => (h (.inr hout)).laid
  · exact Ends.pure hout

theorem laid_followField (frames : List (Frame κ)) (f : Frame κ) (field : Field κ (Layout κ))
    {a : Atom κ} (hbits : a.isBits = false) (ha : Everywhere LaidOut a) (l : Ledger κ) :
    Ends (followField env frames f field a) l fun out _ => Everywhere LaidOut out.atom := by
  have hlayout : Ends (followLayout env frames f field a) l fun out _ =>
      Everywhere LaidOut out.atom ∧ out.atom.isBits = false := by
    rw [followLayout]
    split
    · exact Ends.pure ⟨ha, hbits⟩
    · split
      · exact Ends.pure ⟨ha, hbits⟩
      · rename_i layout _
        have hbecomes : Ends (rebuild env (f :: frames) a layout) l fun out m => Becomes a l out.atom m :=
          becomes_rebuild (f :: frames) hbits layout l
        exact ((laid_rebuild _ a _ l).and hbecomes).mono fun out m h => ⟨h.1, h.2.isBits.trans hbits⟩
  rw [followField_eq]
  refine hlayout.bind fun out m hout => Ends.pure ?_
  rw [followExtent]
  split
  · exact hout.1
  · exact hout.1
  · split
    · exact hout.1
    · exact hout.1.laidOut_forceExtent hout.2 env.config _

/-- An atom of bits under another layout of bits. -/
theorem Atom.Everywhere.laidOut_withBitLayout {a : Atom κ} (ha : Everywhere LaidOut a)
    (hbits : a.isBits = true) (layout : BitLayout κ) :
    Everywhere LaidOut (a.mapInfo fun info => { info with layout := .bits layout }) := by
  obtain ⟨info, content, parts⟩ := a
  have hhere := ha.here
  have hseats := hhere.seats
  rw [hbits] at hseats
  refine everywhere_iff.2 ⟨⟨hseats, fun _ => hhere.tail hbits, fun wire hwire => ?_⟩, fun _ => ha.part⟩
  obtain ⟨format, target, policy, hlayout, -⟩ := hhere.wire wire hwire
  rw [isBits, hlayout] at hbits
  cases hbits

theorem laid_followBitField (frames : List (Frame κ)) (f : Frame κ)
    (field : BitField κ (BitLayout κ)) {a : Atom κ} (hbits : a.isBits = true)
    (ha : Everywhere LaidOut a) (l : Ledger κ) :
    Ends (followBitField env frames f field a) l fun out _ => Everywhere LaidOut out.atom := by
  rw [followBitField]
  split
  · exact Ends.pure ha
  · split
    · exact Ends.pure ha
    · rename_i layout _
      exact (inOrder_allocateBits env _ _ _ l).mono fun _ _ h =>
        (h (.inr (ha.laidOut_withBitLayout hbits layout))).laid

/-- Laying out parts one after another. -/
theorem laid_followFields {φ : Type} (name : φ → String)
    {follow : Frame κ → φ → Atom κ → LedgerM κ (Outcome κ)} {inBits : Bool}
    (hfollow : ∀ f field a l, a.isBits = inBits → Everywhere LaidOut a →
      Ends (follow f field a) l fun out _ => Everywhere LaidOut out.atom)
    (info : Info κ) (content : Content) (left right : List (Atom κ)) (fields : List φ)
    (hbits : ∀ a ∈ right, a.isBits = inBits) (hright : ∀ a ∈ right, Everywhere LaidOut a)
    (l : Ledger κ) :
    Ends (followFields name follow info content left right fields) l fun out _ =>
      ∀ a ∈ out.parts, Everywhere LaidOut a := by
  induction right generalizing left fields l with
  | nil => exact Ends.pure hright
  | cons a right ih =>
    cases fields with
    | nil => exact Ends.pure hright
    | cons field fields =>
      rw [List.forall_mem_cons] at hbits hright
      rw [followFields]
      refine (hfollow _ field a l hbits.1 hright.1).bind fun out m hout => ?_
      split
      · exact Ends.pure (List.forall_mem_cons.2 ⟨hout, hright.2⟩)
      · refine (ih _ fields hbits.2 hright.2 m).bind fun later n hlater => Ends.pure ?_
        exact List.forall_mem_cons.2 ⟨hout, hlater⟩

/-- An enclosing atom whose later fields were laid out anew, as far as this went. -/
theorem awaits_followGap (frames : List (Frame κ)) {f : Frame κ} {a : Atom κ}
    (hshaped : (f.plug a).Shaped) {offset : Nat} (hf : f.Awaits offset) (l : Ledger κ) :
    Ends (followGap env frames f a) l fun out _ => Frame.Awaits { f with right := out.parts } offset := by
  have hmeasure (hgroup : f.content = .group) : ∀ b ∈ f.right, b.isBits = f.info.layout.isBits := by
    intro b hb
    have hholds := hshaped.holds
    rw [Frame.content_plug, hgroup] at hholds
    exact hholds b (by simp [hb])
  have hafter (hgroup : f.content = .group) (parts : List (Atom κ))
      (hparts : ∀ part ∈ parts, Everywhere LaidOut part) :
      Frame.Awaits { f with right := parts } offset := by
    refine ⟨?_, hf.left, hparts, hf.tail⟩
    have hexpects := hf.expects
    rw [Frame.Expects, hgroup] at hexpects
    rw [Frame.Expects, hgroup]
    exact hexpects
  rw [followGap]
  split
  · rename_i fields hgroup hlayout
    rw [hlayout] at hmeasure
    exact (laid_followFields Field.name
      (fun f field a l hb ha => laid_followField frames f field hb ha l) f.info .group _ _ _
      (hmeasure hgroup) hf.right l).mono fun _ _ h => hafter hgroup _ h
  · rename_i fields hgroup hlayout
    rw [hlayout] at hmeasure
    exact (laid_followFields BitField.name
      (fun f field a l hb ha => laid_followBitField frames f field hb ha l) f.info .group _ _ _
      (hmeasure hgroup) hf.right l).mono fun _ _ h => hafter hgroup _ h
  · exact Ends.pure hf

/-- Surroundings that are poised stay so while dependent fields follow, however far this goes. -/
theorem poised_followDependents (a : Atom κ) (frames : List (Frame κ))
    (hw : Everywhere Shaped (Place.assemble a frames)) (h : Poised a.info.offset frames)
    (l : Ledger κ) :
    Ends (followDependents env a frames) l fun out _ =>
      Poised a.info.offset out.frames ∧ Frame.starts out.frames = Frame.starts frames := by
  induction frames generalizing a l with
  | nil => exact Ends.pure ⟨h, rfl⟩
  | cons f frames ih =>
    have hf : Everywhere Shaped (f.plug a) := Everywhere.of_assemble_cons hw
    rw [followDependents]
    split
    · exact Ends.pure ⟨h, rfl⟩
    · rename_i hpointer
      rw [poised_cons hpointer] at h
      have hgap : Ends (followGap env frames f a) l fun out _ =>
          Frame.Awaits { f with right := out.parts } a.info.offset :=
        awaits_followGap frames hf.here h.1 l
      refine (hgap.and (accounts_followGap frames hf l)).bind fun out m hout => ?_
      have hsame : ¬ Frame.isPointer { f with right := out.parts } = true := hpointer
      dsimp only
      split
      · exact Ends.pure ⟨(poised_cons hsame).2 ⟨hout.1, h.2⟩, rfl⟩
      · refine (ih _ (hout.2.assemble hw).shaped h.2 m).bind fun outer n houter => Ends.pure ?_
        obtain ⟨hpoised, hstarts⟩ := houter
        refine ⟨?_, by rw [Frame.starts, List.map_cons, ← Frame.starts, hstarts]; rfl⟩
        exact (poised_cons hsame).2 ⟨hout.1, hpoised⟩

/-! ## Unions and dirt -/

theorem length_overwrite (bytes backing : Bytes) : (overwrite bytes backing).length = backing.length := by
  rw [overwrite, List.length_append, List.length_take, List.length_drop]
  omega

/-- The members of a union, loaded anew but for one, as far as this went. -/
theorem laid_reloadMembers (frames : List (Frame κ)) (info : Info κ) (backing : Bytes) (kept : Nat)
    (left as : List (Atom κ))
    (has : ∀ a ∈ as, Everywhere LaidOut a ∧ a.info.offset = info.offset) (l : Ledger κ) :
    Ends (reloadMembers env frames info backing kept left as) l fun out _ =>
      ∀ a ∈ out.parts, Everywhere LaidOut a ∧ a.info.offset = info.offset := by
  induction as generalizing left l with
  | nil => exact Ends.pure has
  | cons a as ih =>
    rw [List.forall_mem_cons] at has
    have hmember : Ends (reloadMember env frames ⟨info, .overlay backing, left, as⟩ backing kept a) l
        fun out _ => Everywhere LaidOut out.atom ∧ out.atom.info.offset = info.offset := by
      rw [reloadMember]
      split
      · exact Ends.pure has.1
      · refine LedgerM.ends_fromBytes (Ends.mono (inOrder_load env _ _ a _) fun out m h => ?_)
        have hmade := h (.inr has.1.1)
        exact ⟨hmade.laid, hmade.offset.trans has.1.2⟩
    rw [reloadMembers_cons]
    refine hmember.bind fun out m hout => ?_
    split
    · exact Ends.pure (List.forall_mem_cons.2 ⟨hout, has.2⟩)
    · refine (ih (out.atom :: left) has.2 m).bind fun later n hlater => Ends.pure ?_
      exact List.forall_mem_cons.2 ⟨hout, hlater⟩

/-- The unions around an atom stay in order, however far writing through to them goes. -/
theorem laidOut_syncUnions (a : Atom κ) (frames : List (Frame κ))
    (h : Everywhere LaidOut (Place.assemble a frames)) (l : Ledger κ) :
    Ends (syncUnions env a frames) l fun out _ =>
      Everywhere LaidOut (Place.assemble a out.frames)
        ∧ Frame.starts out.frames = Frame.starts frames := by
  induction frames generalizing a l with
  | nil => exact Ends.pure ⟨h, rfl⟩
  | cons f frames ih =>
    have hf : Everywhere LaidOut (f.plug a) := Everywhere.of_assemble_cons h
    rw [syncUnions]
    split
    · exact Ends.pure ⟨h, rfl⟩
    · rename_i backing hcontent
      dsimp only
      generalize hbytes : overwrite (Place.serialize ⟨a, f :: frames⟩ env.config.bitOrder) backing = bytes
      have hlength : bytes.length = backing.length := by rw [← hbytes, length_overwrite]
      have hseats := hf.here.seats
      rw [Frame.content_plug, hcontent] at hseats
      refine ((laid_reloadMembers frames f.info bytes f.left.length [] (f.plug a).parts
        (fun part hpart => ⟨hf.part hpart, hseats part hpart⟩) l).and
        (kept_reloadMembers _ _ _ _ _ _ l)).bind fun out m hout => ?_
      have hkept : out.parts[f.left.length]? = some a := by
        rw [hout.2 f.left.length (Nat.zero_add _)]
        simp
      let f' : Frame κ := ⟨f.info, .overlay bytes, (out.parts.take f.left.length).reverse,
        out.parts.drop (f.left.length + 1)⟩
      have hparts : (f'.plug a).parts = out.parts := Frame.parts_around hkept
      have hnew : Everywhere LaidOut (f'.plug a) := by
        refine everywhere_iff.2 ⟨⟨?_, hf.here.tail, fun _ h => by cases h⟩, ?_⟩
        · rw [hparts]
          exact fun part hpart => (hout.1 part hpart).2
        · rw [hparts]
          exact fun part hpart => (hout.1 part hpart).1
      have hfooting : SameFooting (f.plug a) (f'.plug a) :=
        Frame.sameFooting_overlay hcontent rfl rfl hlength
      have hwhole := hfooting.laidOut_assemble hnew h
      split
      · exact Ends.pure ⟨hwhole, rfl⟩
      · refine (ih _ hwhole m).bind fun outer n houter => Ends.pure ?_
        exact ⟨houter.1, by rw [Frame.starts, List.map_cons, ← Frame.starts, houter.2]; rfl⟩
    · refine (ih _ h l).bind fun outer n houter => Ends.pure ?_
      exact ⟨houter.1, by rw [Frame.starts, List.map_cons, ← Frame.starts, houter.2]; rfl⟩

/-- Flags do not matter to the atoms around. -/
theorem sameFooting_mapInfo {a : Atom κ} {change : Info κ → Info κ}
    (hsite : (change a.info).site = a.info.site) (htail : (change a.info).tail = a.info.tail) :
    SameFooting a (a.mapInfo change) := by
  obtain ⟨info, content, parts⟩ := a
  have hlayout := Info.layout_of_site hsite
  simp only [info_node] at hlayout htail
  have hcount : bitCount (mapInfo change (.node info content parts)) = bitCount (.node info content parts) := by
    cases content <;> rfl
  refine ⟨Info.offset_of_site hsite, ?_, ?_, hcount⟩
  · rw [isBits, isBits, info_mapInfo, info_node, hlayout]
  · rw [mapInfo] at hcount ⊢
    rw [size, size, contentSize.eq_def, contentSize.eq_def, info_node, info_node, htail]
    simp only [hcount, hlayout]

theorem laidOut_markDirty {a : Atom κ} {frames : List (Frame κ)}
    (h : Everywhere LaidOut (Place.assemble a frames)) :
    Everywhere LaidOut (Place.assemble a (markDirty frames))
      ∧ Frame.starts (markDirty frames) = Frame.starts frames := by
  induction frames generalizing a with
  | nil => exact ⟨h, rfl⟩
  | cons f frames ih =>
    have hf : Everywhere LaidOut (f.plug a) := Everywhere.of_assemble_cons h
    rw [markDirty]
    split
    · exact ⟨h, rfl⟩
    · have hfooting : SameFooting (f.plug a)
          ((f.plug a).mapInfo fun info => { info with dirty := true }) := sameFooting_mapInfo rfl rfl
      have hdirty := hfooting.laidOut_assemble (hf.laidOut_mapInfo rfl hf.here.tail) h
      obtain ⟨hwhole, hstarts⟩ := ih hdirty
      exact ⟨hwhole, by rw [Frame.starts, List.map_cons, ← Frame.starts, hstarts]; rfl⟩

end Fields

end BinaryLayout
