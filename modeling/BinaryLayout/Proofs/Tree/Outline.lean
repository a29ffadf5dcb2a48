import BinaryLayout.Edit.Basic
import BinaryLayout.Proofs.Edit.Rules
import BinaryLayout.Proofs.Run
import BinaryLayout.Proofs.Tree.Arrange

/-!
# What surrounds an atom while it is edited

An edit of a part may lay out, move, load and mark what surrounds it, but each enclosing atom keeps
its handle, its name and its layout, the kind of its content, and the number of its parts on either
side of the edited one. This outline is all that the edit of the enclosing atom, when it goes on,
has to know of it.

Putting offsets in order keeps much more: it changes nothing but offsets and the unused bits of
hosts.

## Main definitions

* `Frame.outline`, `Atom.outline`: what edits of a part leave alone.
* `Frame.unplaced`: a frame without offsets and unused bits.

## Main statements

* `Place.unplaced_reflow`: what moving leaves alone.
* `outline_followDependents`, `outline_syncUnions`, `outline_markDirty`: what the steps after a change
  leave alone.
-/

namespace BinaryLayout

variable {κ : Type}

open Atom

/-- The content without bytes and bits of its own. -/
def Content.kind : Content → Content
  | .empty => .empty
  | .raw _ => .raw []
  | .group => .group
  | .overlay _ => .overlay []
  | .pointer _ => .pointer []
  | .host _ => .host .empty
  | .bits _ => .bits .empty

/-- The content without the unused bits of a host. -/
def Content.padless : Content → Content
  | .host _ => .host .empty
  | content => content

theorem Content.pointer_of_kind {c d : Content} (h : c.kind = d.kind) {wire : Bytes}
    (hc : c = .pointer wire) : ∃ wire, d = .pointer wire := by
  subst hc
  cases d <;> first | exact ⟨_, rfl⟩ | cases h

theorem Content.kind_of_padless {c d : Content} (h : c.padless = d.padless) : c.kind = d.kind := by
  cases c <;> cases d <;> simp_all [Content.padless, Content.kind]

/-- Handle, name and layout. -/
def Info.face (info : Info κ) : Nat × String × AtomLayout κ := (info.id, info.name, info.layout)

theorem Info.face_of_site {i j : Info κ} (h : i.site = j.site) : i.face = j.face := by
  rw [face, face, Info.id_of_site h, Info.name_of_site h, Info.layout_of_site h]

/-- What edits of a part leave alone. -/
def Atom.outline (a : Atom κ) : (Nat × String × AtomLayout κ) × Content × Nat :=
  (a.info.face, a.content.kind, a.parts.length)

namespace Frame

/-- What edits of a part leave alone. -/
def outline (f : Frame κ) : (Nat × String × AtomLayout κ) × Content × Nat × Nat :=
  (f.info.face, f.content.kind, f.left.length, f.right.length)

/-- The frame with all offsets zero and without unused bits. -/
def unplaced (f : Frame κ) : Frame κ :=
  ⟨{ f.info with offset := 0 }, f.content.padless, f.left.map Atom.unplaced,
    f.right.map Atom.unplaced⟩

theorem outline_of_unplaced {f g : Frame κ} (h : f.unplaced = g.unplaced) :
    f.outline = g.outline := by
  have hface : f.unplaced.info.face = g.unplaced.info.face := by rw [h]
  have hkind := Content.kind_of_padless (congrArg Frame.content h)
  have hleft : f.unplaced.left.length = g.unplaced.left.length := by rw [h]
  have hright : f.unplaced.right.length = g.unplaced.right.length := by rw [h]
  simp only [unplaced, List.length_map, Info.face] at hleft hright hface
  rw [outline, outline, Info.face, Info.face, hface, hkind, hleft, hright]

theorem map_outline_of_unplaced {fs gs : List (Frame κ)}
    (h : fs.map unplaced = gs.map unplaced) : fs.map outline = gs.map outline := by
  induction fs generalizing gs with
  | nil => simpa using h
  | cons f fs ih =>
    obtain _ | ⟨g, gs⟩ := gs
    · simp at h
    · rw [List.map_cons, List.map_cons, List.cons.injEq] at h
      rw [List.map_cons, List.map_cons, outline_of_unplaced h.1, ih h.2]

end Frame

/-! ## Offsets -/

namespace Place

/-- The part after the parts `left`. -/
theorem down?_of_parts {p : Place κ} {left right : List (Atom κ)} {a : Atom κ}
    (h : p.atom.parts = left ++ a :: right) :
    p.down? left.length = some ⟨a, ⟨p.atom.info, p.atom.content, left.reverse, right⟩ :: p.frames⟩ := by
  simp [down?, h]

/-- The frame around a part. -/
theorem frames_of_down? {p q : Place κ} {i : Nat} (h : p.down? i = some q) :
    ∃ f, q.frames = f :: p.frames ∧ f.plug q.atom = p.atom ∧ f.left.length = i := by
  have hup := up?_down? h
  rw [down?] at h
  split at h
  · cases h
  · rename_i a right hdrop
    cases h
    have hlt : i < p.atom.parts.length := by
      have hlength := congrArg List.length hdrop
      rw [List.length_drop, List.length_cons] at hlength
      omega
    refine ⟨_, rfl, ?_, ?_⟩
    · simpa [up?] using congrArg (Option.map Place.atom) hup
    · rw [List.length_reverse, List.length_take]
      omega

/-- Siblings have the same atom around them. -/
theorem up?_next? {p q : Place κ} (h : p.next? = some q) : q.up? = p.up? := by
  obtain ⟨a, _ | ⟨⟨info, content, left, right⟩, frames⟩⟩ := p
  · simp [next?] at h
  · cases right with
    | nil => simp [next?] at h
    | cons b right =>
      simp only [next?, Option.some.injEq] at h
      subst h
      rfl

/-- Going on to a sibling does not leave the outermost atom. -/
theorem root_next? {p q : Place κ} (h : p.next? = some q) : q.root = p.root := by
  cases hup : p.up? with
  | none =>
    obtain ⟨a, _ | ⟨f, frames⟩⟩ := p
    · cases h
    · cases hup
  | some outer => exact (root_up? ((up?_next? h).trans hup)).symm.trans (root_up? hup)

/-- Going back in to the atom that was put in a gap, when the atom around it moved. -/
theorem down?_of_unplaced {f : Frame κ} {a : Atom κ} {q : Place κ}
    (h : q.atom.parts.map Atom.unplaced = (f.plug a).parts.map Atom.unplaced) :
    ∃ (left right : List (Atom κ)) (b : Atom κ), q.atom.parts = left ++ b :: right
      ∧ q.down? f.left.length = some ⟨b, ⟨q.atom.info, q.atom.content, left.reverse, right⟩ :: q.frames⟩
      ∧ left.reverse.map Atom.unplaced = f.left.map Atom.unplaced
      ∧ b.unplaced = a.unplaced ∧ right.map Atom.unplaced = f.right.map Atom.unplaced := by
  rw [Frame.parts_plug, List.map_append, List.map_cons] at h
  obtain ⟨left, rest, hparts, hleft, hrest⟩ := List.map_eq_append_iff.1 h
  obtain ⟨b, right, rfl, hb, hright⟩ := List.map_eq_cons_iff.1 hrest
  have hlength : left.length = f.left.length := by
    simpa using congrArg List.length hleft
  refine ⟨left, right, b, hparts, ?_, ?_, hb, hright⟩
  · rw [← hlength]
    exact down?_of_parts hparts
  · rw [List.map_reverse, hleft, List.map_reverse, List.reverse_reverse]

/-- Putting what surrounds an atom in order changes offsets and unused bits only. -/
theorem unplaced_reflow (p : Place κ) :
    p.reflow.atom.unplaced = p.atom.unplaced
      ∧ p.reflow.frames.map Frame.unplaced = p.frames.map Frame.unplaced := by
  obtain ⟨a, frames⟩ := p
  show (reflowIn a frames).atom.unplaced = a.unplaced
    ∧ (reflowIn a frames).frames.map Frame.unplaced = frames.map Frame.unplaced
  induction frames generalizing a with
  | nil => exact ⟨rfl, rfl⟩
  | cons f frames ih =>
    have houter (outer : Atom κ) (hinfo : outer.info = f.info)
        (hcontent : outer.content.padless = f.content.padless)
        (hparts : outer.parts.map Atom.unplaced = (f.plug a).parts.map Atom.unplaced) :
        (((reflowIn outer frames).down? f.left.length).getD ⟨a, f :: frames⟩).atom.unplaced
            = a.unplaced
          ∧ (((reflowIn outer frames).down? f.left.length).getD ⟨a, f :: frames⟩).frames.map
            Frame.unplaced = (f :: frames).map Frame.unplaced := by
      obtain ⟨hatom, hframes⟩ := ih outer
      have hback := congrArg Atom.parts hatom
      rw [parts_unplaced, parts_unplaced, hparts] at hback
      obtain ⟨left, right, b, -, hdown, hleft, hb, hright⟩ := down?_of_unplaced hback
      have hinfo' := congrArg Atom.info hatom
      have hcontent' := congrArg Atom.content hatom
      rw [info_unplaced, info_unplaced, hinfo] at hinfo'
      rw [content_unplaced, content_unplaced] at hcontent'
      rw [hdown, Option.getD_some]
      refine ⟨hb, ?_⟩
      rw [List.map_cons, List.map_cons, hframes, Frame.unplaced, Frame.unplaced, hinfo', hcontent',
        hcontent, hleft, hright]
    rw [reflowIn]
    cases hc : f.content with
    | group =>
      refine houter _ ?_ ?_ ?_
      · rw [arranged_eq, info_node, Frame.info_plug]
      · rw [arranged_eq, content_node, Frame.content_plug]
      · rw [← parts_unplaced, unplaced_arranged, parts_unplaced]
    | host pad =>
      refine houter _ (info_fixPad _) ?_ (by rw [parts_fixPad])
      rw [Frame.plug, hc]
      rfl
    | overlay backing => exact houter _ rfl rfl rfl
    | empty | raw | pointer | bits => exact ⟨rfl, rfl⟩

end Place

/-! ## Dependent fields, unions and dirt -/

section Surroundings

variable {env : Env κ}

theorem length_followFields {φ : Type} (name : φ → String)
    (follow : Frame κ → φ → Atom κ → LedgerM κ (Outcome κ)) (info : Info κ) (content : Content)
    (left right : List (Atom κ)) (fields : List φ) (l : Ledger κ) :
    Ends (followFields name follow info content left right fields) l fun out _ =>
      out.parts.length = right.length := by
  induction right generalizing left fields l with
  | nil => exact Ends.pure rfl
  | cons a right ih =>
    cases fields with
    | nil => exact Ends.pure rfl
    | cons field fields =>
      rw [followFields]
      refine (Ends.trivial _ l).bind fun out m _ => ?_
      split
      · exact Ends.pure rfl
      · refine (ih (out.atom :: left) fields m).bind fun later n hlater => Ends.pure ?_
        rw [List.length_cons, List.length_cons, hlater]

theorem outline_followDependents (a : Atom κ) (frames : List (Frame κ)) (l : Ledger κ) :
    Ends (followDependents env a frames) l fun out _ =>
      out.frames.map Frame.outline = frames.map Frame.outline := by
  induction frames generalizing a l with
  | nil => exact Ends.pure rfl
  | cons f frames ih =>
    rw [followDependents]
    split
    · exact Ends.pure rfl
    · have hgap : Ends (followGap env frames f a) l fun out _ =>
          out.parts.length = f.right.length := by
        rw [followGap]
        split
        · exact length_followFields ..
        · exact length_followFields ..
        · exact Ends.pure rfl
      refine hgap.bind fun out m hout => ?_
      have hf : Frame.outline { f with right := out.parts } = f.outline := by
        rw [Frame.outline, Frame.outline, hout]
      dsimp only
      split
      · exact Ends.pure (by rw [List.map_cons, List.map_cons, hf])
      · refine (ih _ m).bind fun outer n houter => Ends.pure ?_
        rw [List.map_cons, List.map_cons, hf, houter]

theorem length_reloadMembers (frames : List (Frame κ)) (info : Info κ) (backing : Bytes)
    (kept : Nat) (left as : List (Atom κ)) (l : Ledger κ) :
    Ends (reloadMembers env frames info backing kept left as) l fun out _ =>
      out.parts.length = as.length := by
  induction as generalizing left l with
  | nil => exact Ends.pure rfl
  | cons a as ih =>
    rw [reloadMembers_cons]
    refine (Ends.trivial _ l).bind fun out m _ => ?_
    split
    · exact Ends.pure rfl
    · refine (ih (out.atom :: left) m).bind fun later n hlater => Ends.pure ?_
      rw [List.length_cons, List.length_cons, hlater]

/-- The member at `kept` is not loaded. -/
theorem kept_reloadMembers (frames : List (Frame κ)) (info : Info κ) (backing : Bytes) (kept : Nat)
    (left as : List (Atom κ)) (l : Ledger κ) :
    Ends (reloadMembers env frames info backing kept left as) l fun out _ =>
      ∀ i, left.length + i = kept → out.parts[i]? = as[i]? := by
  induction as generalizing left l with
  | nil => exact Ends.pure fun _ _ => rfl
  | cons a as ih =>
    have hmember : Ends (reloadMember env frames ⟨info, .overlay backing, left, as⟩ backing kept a) l
        fun out _ => left.length = kept → out.atom = a := by
      rw [reloadMember]
      split
      · exact Ends.pure fun _ => rfl
      · rename_i hother
        exact (Ends.trivial _ l).mono fun _ _ _ h => absurd h hother
    rw [reloadMembers_cons]
    refine hmember.bind fun out m hout => ?_
    split
    · refine Ends.pure fun i hi => ?_
      cases i with
      | zero => rw [List.getElem?_cons_zero, hout hi, List.getElem?_cons_zero]
      | succ i => rfl
    · refine (ih (out.atom :: left) m).bind fun later n hlater => Ends.pure fun i hi => ?_
      cases i with
      | zero => rw [List.getElem?_cons_zero, hout hi, List.getElem?_cons_zero]
      | succ i => exact hlater i (by rw [List.length_cons]; omega)

theorem outline_syncUnions (a : Atom κ) (frames : List (Frame κ)) (l : Ledger κ) :
    Ends (syncUnions env a frames) l fun out _ =>
      out.frames.map Frame.outline = frames.map Frame.outline := by
  induction frames generalizing a l with
  | nil => exact Ends.pure rfl
  | cons f frames ih =>
    rw [syncUnions]
    split
    · exact Ends.pure rfl
    · rename_i backing hcontent
      dsimp only
      refine (length_reloadMembers _ _ _ _ _ _ l).bind fun out m hout => ?_
      have hlength : out.parts.length = f.left.length + 1 + f.right.length := by
        rw [hout, Frame.parts_plug, List.length_append, List.length_reverse, List.length_cons]
        omega
      have hf (bytes : Bytes) : Frame.outline ⟨f.info, .overlay bytes,
          (out.parts.take f.left.length).reverse, out.parts.drop (f.left.length + 1)⟩
          = f.outline := by
        rw [Frame.outline, Frame.outline, hcontent, List.length_reverse, List.length_take,
          List.length_drop, hlength, Content.kind, Content.kind, Nat.min_eq_left (by omega),
          Nat.add_sub_cancel_left]
      split
      · exact Ends.pure (by rw [List.map_cons, List.map_cons, hf])
      · refine (ih _ m).bind fun outer n houter => Ends.pure ?_
        rw [List.map_cons, List.map_cons, hf, houter]
    · refine (ih _ l).bind fun outer n houter => Ends.pure ?_
      rw [List.map_cons, List.map_cons, houter]

theorem outline_markDirty (frames : List (Frame κ)) :
    (markDirty frames).map Frame.outline = frames.map Frame.outline := by
  induction frames with
  | nil => rfl
  | cons f frames ih =>
    rw [markDirty]
    split
    · rfl
    · rw [List.map_cons, List.map_cons, ih]
      rfl

end Surroundings

end BinaryLayout
