import BinaryLayout.Proofs.Edit.Rules
import BinaryLayout.Proofs.Handles.Edit
import BinaryLayout.Proofs.Replay.Settle

/-!
# What follows when nothing changed

After an atom was set to the value that it had, its surroundings follow as after any other change. The
layouts of later fields are asked for again, and these fields are loaded from their own bytes; what
stands around the atom is put in order; and the shared bytes of unions are written, and the other
members loaded from them. All of this leads back to where it started, up to handles and flags, when
the surroundings are those of an atom that was loaded.

## Main definitions

* `Atom.Sound`: an atom of a tree that was loaded, as far as its own parts go.

## Main statements

* `retraced_followDependents`, `reflow_self`, `retraced_syncUnions`: what follows.
-/

namespace BinaryLayout

variable {κ : Type}

open Atom

/-- What is known of an atom of a tree that was loaded: its parts fit its layout, stand where they should,
and are made again from their bytes. -/
structure Atom.Sound (env : Env κ) (a : Atom κ) : Prop where
  shaped : a.Shaped
  laid : a.LaidOut
  steady : a.IsSteady env

/-! ## Trees up to handles and flags -/

namespace Atom

section Everywhere

variable {P : Atom κ → Prop}

mutual

/-- What handles and flags do not matter to, in the whole of a tree. -/
theorem Everywhere.of_plain (hP : ∀ {a b : Atom κ}, a.plain = b.plain → P a → P b) :
    ∀ {a b : Atom κ}, a.plain = b.plain → Everywhere P a → Everywhere P b
  | .node _ _ _, .node _ _ _, h, ha => ⟨hP h ha.1, EverywhereIn.of_plain hP (parts_of_plain h) ha.2⟩

theorem EverywhereIn.of_plain (hP : ∀ {a b : Atom κ}, a.plain = b.plain → P a → P b) :
    ∀ {as bs : List (Atom κ)}, as.map plain = bs.map plain → EverywhereIn P as → EverywhereIn P bs
  | [], [], _, _ => trivial
  | _ :: _, _ :: _, h, ha =>
    ⟨Everywhere.of_plain hP (List.cons.inj h).1 ha.1, EverywhereIn.of_plain hP (List.cons.inj h).2 ha.2⟩
  | [], _ :: _, h, _ | _ :: _, [], h, _ => nomatch h

end

end Everywhere

section Lists

variable {as bs : List (Atom κ)} (h : as.map plain = bs.map plain)

include h

theorem map_of_plain {β : Type} {f : Atom κ → β} (hf : ∀ {a b : Atom κ}, a.plain = b.plain → f a = f b) :
    as.map f = bs.map f := by
  induction as generalizing bs with
  | nil =>
    obtain rfl := List.map_eq_nil_iff.1 h.symm
    rfl
  | cons a as ih =>
    obtain ⟨b, bs, rfl, hb, hbs⟩ := List.map_eq_cons_iff.1 h.symm
    rw [List.map_cons, List.map_cons, hf hb, ih hbs.symm]

theorem forall_of_plain {p : Atom κ → Prop} (hp : ∀ {a b : Atom κ}, a.plain = b.plain → p a → p b)
    (has : ∀ a ∈ as, p a) : ∀ b ∈ bs, p b := by
  intro b hb
  obtain ⟨a, ha, hplain⟩ := List.mem_map.1 (h ▸ List.mem_map_of_mem hb : b.plain ∈ as.map plain)
  exact hp hplain (has a ha)

theorem exists_of_plain {i : Nat} {b : Atom κ} (hb : bs[i]? = some b) :
    ∃ a, as[i]? = some a ∧ a.plain = b.plain := by
  have hsame : (as.map plain)[i]? = some b.plain := by rw [h, List.getElem?_map, hb, Option.map_some]
  rwa [List.getElem?_map, Option.map_eq_some_iff] at hsame

theorem names_of_plain : as.map (fun a => a.info.name) = bs.map fun a => a.info.name :=
  map_of_plain h fun hab => name_of_plain hab

end Lists

variable {a b : Atom κ}

theorem Shaped.of_plain (h : a.plain = b.plain) (ha : a.Shaped) : b.Shaped := by
  refine ⟨by rw [← layout_of_plain h, ← content_of_plain h]; exact ha.admits, ?_⟩
  rw [← content_of_plain h, ← isBits_of_plain h]
  exact ha.holds.of_isBits (map_of_plain (parts_of_plain h) fun h => isBits_of_plain h).symm

theorem step_of_plain (inBits : Bool) (h : a.plain = b.plain) : a.step inBits = b.step inBits := by
  rw [step, step, bits_of_plain h, size_of_plain h]

theorem InTurn.of_plain {inBits : Bool} {cursor : Nat} {as bs : List (Atom κ)}
    (h : as.map plain = bs.map plain) (has : InTurn inBits cursor as) : InTurn inBits cursor bs := by
  induction as generalizing cursor bs with
  | nil =>
    obtain rfl := List.map_eq_nil_iff.1 h.symm
    trivial
  | cons a as ih =>
    obtain ⟨b, bs, rfl, hb, hbs⟩ := List.map_eq_cons_iff.1 h.symm
    refine ⟨(offset_of_plain hb).trans has.1, ih hbs.symm ?_⟩
    rw [step_of_plain inBits hb]
    exact has.2

theorem bitCounts_of_plain {as bs : List (Atom κ)} (h : as.map plain = bs.map plain) :
    bitCounts as = bitCounts bs := by
  rw [bitCounts_eq, bitCounts_eq, map_of_plain h fun h => bitCount_of_plain h]

theorem Seats.of_plain {inBits : Bool} {offset : Nat} {as bs : List (Atom κ)} {content : Content}
    (h : as.map plain = bs.map plain) (has : Seats inBits offset as content) :
    Seats inBits offset bs content := by
  have hoffsets {offset : Nat} (hall : ∀ a ∈ as, a.info.offset = offset) : ∀ b ∈ bs, b.info.offset = offset :=
    forall_of_plain h (fun hab ha => (offset_of_plain hab).symm.trans ha) hall
  cases content with
  | empty | raw | bits =>
    have hnil : as = [] := has
    rw [hnil] at h
    exact List.map_eq_nil_iff.1 h.symm
  | group => exact InTurn.of_plain h has
  | overlay backing => exact hoffsets has
  | pointer wire => trivial
  | host pad => exact ⟨hoffsets has.1, bitCounts_of_plain h ▸ has.2⟩

theorem LaidOut.of_plain (h : a.plain = b.plain) (ha : a.LaidOut) : b.LaidOut := by
  refine ⟨?_, fun hbits => ?_, fun wire hwire => ?_⟩
  · rw [← isBits_of_plain h, ← offset_of_plain h, ← content_of_plain h]
    exact ha.seats.of_plain (parts_of_plain h)
  · rw [← tail_of_plain h]
    exact ha.tail ((isBits_of_plain h).trans hbits)
  · rw [← layout_of_plain h]
    exact ha.wire wire ((content_of_plain h).trans hwire)

theorem SteadyBits.of_plain (h : a.plain = b.plain) (ha : a.SteadyBits) : b.SteadyBits := by
  rw [SteadyBits, layout_of_plain h, content_of_plain h] at ha
  rw [SteadyBits]
  split
  · rename_i bits signed hlayout
    rw [hlayout] at ha
    obtain ⟨value, hcontent, hparts, hrest⟩ := ha
    have hnone := parts_of_plain h
    rw [hparts] at hnone
    exact ⟨value, hcontent, List.map_eq_nil_iff.1 hnone.symm, hrest⟩
  · rename_i name fields hlayout
    rw [hlayout] at ha
    rw [← names_of_plain (parts_of_plain h)]
    exact ha
  · rename_i hlayout
    rw [hlayout] at ha
    exact ha
  · rename_i hlayout
    rw [hlayout] at ha
    exact ha

variable {env : Env κ}

theorem RemadeFrom.of_plain {bytes : Bytes} {around : Context κ} (h : a.plain = b.plain)
    (ha : a.RemadeFrom env bytes around) : b.RemadeFrom env bytes around := by
  intro frames blank l hframes hseat
  rw [← offset_of_plain h]
  refine (ha frames blank l hframes (hseat.trans (seat_of_plain h).symm)).mono fun out _ hout => ?_
  exact ⟨hout.complete, hout.plain.trans h⟩

theorem FieldSteady.of_plain {index : Nat} {field : Field κ (Layout κ)}
    {part part' : Atom κ} (h : a.plain = b.plain) (hpart : part.plain = part'.plain)
    (ha : a.FieldSteady env index field part) : b.FieldSteady env index field part' := by
  obtain ⟨hextent, hchoice, hgroup, layout, hlayout, hresolve, hagain⟩ := ha
  have hgroup' : b.content = .group := (content_of_plain h).symm.trans hgroup
  have hagree : Place.AgreeBefore index ⟨a, []⟩ ⟨b, []⟩ := by
    refine ⟨hgroup, hgroup', ?_⟩
    rw [List.map_take, List.map_take, parts_of_plain h]
  refine ⟨hextent, hchoice, hgroup', layout, (layout_of_plain hpart).symm.trans hlayout,
    Env.resolve_of_earlier hchoice hagree hresolve, ?_⟩
  · rw [← serialize_of_plain hpart, ← contextOf_of_plain h]
    exact hagain.of_plain hpart

theorem MemberSteady.of_plain {backing : Bytes} {base : Nat} (h : a.plain = b.plain)
    (ha : a.MemberSteady env backing base) : b.MemberSteady env backing base := by
  refine ⟨(offset_of_plain h).symm.trans ha.offset, fun order => ?_, ha.again.of_plain h⟩
  rw [← serialize_of_plain h]
  exact ha.front order

theorem IsSteady.of_plain (h : a.plain = b.plain) (ha : a.IsSteady env) :
    b.IsSteady env := by
  have hparts := parts_of_plain h
  have hbits : a.SteadyBits → b.SteadyBits := SteadyBits.of_plain h
  rw [IsSteady, layout_of_plain h] at ha
  rw [IsSteady]
  generalize b.info.layout = layout at ha ⊢
  cases layout with
  | bits layout => exact hbits ha
  | bytes layout =>
    cases layout with
    | record name fields =>
      obtain ⟨hnames, hnodup, hfields⟩ := ha
      refine ⟨(names_of_plain hparts).symm.trans hnames, hnodup, fun i field part' hfield hpart' => ?_⟩
      obtain ⟨part, hpart, hplain⟩ := exists_of_plain hparts hpart'
      exact (hfields i field part hfield hpart).of_plain h hplain
    | union name members size =>
      obtain ⟨hnodup, hmembers⟩ := ha
      refine ⟨names_of_plain hparts ▸ hnodup, fun backing hcontent => ?_⟩
      rw [← offset_of_plain h]
      exact forall_of_plain hparts (fun hab => MemberSteady.of_plain hab)
        (hmembers backing ((content_of_plain h).trans hcontent))
    | array element shape => trivial
    | bits root order =>
      intro pad hpad
      rw [← bitCounts_of_plain hparts]
      exact ha pad ((content_of_plain h).trans hpad)
    | int | float | fixed | varint | text | block | constant | padding | align | pointer =>
      obtain ⟨raw, hcontent, hnone, hholds⟩ := ha
      rw [hnone] at hparts
      exact ⟨raw, (content_of_plain h).symm.trans hcontent, List.map_eq_nil_iff.1 hparts.symm, hholds⟩

theorem Sound.of_plain (h : a.plain = b.plain) (ha : a.Sound env) :
    b.Sound env :=
  ⟨ha.shaped.of_plain h, ha.laid.of_plain h, ha.steady.of_plain h⟩

end Atom

/-- A sound tree, seen from a place in it. -/
def SoundAround (env : Env κ) (a : Atom κ) (frames : List (Frame κ)) : Prop :=
  Everywhere (Sound env) (Place.assemble a frames)

namespace SoundAround

variable {env : Env κ} {a b : Atom κ} {f : Frame κ} {frames frames' : List (Frame κ)}

theorem of_plain (h : SoundAround env a frames) (hatom : a.plain = b.plain)
    (hframes : frames.map Frame.plain = frames'.map Frame.plain) : SoundAround env b frames' := by
  refine Everywhere.of_plain (fun hab => Sound.of_plain hab) ?_ h
  rw [Place.assemble_plain, Place.assemble_plain, hatom, hframes]

theorem outer (h : SoundAround env a (f :: frames)) : SoundAround env (f.plug a) frames := h

theorem here (h : SoundAround env a (f :: frames)) : (f.plug a).Sound env :=
  (Everywhere.of_assemble_cons h).here

theorem atom (h : SoundAround env a frames) : Everywhere (Sound env) a := Everywhere.of_assemble h

end SoundAround

variable {env : Env κ}

/-! ## Dependent fields -/

/-- The parts of a frame around an atom, by their index. -/
theorem Frame.part_plug (f : Frame κ) (a : Atom κ) : (f.plug a).parts[f.left.length]? = some a := by
  rw [parts_plug, List.getElem?_append_right (Nat.le_of_eq List.length_reverse), List.length_reverse,
    Nat.sub_self, List.getElem?_cons_zero]

/-- A later field of a sound record is laid out as it was. -/
theorem retraced_followField {f : Frame κ} {a : Atom κ}
    (frames : List (Frame κ)) (h : Everywhere (Sound env) (f.plug a)) {name : String}
    {fields : List (Field κ (Layout κ))} (hlayout : f.info.layout = .bytes (.record name fields))
    {field : Field κ (Layout κ)} (hfield : fields[f.left.length]? = some field) (l : Ledger κ) :
    Ends (followField env frames f field a) l fun out _ => out.error? = none ∧ out.atom.plain = a.plain := by
  have hsteady := h.here.steady
  rw [IsSteady, Frame.info_plug, hlayout] at hsteady
  obtain ⟨-, -, hfields⟩ := hsteady
  obtain ⟨hextent, hearlier, hgroup, layout, hown, hresolve, hagain⟩ := hfields _ field a hfield (f.part_plug a)
  have hrecord : f.info.layout.isRecord = true := by rw [hlayout]; rfl
  have hagree : Place.AgreeBefore f.left.length ⟨f.plug a, []⟩ ⟨f.plug a, frames⟩ := ⟨hgroup, hgroup, rfl⟩
  have hsame : env.resolve ⟨f.plug a, frames⟩ f.left.length field.layout = .ok layout :=
    Env.resolve_of_earlier hearlier hagree hresolve
  have hatom : Everywhere (Sound env) a := (everywhere_plug.1 h).2.2.1
  have hbytes : Place.serialize ⟨a, f :: frames⟩ env.config.bitOrder = serialize env.config.bitOrder a := by
    refine serialize_eq _ _ (hatom.mono fun _ h => h.shaped) ?_
    rw [isBits, hown]
    rfl
  rw [followField_eq]
  refine Ends.via (fun out _ => out.error? = none ∧ out.atom.plain = a.plain) ?_ fun out m hout => ?_
  · rw [followLayout]
    cases hchoice : field.layout with
    | given layout => exact Ends.pure ⟨rfl, rfl⟩
    | computed rule =>
      rw [hchoice] at hsame
      dsimp only
      rw [hsame]
      dsimp only
      rw [rebuild, hbytes]
      have hseat : (a.mapInfo fun info => { info with layout := .bytes layout }).info.seat = a.info.seat := by
        rw [info_mapInfo, ← hown]
      have hoffset := Info.offset_of_seat hseat
      refine Ends.via (fun out _ => out.Remakes a) ?_ fun out m hout => ?_
      · rw [hoffset]
        exact hagain (f :: frames) _ l (Frame.context_of_isRecord hrecord a frames) hseat
      · obtain ⟨hcomplete, hplain⟩ := hout
        rw [hcomplete]
        exact Ends.pure ⟨hcomplete, hplain⟩
  · obtain ⟨hcomplete, hplain⟩ := hout
    rw [followExtent, hcomplete, hextent]
    exact Ends.pure ⟨hcomplete, hplain⟩

/-- Parts that are laid out one after another, when each of them is laid out as it was. -/
theorem retraced_followFields {φ : Type} {name : φ → String}
    {follow : Frame κ → φ → Atom κ → LedgerM κ (Outcome κ)} {info : Info κ} {content : Content}
    {whole : List (Atom κ)} {fields : List φ}
    (hfollow : ∀ (f : Frame κ) (field : φ) (a : Atom κ) (l : Ledger κ), f.info = info → f.content = content →
      (f.plug a).parts.map plain = whole.map plain → fields[f.left.length]? = some field →
        Ends (follow f field a) l fun out _ => out.error? = none ∧ out.atom.plain = a.plain)
    {left right : List (Atom κ)} (hwhole : (left.reverse ++ right).map plain = whole.map plain) (l : Ledger κ) :
    Ends (followFields name follow info content left right (fields.drop left.length)) l fun out _ =>
      out.error? = none ∧ out.parts.map plain = right.map plain := by
  induction right generalizing left l with
  | nil =>
    rw [followFields.eq_def]
    exact Ends.pure ⟨rfl, rfl⟩
  | cons a right ih =>
    cases hdrop : fields.drop left.length with
    | nil => exact Ends.pure ⟨rfl, rfl⟩
    | cons field rest =>
      have hfield : fields[left.length]? = some field := by
        rw [← List.head?_drop, hdrop, List.head?_cons]
      have hrest : rest = fields.drop (left.length + 1) := by
        rw [← List.tail_drop, hdrop, List.tail_cons]
      rw [followFields]
      refine (hfollow ⟨info, content, left, right⟩ field a l rfl rfl ?_ hfield).bind fun out m hout => ?_
      · rw [Frame.parts_plug]
        exact hwhole
      obtain ⟨hcomplete, hplain⟩ := hout
      rw [hcomplete, hrest]
      have hnext : ((out.atom :: left).reverse ++ right).map plain = whole.map plain := by
        rw [← hwhole]
        simp [hplain]
      refine (ih hnext m).bind fun later n hlater => Ends.pure ⟨hlater.1, ?_⟩
      rw [List.map_cons, List.map_cons, hplain, hlater.2]

/-- The later fields of a sound record are laid out as they were. -/
theorem retraced_followGap {f : Frame κ} {a : Atom κ}
    (frames : List (Frame κ)) (h : Everywhere (Sound env) (f.plug a)) (l : Ledger κ) :
    Ends (followGap env frames f a) l fun out _ =>
      out.error? = none ∧ out.parts.map plain = f.right.map plain := by
  have hparts : ((a :: f.left).reverse ++ f.right).map plain = (f.plug a).parts.map plain := by
    rw [Frame.parts_plug, List.reverse_cons, List.append_assoc]
    rfl
  rw [followGap.eq_def]
  split
  · rename_i name fields hcontent hlayout
    refine retraced_followFields (fun g field b m hinfo hgroup hsame hfield => ?_)
      hparts l
    -- The record around the field is the same, up to fields that were laid out before.
    have hg : (f.plug a).plain = (g.plug b).plain := by
      refine plain_ext (congrArg Info.plain hinfo.symm) ?_ hsame.symm
      rw [Frame.content_plug, Frame.content_plug, hcontent, hgroup]
    refine retraced_followField frames ?_ (hinfo ▸ hlayout) hfield m
    exact Everywhere.of_plain (fun hab => Sound.of_plain hab) hg h
  · rename_i name fields hcontent hlayout
    refine retraced_followFields (fun g field b m _ _ _ hfield => ?_) hparts l
    have hsteady := h.here.steady
    rw [IsSteady, Frame.info_plug, hlayout] at hsteady
    rw [SteadyBits, Frame.info_plug, hlayout] at hsteady
    obtain ⟨-, -, -, hgiven⟩ := hsteady
    obtain ⟨layout, hlayout⟩ := hgiven field (List.mem_of_getElem? hfield)
    rw [followBitField, hlayout]
    exact Ends.pure ⟨rfl, rfl⟩
  · exact Ends.pure ⟨rfl, rfl⟩

/-- The dependent fields around an atom are laid out as they were. -/
theorem retraced_followDependents {a : Atom κ} {frames : List (Frame κ)}
    (h : SoundAround env a frames) (l : Ledger κ) :
    Ends (followDependents env a frames) l fun out _ =>
      out.error? = none ∧ out.frames.map Frame.plain = frames.map Frame.plain := by
  induction frames generalizing a l with
  | nil => exact Ends.pure ⟨rfl, rfl⟩
  | cons f frames ih =>
    rw [followDependents]
    split
    · exact Ends.pure ⟨rfl, rfl⟩
    · refine (retraced_followGap frames (Everywhere.of_assemble_cons h) l).bind fun siblings m hout => ?_
      obtain ⟨hcomplete, hparts⟩ := hout
      have hframe : Frame.plain { f with right := siblings.parts } = f.plain := by
        rw [Frame.plain, Frame.plain, hparts]
      dsimp only
      rw [hcomplete]
      refine (ih (h.outer.of_plain (Frame.plug_of_plain hframe.symm rfl) rfl) m).bind
        fun outer n houter => Ends.pure ⟨houter.1, ?_⟩
      rw [List.map_cons, List.map_cons, hframe, houter.2]

/-! ## Offsets -/

/-- Parts that stand where they should are not moved. -/
theorem Atom.arranged_self {a : Atom κ} (ha : a.LaidOut) : a.arranged = a := by
  have hseats := ha.seats
  rw [arranged_eq]
  obtain ⟨info, content, parts⟩ := a
  cases content with
  | empty | raw | pointer | bits => rfl
  | group => exact congrArg (Atom.node info _) (moveInTurn_self hseats)
  | overlay backing => exact congrArg (Atom.node info _) (moveAll_self hseats)
  | host pad => exact congrArg (Atom.node info _) (moveAll_self hseats.1)

/-- Unused bits that fill the last byte are kept. -/
theorem Atom.fixPad_self {a : Atom κ} (ha : a.Sound env) : a.fixPad = a := by
  obtain ⟨info, content, parts⟩ := a
  cases content with
  | host pad =>
    obtain ⟨root, order, hlayout⟩ := ha.shaped.layout_of_host rfl
    have hsteady := ha.steady
    rw [IsSteady, hlayout] at hsteady
    have hfills : pad.Fills (bitCounts parts) := hsteady pad rfl
    rw [Bitmap.Fills] at hfills
    rw [fixPad, if_pos hfills]
  | empty | raw | group | overlay | pointer | bits => rfl

/-- What stands around an atom is in order already. -/
theorem Place.reflow_self {a : Atom κ} {frames : List (Frame κ)} (h : SoundAround env a frames) :
    reflowIn a frames = ⟨a, frames⟩ := by
  induction frames generalizing a with
  | nil => rfl
  | cons f frames ih =>
    have hdown : (⟨f.plug a, frames⟩ : Place κ).down? f.left.length = some ⟨a, f :: frames⟩ := by
      have hback := down?_of_parts (p := ⟨f.plug a, frames⟩) (f.parts_plug a)
      rwa [List.length_reverse, List.reverse_reverse] at hback
    have hback : ((reflowIn (f.plug a) frames).down? f.left.length).getD ⟨a, f :: frames⟩ =
        ⟨a, f :: frames⟩ := by
      rw [ih h.outer, hdown, Option.getD_some]
    rw [reflowIn]
    cases f.content with
    | group =>
      dsimp only
      rw [arranged_self h.here.laid]
      exact hback
    | host pad =>
      dsimp only
      rw [fixPad_self h.here]
      exact hback
    | overlay backing => exact hback
    | empty | raw | pointer | bits => rfl

/-! ## Unions -/

/-- Bytes that are written over themselves. -/
theorem overwrite_self {bytes backing : Bytes} (h : bytes <+: backing) : overwrite bytes backing = backing := by
  obtain ⟨rest, rfl⟩ := h
  rw [overwrite, List.take_of_length_le (by rw [List.length_append]; omega), List.drop_left' rfl]

/-- Members that are loaded from the bytes that they share are what they were. -/
theorem retraced_reloadMembers {info : Info κ} {backing : Bytes} (hunion : info.layout.isRecord = false)
    (frames : List (Frame κ)) (kept : Nat) {left right : List (Atom κ)}
    (hmembers : ∀ member ∈ right, member.MemberSteady env backing info.offset)
    (l : Ledger κ) :
    Ends (reloadMembers env frames info backing kept left right) l fun out _ =>
      out.error? = none ∧ out.parts.map plain = right.map plain := by
  induction right generalizing left l with
  | nil => exact Ends.pure ⟨rfl, rfl⟩
  | cons a right ih =>
    rw [List.forall_mem_cons] at hmembers
    rw [reloadMembers_cons]
    have hmember : Ends (reloadMember env frames ⟨info, .overlay backing, left, right⟩ backing kept a) l
        fun out _ => out.error? = none ∧ out.atom.plain = a.plain := by
      rw [reloadMember]
      split
      · exact Ends.pure ⟨rfl, rfl⟩
      · have hagain := hmembers.1.again (⟨info, .overlay backing, left, right⟩ :: frames) a l
          (Frame.context_of_not_isRecord hunion frames) rfl
        rw [hmembers.1.offset] at hagain
        exact hagain.mono fun _ _ hout => ⟨hout.complete, hout.plain⟩
    refine hmember.bind fun out m hout => ?_
    obtain ⟨hcomplete, hplain⟩ := hout
    rw [hcomplete]
    refine (ih hmembers.2 m).bind fun later n hlater => Ends.pure ⟨hlater.1, ?_⟩
    rw [List.map_cons, List.map_cons, hplain, hlater.2]

/-- The unions around an atom keep their bytes and their members. -/
theorem retraced_syncUnions {a : Atom κ} {frames : List (Frame κ)}
    (h : SoundAround env a frames) (l : Ledger κ) :
    Ends (syncUnions env a frames) l fun out _ =>
      out.error? = none ∧ out.frames.map Frame.plain = frames.map Frame.plain := by
  induction frames generalizing a l with
  | nil => exact Ends.pure ⟨rfl, rfl⟩
  | cons f frames ih =>
    have houter {g : Frame κ} (hg : g.plain = f.plain) (m : Ledger κ) :
        Ends (do
          let outer ← syncUnions env (g.plug a) frames
          return (⟨g :: outer.frames, outer.error?⟩ : Surroundings κ)) m fun out _ =>
            out.error? = none ∧ out.frames.map Frame.plain = (f :: frames).map Frame.plain := by
      refine (ih (h.outer.of_plain (Frame.plug_of_plain hg.symm rfl) rfl) m).bind fun outer n hn =>
        Ends.pure ⟨hn.1, ?_⟩
      rw [List.map_cons, List.map_cons, hg, hn.2]
    rw [syncUnions]
    cases hcontent : f.content with
    | pointer wire => exact Ends.pure ⟨rfl, rfl⟩
    | empty | raw | group | host | bits => exact houter rfl l
    | overlay backing =>
      obtain ⟨name, members, size, hlayout⟩ := h.here.shaped.layout_of_overlay hcontent
      have hsteady := h.here.steady
      rw [IsSteady, hlayout] at hsteady
      have hmembers : ∀ member ∈ (f.plug a).parts, member.MemberSteady env backing f.info.offset :=
        hsteady.2 backing hcontent
      have hown : a ∈ (f.plug a).parts := List.mem_of_getElem? (f.part_plug a)
      dsimp only
      rw [Place.serialize, overwrite_self ((hmembers a hown).front _)]
      have hunion : f.info.layout.isRecord = false := by
        rw [← Frame.info_plug f a, hlayout]
        rfl
      refine (retraced_reloadMembers hunion frames f.left.length hmembers l).bind fun siblings m hout => ?_
      obtain ⟨hcomplete, hparts⟩ := hout
      rw [hcomplete]
      refine houter ?_ m
      rw [Frame.parts_plug, List.map_append, List.map_cons] at hparts
      have hlength : (f.left.reverse.map plain).length = f.left.length := by
        rw [List.length_map, List.length_reverse]
      have hleft : (siblings.parts.take f.left.length).reverse.map plain = f.left.map plain := by
        rw [List.map_reverse, List.map_take, hparts, List.take_left' hlength, List.map_reverse,
          List.reverse_reverse]
      have hright : (siblings.parts.drop (f.left.length + 1)).map plain = f.right.map plain := by
        rw [List.map_drop, hparts, ← List.drop_drop, List.drop_left' hlength, List.drop_one, List.tail_cons]
      rw [Frame.plain, Frame.plain, hleft, hright, hcontent]

/-- Marks of a change do not matter. -/
theorem plain_markDirty (frames : List (Frame κ)) :
    (markDirty frames).map Frame.plain = frames.map Frame.plain := by
  induction frames with
  | nil => rfl
  | cons f frames ih =>
    rw [markDirty]
    split
    · rfl
    · rw [List.map_cons, List.map_cons, ih]
      rfl

end BinaryLayout
