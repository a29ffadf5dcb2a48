import BinaryLayout.Proofs.Replay.Steady

/-!
# Everything that was loaded can be loaded again

Block arrays, records, unions and hosts of bits are made again from their bytes, because their parts are.
A block array that dropped an element drops it again, since what it leaves over is too short or does not
load; a record asks its rules again, which see the same fields; the members of a union are loaded from the
same shared bytes; and the bits of a host are those of its bytes. An induction on the depth of layouts
puts the kinds together.

## Main definitions

* `BlockOutcome.Settled`, `Outcome.MemberSettled`: what is known of block arrays and of union members.

## Main statements

* `settled_loadBlock`, `settled_loadFields`, `settled_loadUnion`, `settled_loadHost`: atoms with parts.
* `settles_load`: an atom of bytes.
-/

namespace BinaryLayout

variable {κ α : Type}

open Atom

section Load

variable {env : Env κ} {depth : Nat}

/-! ## Atoms with parts one after another -/

theorem Atom.serialize_of_group (order : ByteOrder) {a : Atom κ} (hbits : a.isBits = false)
    (hcontent : a.content = .group) : serialize order a = serializeAll order a.parts ++ a.info.tail := by
  rw [serialize_of_bytes order hbits, contentBytes, hcontent]

/-- An atom whose parts were made, and are made again from their bytes. -/
theorem Outcome.settled_of_parts {around : Context κ} {a : Atom κ} {parts : List (Atom κ)} {out : Outcome κ}
    {again : Nat → LoadPart (LoadM κ) κ} (hbits : a.isBits = false) (hcontent : a.content = .group)
    (hnil : a.parts = []) (htail : a.info.tail = []) (hatom : out.atom = (a.frame.filled parts).ready)
    (htop : IsSteady env (a.frame.filled parts).ready) (hparts : EverywhereIn (IsSettled env) parts)
    (hagain : ∀ depth' ≥ depth, ∀ {frames : List (Frame κ)} {a' : Atom κ} {w : LoadState κ},
      Frame.context frames = around → a'.plain = a.plain → w.view.Gives a.info.offset (serializeAll env.config.bitOrder parts) →
        Ends (again depth' frames a') w fun out' _ => out'.Remakes (a.frame.filled parts)) :
    out.Settled env depth around a again := by
  obtain ⟨info, content, _⟩ := a
  cases hnil
  cases hcontent
  have hready : (frame (.node info .group [])).filled parts = .node info .group parts := rfl
  rw [hready] at hatom htop hagain
  constructor
  · rw [hatom]
    exact htop
  · rw [hatom]
    exact hparts
  · intro depth' hdepth frames a' w hframes hplain hw
    rw [hatom, serialize_of_group _ (by exact hbits) rfl] at hw
    refine (hagain depth' hdepth hframes hplain ?_).mono fun out' _ hout' => ⟨hout'.complete, ?_⟩
    · have hgives : w.view.Gives info.offset (serializeAll env.config.bitOrder parts ++ info.tail) := hw
      exact hgives.front
    · rw [hatom, plain_ready]
      exact hout'.plain

/-! ## Block arrays -/

/-- The elements of a block array are steady, and the same elements are made again and dropped again from a
view that gives their bytes and those that they left. -/
def BlockOutcome.Settled (env : Env κ) (depth : Nat) (element : Layout κ) (limit fuel : Nat) (f : Frame κ)
    (index cursor : Nat) (v : View) (out : BlockOutcome κ) : Prop :=
  ∃ parts, out.atom = f.filled parts ∧ EverywhereIn (IsSettled env) parts
    ∧ out.cursor = cursor + (serializeAll env.config.bitOrder parts).length
    ∧ ∀ tail, v.Reads out.cursor (limit - out.cursor) tail → tail.length = limit - out.cursor →
      ∀ depth' ≥ depth, ∀ (frames : List (Frame κ)) {f' : Frame κ} {w : LoadState κ},
        f'.plain = f.plain → w.view.Gives cursor (serializeAll env.config.bitOrder parts ++ tail) →
          Ends (loadBlockElements (load env depth') element limit frames fuel f' index cursor) w
            fun out' _ => out'.error? = none ∧ out'.cursor = out.cursor
              ∧ out'.atom.plain = (f.filled parts).plain

theorem settled_loadBlockElements (hpart : LoadSettles env depth)
    {element : Layout κ} (helement : element.Settable env.rules) (limit : Nat) (frames : List (Frame κ))
    (fuel : Nat) {f : Frame κ} (hright : f.right = []) (index cursor : Nat) {s : LoadState κ}
    (hs : s.view.Coherent) :
    Ends (loadBlockElements (load env depth) element limit frames fuel f index cursor) s fun out t =>
      t.ledger.unterminated = s.ledger.unterminated → out.error? = none →
        out.Settled env depth element limit fuel f index cursor s.view := by
  have hdone (f : Frame κ) (hright : f.right = []) (cursor : Nat) {f' : Frame κ} (hf : f'.plain = f.plain) :
      f'.close.plain = (f.filled []).plain := by
    rw [Frame.close_of_plain hf, Frame.close_eq_filled hright]
  induction fuel generalizing f index cursor s with
  | zero =>
    refine Ends.pure fun _ _ => ⟨[], Frame.close_eq_filled hright, trivial, rfl, ?_⟩
    exact fun tail _ _ depth' _ frames' f' w hf _ => Ends.pure ⟨rfl, rfl, hdone f hright cursor hf⟩
  | succ fuel ih =>
    rw [loadBlockElements]
    split
    · rename_i hfull
      refine Ends.pure fun _ _ => ⟨[], Frame.close_eq_filled hright, trivial, rfl, ?_⟩
      intro tail _ _ depth' _ frames' f' w hf _
      rw [loadBlockElements, if_pos hfull]
      exact Ends.pure ⟨rfl, rfl, hdone f hright cursor hf⟩
    · rename_i hroom
      split
      · rename_i hnext
        refine Ends.pure fun _ _ => ⟨[], Frame.close_eq_filled hright, trivial, rfl, ?_⟩
        intro tail _ _ depth' _ frames' f' w hf _
        rw [loadBlockElements, if_neg hroom, hnext]
        exact Ends.pure ⟨rfl, rfl, hdone f hright cursor hf⟩
      · rename_i layout hnext
        refine hpart.bindInside (helement.nextInBlock hnext) hs fun out t ht hinside hdrops => ?_
        obtain ⟨a, _ | e⟩ := out
        · have hsize : a.size ≤ limit - cursor := by
            have := hinside rfl
            dsimp only at this
            omega
          have hlength (hlaid : Everywhere LaidOut a) :
              cursor + (serialize env.config.bitOrder a).length ≤ limit := by
            rw [length_serialize _ a hlaid]
            omega
          dsimp only
          split
          · -- An element without bytes is the last one.
            rename_i hzero
            refine Ends.pure fun hquiet _ => ?_
            obtain ⟨hsteady, hagain⟩ := ht.settled hquiet rfl
            have hfilled : (f.push a).close = f.filled [a] := by
              rw [Frame.close_eq_filled (f := f.push a) hright, Frame.filled_push]
            refine ⟨[a], hfilled, ⟨hsteady, trivial⟩, ?_, fun tail _ _ depth' hdepth frames' f' w hf hw => ?_⟩
            · rw [serializeAll, serializeAll, List.append_nil, length_serialize _ a (ht.laid rfl), hzero]
              rfl
            rw [loadBlockElements, if_neg hroom, hnext]
            rw [serializeAll, serializeAll, List.append_nil] at hw
            refine (hagain depth' hdepth).bindInside (Frame.context_cons_of_plain hf _ _) (ht.seat rfl) hw.front
              (hlength (ht.laid rfl)) fun b x hb _ => ?_
            dsimp only
            rw [size_of_plain hb, if_pos hzero]
            refine Ends.pure ⟨rfl, rfl, ?_⟩
            rw [← hfilled, Frame.close_of_plain (Frame.push_of_plain hf hb)]
          · rename_i hsome
            split
            · exact Ends.pure fun _ h => by cases h
            · rename_i next hspan
              obtain ⟨rfl, -⟩ := spanEnd_eq hspan
              refine Ends.quietly (harmless_loadBlockElements (harmless_load env depth) _ _ _ _ _ _ _)
                ht.after.warnings fun hquiet => (ih (f := f.push a) hright (index + 1) (cursor + a.size)
                  (ht.after.coherent hs)).mono fun out u hu hrest hok => ?_
              obtain ⟨hsteady, hagain⟩ := ht.settled hquiet rfl
              obtain ⟨parts, hatom, hparts, hstop, hmore⟩ := hu hrest hok
              rw [Frame.filled_push] at hatom
              refine ⟨a :: parts, hatom, ⟨hsteady, hparts⟩, ?_, ?_⟩
              · rw [serializeAll, List.length_append, length_serialize _ a (ht.laid rfl), hstop, Nat.add_assoc]
              intro tail htail hlong depth' hdepth frames' f' w hf hw
              rw [loadBlockElements, if_neg hroom, hnext]
              rw [serializeAll, List.append_assoc] at hw
              have hrest := hw.rest
              rw [length_serialize _ a (ht.laid rfl)] at hrest
              refine (hagain depth' hdepth).bindInside (Frame.context_cons_of_plain hf _ _) (ht.seat rfl) hw.front
                (hlength (ht.laid rfl)) fun b x hb hx => ?_
              have hfinal := hmore tail (htail.of_rewound ht.after.contents) hlong depth' hdepth frames'
                (Frame.push_of_plain hf hb) (hrest.of_rewound hx)
              rw [Frame.filled_push] at hfinal
              dsimp only
              rw [size_of_plain hb, if_neg hsome, hspan]
              exact hfinal
        · dsimp only
          split
          · -- The element is dropped, and its bytes become the tail.
            rename_i hshort
            refine Ends.via (fun _ _ => True) trivial fun _ u _ => Ends.pure fun _ _ =>
              ⟨[], Frame.close_eq_filled hright, trivial, rfl, ?_⟩
            intro tail htail hlong depth' hdepth frames' f' w hf hw
            rw [loadBlockElements, if_neg hroom, hnext]
            dsimp only at htail hlong
            have hechoes : (s.view.window limit 0).Echoes cursor (w.view.window limit 0) :=
              hs.echoes (by omega) htail (by omega) hlong hw 0 0
            refine hdrops.bind hshort.1 hdepth (Frame.context_cons_of_plain hf _ _) hechoes
              fun b e' x he' => ?_
            dsimp only
            rw [if_pos ⟨he', hshort.2⟩]
            exact Ends.via (fun _ _ => True) trivial fun _ _ _ =>
              Ends.pure ⟨rfl, rfl, hdone f hright cursor hf⟩
          · exact Ends.pure fun _ h => by cases h

/-- The end of a block array: the bytes that its elements left become its tail. -/
theorem ends_blockTail (frames : List (Frame κ)) (limit cursor : Nat) (b : Atom κ) (t : LoadState κ) :
    Ends (do
      if limit ≤ cursor then return ⟨b.ready, none⟩
      match ← LoadM.readAt cursor (limit - cursor) with
      | .error e => return ⟨b, some e⟩
      | .ok tail =>
        let a := b.withTail tail
        LoadM.ofLedger (LedgerM.warn (.leftover (Place.path ⟨a, frames⟩) tail.length))
        return ⟨a.ready, none⟩ : LoadM κ (Outcome κ)) t fun out u => Aftermath t.record u.record
      ∧ (b.info.tail = [] → ∀ tail, t.view.Reads cursor (limit - cursor) tail →
          out = ⟨(b.withTail tail).ready, none⟩)
      ∧ (out.error? = none →
          ∃ tail, t.view.Reads cursor (limit - cursor) tail ∧ tail.length = limit - cursor) := by
  split
  · rename_i hfull
    have hzero : limit - cursor = 0 := by omega
    rw [hzero]
    refine Ends.pure ⟨.refl _, fun hnone tail hread => ?_, fun _ => ⟨[], ?_, rfl⟩⟩
    · obtain ⟨info, content, parts⟩ := b
      have hsame : info.tail = [] := hnone
      rw [View.Reads, if_pos rfl] at hread
      rw [hread, withTail, mapInfo, ← hsame]
    · rw [View.Reads, if_pos rfl]
  · refine ((LoadM.ends_readAt cursor (limit - cursor) t).and ((LoadM.length_readAt cursor (limit - cursor) t).and
      (LoadM.harmless_readAt cursor (limit - cursor) t))).bind fun result u hu => ?_
    obtain ⟨⟨-, hread⟩, hlength, hafter⟩ := hu
    cases result with
    | error e =>
      exact Ends.pure ⟨hafter, (fun _ tail htail => by cases (hread tail).2 htail), fun h => by cases h⟩
    | ok raw =>
      refine (LoadM.harmless_ofLedger (LedgerM.harmless_warn _) u).bind fun _ v hv => Ends.pure
        ⟨hafter.trans hv, fun _ tail htail => ?_, fun _ => ⟨raw, (hread raw).1 rfl, hlength raw rfl⟩⟩
      cases (hread tail).2 htail
      rfl

theorem settled_loadBlock (hpart : LoadSettles env depth) {element : Layout κ}
    (helement : element.Settable env.rules) (extent : Nat) (frames : List (Frame κ)) {a : Atom κ}
    (hlayout : a.info.layout = .bytes (.array element (.block extent))) (hcontent : a.content = .group)
    (hnil : a.parts = []) (htail : a.info.tail = []) {s : LoadState κ} (hs : s.view.Coherent)
    {around : Context κ} :
    Ends (loadBlock (load env depth) element extent frames a) s fun out t =>
      t.ledger.unterminated = s.ledger.unterminated → out.error? = none →
        out.Settled env depth around a fun depth' => loadBlock (load env depth') element extent := by
  obtain ⟨info, content, _⟩ := a
  cases hnil
  cases hcontent
  have hlayout : info.layout = .bytes (.array element (.block extent)) := hlayout
  have htail : info.tail = [] := htail
  have hbits : info.layout.isBits = false := by rw [hlayout]; rfl
  rw [loadBlock]
  split
  · exact Ends.pure fun _ h => by cases h
  · rename_i limit hspan
    refine ((settled_loadBlockElements hpart helement limit frames extent (f := _) rfl 0 _ hs).and
      (harmless_loadBlockElements (harmless_load env depth) _ _ _ _ _ _ _ s)).bind fun out t ht => ?_
    obtain ⟨hout, hafter⟩ := ht
    obtain ⟨b, cursor, _ | e⟩ := out
    · refine (ends_blockTail frames limit cursor b t).mono fun out u hu hquiet hok => ?_
      obtain ⟨hlater, hmade, hread⟩ := hu
      have hquiet : t.ledger.unterminated = s.ledger.unterminated :=
        Nat.le_antisymm (hquiet ▸ Aftermath.unterminated hlater.warnings)
        (Aftermath.unterminated hafter.warnings)
      obtain ⟨parts, rfl, hparts, rfl, hagain⟩ := hout hquiet rfl
      obtain ⟨tail, hreads, hlength⟩ := hread hok
      obtain rfl := hmade htail tail hreads
      constructor
      · show IsSteady env (.node { info with tail, initialized := true } .group parts)
        rw [IsSteady, info_node, hlayout]
        trivial
      · exact hparts
      · intro depth' hdepth frames' a' w _ hplain hw
        have hgives : w.view.Gives info.offset (serializeAll env.config.bitOrder parts ++ tail) := by
          have hbytes : serialize env.config.bitOrder ((Atom.node info .group parts).withTail tail).ready =
              serializeAll env.config.bitOrder parts ++ tail := serialize_of_group _ hbits rfl
          rw [← hbytes]
          exact hw
        have hframe : a'.frame.plain = (frame (.node info .group [])).plain := by
          rw [Frame.plain_frame, Frame.plain_frame, hplain]
        have hoffset : a'.info.offset = info.offset := offset_of_plain hplain
        rw [loadBlock, hoffset, show spanEnd info.offset extent = _ from hspan]
        refine ((hagain tail (hreads.of_rewound hafter.contents.symm) hlength depth' hdepth frames' hframe
          hgives).kept (harmless_loadBlockElements (harmless_load env depth') _ _ _ _ _ _ _)).bind
            fun out' x hx => ?_
        obtain ⟨b', cursor', error?⟩ := out'
        obtain ⟨⟨hnone, rfl, hb⟩, hkept⟩ := hx
        cases hnone
        refine (ends_blockTail frames' limit _ b' x).mono fun out' y hy => ?_
        have hrest := (hgives.of_rewound hkept).rest.reads
        rw [hlength] at hrest
        obtain rfl := hy.2.1 ((tail_of_plain hb).trans htail) tail hrest
        refine ⟨rfl, ?_⟩
        rw [plain_ready, plain_ready, plain_withTail tail hb]
    · exact Ends.pure fun _ h => by cases h

/-! ## Records -/

/-- What is made again from a view of its bytes is made again from these bytes. -/
theorem Atom.RemadeBy.remadeFrom {around : Context κ} {a : Atom κ}
    (h : a.RemadeBy env.config.bitOrder (load env Layout.nestingLimit) around) (hlaid : Everywhere LaidOut a)
    (hend : a.info.offset + a.size < pow2 64) :
    a.RemadeFrom env (serialize env.config.bitOrder a) around := by
  intro frames blank l hframes hseat
  rw [← length_serialize env.config.bitOrder a hlaid] at hend
  exact h frames blank ⟨l, [], .ofBytes (serialize env.config.bitOrder a) a.info.offset⟩ hframes hseat
    (View.gives_ofBytes hend [])

/-- What stands around the next field of a record that is filled later. -/
theorem Frame.context_filled {f : Frame κ} (h : f.info.layout.isRecord = true) (parts : List (Atom κ))
    (frames : List (Frame κ)) : context (f :: frames) = (f.filled parts).ready.contextOf f.left.length := by
  rw [contextOf_of_plain (plain_ready _), context, h, contextOf, filled, info_node, parts_node,
    ← List.length_reverse, List.take_left]
  rfl

theorem settled_loadFields (hpart : LoadSettles env depth)
    (hdepth : depth ≤ Layout.nestingLimit) (frames : List (Frame κ)) {f : Frame κ} (hright : f.right = [])
    (hrecord : f.info.layout.isRecord = true) (hgroup : f.content = .group) {index : Nat}
    (hindex : f.left.length = index) (cursor : Nat) {fields : List (Field κ (Layout κ))}
    (hsized : ∀ field ∈ fields, field.extent? = none ∧ field.layout.SeesEarlier env.rules)
    (hfields : ∀ field ∈ fields, ∀ layout, field.layout.Offers env.rules.layout layout →
      layout.Settable env.rules)
    {s : LoadState κ} (hs : s.view.Coherent) :
    Ends (loadFields env (load env depth) frames f index cursor fields) s fun out t =>
      t.ledger.unterminated = s.ledger.unterminated → out.error? = none →
        ∃ parts, out.atom = (f.filled parts).ready ∧ EverywhereIn (IsSettled env) parts
          ∧ parts.map (fun part => part.info.name) = fields.map Field.name
          ∧ (∀ (i : Nat) (field : Field κ (Layout κ)) (part : Atom κ), fields[i]? = some field →
              parts[i]? = some part → FieldSteady env (f.filled parts).ready (index + i) field part)
          ∧ ∀ depth' ≥ depth, ∀ (frames' : List (Frame κ)) {f' : Frame κ} {w : LoadState κ},
            f'.plain = f.plain → w.view.Gives cursor (serializeAll env.config.bitOrder parts) →
              Ends (loadFields env (load env depth') frames' f' index cursor fields) w fun out' _ =>
                out'.Remakes (f.filled parts) := by
  induction fields generalizing f index cursor s with
  | nil =>
    refine Ends.pure fun _ _ => ⟨[], ?_, trivial, rfl, (fun _ _ _ h => by cases h),
      fun depth' _ frames' f' w hf _ => Ends.pure ⟨rfl, ?_⟩⟩
    · rw [Frame.close_eq_filled hright]
    · rw [plain_ready, Frame.close_of_plain hf, Frame.close_eq_filled hright]
  | cons field fields ih =>
    rw [List.forall_mem_cons] at hsized hfields
    -- The rule sees the parts that are there already, whatever surrounds them.
    have hagree {f' : Frame κ} (hf : f'.plain = f.plain) (frames' : List (Frame κ)) :
        Place.AgreeBefore index ⟨f.close, frames⟩ ⟨f'.close, frames'⟩ := by
      refine ⟨hgroup, (Frame.content_of_plain hf).trans hgroup, ?_⟩
      rw [List.map_take, List.map_take, parts_of_plain (Frame.close_of_plain hf)]
    rw [loadFields]
    split
    · exact Ends.pure fun _ h => by cases h
    · rename_i layout hlayout
      rw [hsized.1.1]
      simp only [loadField]
      refine hpart.bind (hfields.1 layout (Env.offers_of_resolve hlayout)) hs fun out t ht => ?_
      obtain ⟨a, _ | e⟩ := out
      · dsimp only
        split
        · exact Ends.pure fun _ h => by cases h
        · rename_i next hspan
          obtain ⟨rfl, -⟩ := spanEnd_eq hspan
          have hnext : (f.push a).left.length = index + 1 := by
            rw [← hindex]
            rfl
          refine Ends.quietly (harmless_loadFields env (harmless_load env depth) _ _ _ _ _) ht.after.warnings
            fun hquiet => (ih (f := f.push a) hright hrecord hgroup hnext (cursor + a.size) hsized.2 hfields.2
              (ht.after.coherent hs)).mono fun out u hu hrest hok => ?_
          obtain ⟨hsteady, hagain⟩ := ht.settled hquiet rfl
          obtain ⟨parts, hatom, hparts, hnames, hlater, hmore⟩ := hu hrest hok
          rw [Frame.filled_push] at hatom hlater
          refine ⟨a :: parts, hatom, ⟨hsteady, hparts⟩, ?_, ?_, ?_⟩
          · rw [List.map_cons, List.map_cons, hnames, Info.name_of_seat (ht.seat rfl)]
            rfl
          · intro i field' part hfield hpart
            cases i with
            | zero =>
              cases hfield
              cases hpart
              have hwhole : (f.filled (a :: parts)).ready.content = .group := (content_ready _).trans hgroup
              have hearlier : Place.AgreeBefore index ⟨f.close, frames⟩
                ⟨(f.filled (a :: parts)).ready, []⟩ := by
                refine ⟨hgroup, hwhole, ?_⟩
                rw [parts_ready, Frame.parts_close, hright, List.append_nil, Frame.filled, parts_node, ← hindex,
                  ← List.length_reverse, List.take_left, List.take_length]
              refine ⟨hsized.1.1, hsized.1.2, hwhole, layout, Info.layout_of_seat (ht.seat rfl),
                Env.resolve_of_earlier hsized.1.2 hearlier hlayout, ?_⟩
              rw [Nat.add_zero, ← hindex, ← Frame.context_filled hrecord (a :: parts) frames]
              refine (hagain _ hdepth).remadeFrom (ht.laid rfl) ?_
              rw [Info.offset_of_seat (ht.seat rfl)]
              exact lt_of_spanEnd hspan
            | succ i =>
              have hstep := hlater i field' part hfield hpart
              rwa [Nat.add_assoc, Nat.add_comm 1 i] at hstep
          · intro depth' hdepth' frames' f' w hf hw
            rw [serializeAll] at hw
            have hrest := hw.rest
            rw [length_serialize _ a (ht.laid rfl)] at hrest
            rw [loadFields, Env.resolve_of_earlier hsized.1.2 (hagree hf frames') hlayout, hsized.1.1]
            simp only [loadField]
            refine (hagain depth' hdepth').bind (Frame.context_cons_of_plain hf _ _) (ht.seat rfl) hw.front
              fun b x hb hx => ?_
            have hfinal := hmore depth' hdepth' frames' (Frame.push_of_plain hf hb) (hrest.of_rewound hx)
            rw [Frame.filled_push] at hfinal
            dsimp only
            rw [size_of_plain hb, hspan]
            exact hfinal
      · exact Ends.pure fun _ h => by cases h

/-! ## Unions -/

/-- What is known of a member of a union that was loaded from the bytes `backing`. -/
structure Outcome.MemberSettled (env : Env κ) (depth : Nat) (backing : Bytes) (around : Context κ) (blank : Info κ)
    (out : Outcome κ) : Prop where
  settled : Everywhere (IsSettled env) out.atom
  seat : out.atom.info.seat = blank.seat
  front : ∀ order, serialize order out.atom <+: backing
  again : ∀ depth' ≥ depth, ∀ (frames : List (Frame κ)) (blank' : Atom κ) (l : Ledger κ),
    Frame.context frames = around → blank'.info.seat = blank.seat →
      Ends (LedgerM.fromBytes backing blank.offset (load env depth' frames blank')) l fun out' _ =>
        out'.Remakes out.atom

theorem Outcome.Echo.remakes {out out' : Outcome κ} (h : out.Echo out') (hok : out.error? = none) :
    out'.Remakes out.atom := by
  cases h with
  | same hplain => exact ⟨rfl, hplain.symm⟩
  | short | lost => cases hok

theorem LoadSettles.member (hpart : LoadSettles env depth) {backing : Bytes}
    (hsize : backing.length < pow2 64) (frames : List (Frame κ)) {blank : Atom κ} {name : String}
    {layout : Layout κ} {offset : Nat} (hblank : blank.IsBlank)
    (hown : blank.info.seat = (Atom.blank 0 name (.bytes layout) offset).info.seat)
    (hsettable : layout.Settable env.rules) (l : Ledger κ) :
    Ends (LedgerM.fromBytes backing blank.info.offset (load env depth frames blank)) l fun out m =>
      l.warnings <:+ m.warnings ∧ (m.unterminated = l.unterminated → out.error? = none →
        out.MemberSettled env depth backing (Frame.context frames) blank.info) := by
  have hcoherent : View.Coherent (.ofBytes backing blank.info.offset, []) :=
    View.coherent_detached hsize _ _ _
  have hlayout : blank.info.layout = .bytes layout := Info.layout_of_seat hown
  have hrun : Outcome.Settling env depth (Frame.context frames) blank.info
      ⟨l, [], .ofBytes backing blank.info.offset⟩ _ _ := hpart.run hblank hown hsettable hcoherent
  refine ⟨hrun.after.warnings, fun hquiet hok => ⟨(hrun.settled hquiet hok).1, hrun.seat hok, ?_, ?_⟩⟩
  · exact mirrors_fromBytes env depth frames hlayout hsettable.bitsCounted backing l hok
  · intro depth' hdepth frames' blank' l' hframes hseat
    have hboth : Together (LedgerM.fromBytes backing blank.info.offset (load env depth frames blank))
        (LedgerM.fromBytes backing blank.info.offset (load env depth' frames' blank')) l l'
          fun out _ out' _ => out.Echo out' :=
      (echo_load env hdepth).fromBytes hframes.symm hseat.symm hlayout hsettable backing blank.info.offset l l'
    exact Outcome.Echo.remakes hboth hok

theorem settled_loadMembers (hpart : LoadSettles env depth)
    (hdepth : depth ≤ Layout.nestingLimit) {backing : Bytes} (hsize : backing.length < pow2 64)
    (frames : List (Frame κ)) {f : Frame κ} (hright : f.right = [])
    (hunion : f.info.layout.isRecord = false) {members : List (String × Layout κ)}
    (hmembers : ∀ member ∈ members, member.2.Settable env.rules) (s : LoadState κ) :
    Ends (loadMembers (load env depth) backing frames f members) s fun out t =>
      t.ledger.unterminated = s.ledger.unterminated → out.error? = none →
        ∃ parts, out.atom = (f.filled parts).ready ∧ EverywhereIn (IsSettled env) parts
          ∧ parts.map (fun part => part.info.name) = members.map Prod.fst
          ∧ (∀ part ∈ parts, part.MemberSteady env backing f.info.offset)
          ∧ ∀ depth' ≥ depth, ∀ (frames' : List (Frame κ)) {f' : Frame κ} (w : LoadState κ),
            f'.plain = f.plain →
              Ends (loadMembers (load env depth') backing frames' f' members) w fun out' _ =>
                out'.Remakes (f.filled parts) := by
  induction members generalizing f s with
  | nil =>
    refine Ends.pure fun _ _ => ⟨[], ?_, trivial, rfl, (fun _ h => by cases h),
      fun depth' _ frames' f' w hf => Ends.pure ⟨rfl, ?_⟩⟩
    · rw [Frame.close_eq_filled hright]
    · rw [plain_ready, Frame.close_of_plain hf, Frame.close_eq_filled hright]
  | cons member members ih =>
    obtain ⟨name, layout⟩ := member
    rw [List.forall_mem_cons] at hmembers
    rw [loadMembers]
    refine (LoadM.after_spawn name (.bytes layout) f.info.offset s).bind fun blank t ht => ?_
    obtain ⟨hfresh, hblank, ht⟩ := ht
    have hoffset : blank.info.offset = f.info.offset := (Info.offset_of_seat hblank :)
    have hload : Ends (LoadM.fromBytes backing f.info.offset (load env depth (f :: frames) blank))
      t fun out u =>
        t.ledger.warnings <:+ u.ledger.warnings ∧ (u.ledger.unterminated = t.ledger.unterminated →
          out.error? = none → out.MemberSettled env depth backing ⟨f.info.offset, []⟩ blank.info) := by
      rw [← hoffset]
      have hmember := hpart.member hsize (f :: frames) hfresh hblank hmembers.1 t.ledger
      rwa [Frame.context_of_not_isRecord hunion, ← hoffset] at hmember
    refine hload.bind fun out u hu => ?_
    obtain ⟨hafter, hsettled⟩ := hu
    obtain ⟨a, _ | e⟩ := out
    · dsimp only
      refine Ends.quietly (harmless_loadMembers (harmless_load env depth) _ _ _ _) (ht.warnings.trans hafter)
        fun hquiet => (ih (f := f.push a) hright hunion hmembers.2 u).mono fun out v hv hrest hok => ?_
      have hsame : u.ledger.unterminated = t.ledger.unterminated := by
        have hfirst := Aftermath.unterminated ht.warnings
        have hsecond := Aftermath.unterminated hafter
        omega
      have hmember := hsettled hsame rfl
      have hseat := hmember.seat.trans hblank
      obtain ⟨parts, hatom, hparts, hnames, hsteady, hmore⟩ := hv hrest hok
      rw [Frame.filled_push] at hatom
      refine ⟨a :: parts, hatom, ⟨hmember.settled, hparts⟩, ?_, List.forall_mem_cons.2 ⟨?_, hsteady⟩, ?_⟩
      · rw [List.map_cons, List.map_cons, hnames, Info.name_of_seat hseat]
        rfl
      · refine ⟨(Info.offset_of_seat hseat :), hmember.front, fun frames' blank' l hframes hown => ?_⟩
        have hagain := hmember.again _ hdepth frames' blank' l hframes (hown.trans hmember.seat)
        rwa [← Info.offset_of_seat hmember.seat] at hagain
      · intro depth' hdepth' frames' f' w hf
        rw [loadMembers]
        refine (LoadM.after_spawn name (.bytes layout) f'.info.offset w).bind fun blank' x hx => ?_
        have hstart : f'.info.offset = f.info.offset := Frame.offset_of_plain hf
        have hown : blank'.info.seat = blank.info.seat := by
          rw [hx.2.1, hblank, hstart]
        have hagain : Ends (LoadM.fromBytes backing f'.info.offset (load env depth' (f' :: frames') blank')) x
            fun out _ => out.Remakes a := by
          rw [hstart, ← hoffset]
          refine hmember.again depth' hdepth' (f' :: frames') blank' x.ledger ?_ hown
          rw [Frame.context_cons_of_plain hf _ frames', Frame.context_of_not_isRecord hunion]
        refine hagain.bind fun out' y hy => ?_
        obtain ⟨b, error?⟩ := out'
        obtain ⟨hcomplete, hb⟩ := hy
        cases hcomplete
        have hfinal := hmore depth' hdepth' frames' y (Frame.push_of_plain hf hb)
        rw [Frame.filled_push] at hfinal
        exact hfinal
    · exact Ends.pure fun _ h => by cases h

theorem settled_loadUnion (hpart : LoadSettles env depth)
    (hdepth : depth ≤ Layout.nestingLimit) {name : String} {members : List (String × Layout κ)} {size : Nat}
    (hsettable : (Layout.union name members size).Settable env.rules) (frames : List (Frame κ)) {a : Atom κ}
    (hlayout : a.info.layout = .bytes (.union name members size)) (htail : a.info.tail = []) (s : LoadState κ)
    {around : Context κ} :
    Ends (loadUnion (load env depth) members size frames a) s fun out t =>
      t.ledger.unterminated = s.ledger.unterminated → out.error? = none →
        out.Settled env depth around a fun depth' => loadUnion (load env depth') members size := by
  obtain ⟨info, content, parts⟩ := a
  have hlayout : info.layout = .bytes (.union name members size) := hlayout
  have hbits : info.layout.isBits = false := by rw [hlayout]; rfl
  have hunion : info.layout.isRecord = false := by rw [hlayout]; rfl
  obtain ⟨hnodup, hword⟩ := hsettable.here
  have hmembers : ∀ member ∈ members, member.2.Settable env.rules :=
    fun member hmember => hsettable.inner (.member hmember (.here _))
  rw [loadUnion]
  refine ((LoadM.length_readAt info.offset size s).and (LoadM.harmless_readAt info.offset size s)).bind
    fun result t ht => ?_
  obtain ⟨hlength, hafter⟩ := ht
  cases result with
  | error e => exact Ends.pure fun _ h => by cases h
  | ok backing =>
    have hlength : backing.length = size := hlength backing rfl
    refine Ends.quietly (harmless_loadMembers (harmless_load env depth) _ _ _ _) hafter.warnings fun _ =>
      (settled_loadMembers hpart hdepth (hlength ▸ hword) frames (f := _) rfl hunion hmembers t).mono
        fun out u hu hquiet hok => ?_
    obtain ⟨parts', hatom, hparts, hnames, hsteady, hagain⟩ := hu hquiet hok
    have hmade : out.atom = .node { info with initialized := true } (.overlay backing) parts' := hatom
    constructor
    · rw [hmade, IsSteady, info_node, hlayout]
      refine ⟨by rw [parts_node, hnames]; exact hnodup, fun backing' hbacking => ?_⟩
      cases hbacking
      exact hsteady
    · rw [hmade]
      exact hparts
    · intro depth' hdepth' frames' a' w _ hplain hw
      have hbytes : serialize env.config.bitOrder out.atom = backing := by
        rw [hmade, serialize_of_bytes _ (by exact hbits), contentBytes, content_node, info_node,
          show info.tail = [] from htail, List.append_nil]
      rw [hbytes] at hw
      have hoffset : a'.info.offset = info.offset := offset_of_plain hplain
      rw [loadUnion, hoffset]
      refine (LoadM.gives_readAt hw hlength).bind fun result x hx => ?_
      obtain ⟨rfl, -⟩ := hx
      have hframe : (a'.fill (.overlay backing) []).frame.plain =
          ((Atom.node info content parts).fill (.overlay backing) []).frame.plain := by
        rw [Frame.plain_frame, Frame.plain_frame, plain_fill_of_info (info_of_plain hplain) _ rfl]
      refine (hagain depth' hdepth' frames' x hframe).mono fun out' _ hout' => ⟨hout'.complete, ?_⟩
      rw [hatom, plain_ready]
      exact hout'.plain

/-! ## Hosts of bits -/

/-- A view that gives what another view spells, one byte at a time. -/
theorem View.Gives.echo_of_spells {v w : View} {start : Nat} {bytes : Bytes} (hv : v.Spells start bytes)
    (hw : w.Gives start bytes) {k : Nat} (hk : start ≤ k) (hstop : k < start + bytes.length) :
    Echo SourceError.isConsume (v.given k 1) (w.given k 1) := by
  induction bytes generalizing start with
  | nil => exact absurd hstop (Nat.not_lt.2 hk)
  | cons b bytes ih =>
    rcases Nat.eq_or_lt_of_le hk with rfl | hlater
    · have hgiven := hw.given 0 1 Nat.one_pos (by rw [List.length_cons]; omega)
      rw [hv.1, show w.given start 1 = .ok [b] from hgiven]
      exact .same [b]
    · have hcons : w.Gives start ([b] ++ bytes) := hw
      have hrest : w.Gives (start + 1) bytes := hcons.rest
      refine ih hv.2 hrest hlater ?_
      rw [List.length_cons] at hstop
      omega

theorem Atom.steady_of_bits {a : Atom κ} (h : a.SteadyBits) : a.IsSteady env := by
  rw [IsSteady]
  cases hlayout : a.info.layout with
  | bits layout => exact h
  | bytes layout =>
    rw [SteadyBits, hlayout] at h
    exact h.elim

/-- Bits are not made again by themselves. -/
theorem Atom.settled_of_bits {a : Atom κ} (h : a.SteadyBits) : a.IsSettled env := by
  have hnone (layout : Layout κ) (hlayout : a.info.layout = .bytes layout) : False := by
    rw [SteadyBits, hlayout] at h
    exact h
  exact ⟨steady_of_bits h, fun layout hlayout => (hnone layout hlayout).elim,
    fun layout hlayout => (hnone layout hlayout).elim⟩

/-- A host whose root was made, and is made again from the bytes of the host. -/
theorem Outcome.settled_of_root {a root : Atom κ} {pad : Bitmap} {layout : BitLayout κ} {order : ByteOrder}
    {around : Context κ} {again : Nat → LoadPart (LoadM κ) κ} (hlayout : a.info.layout = .bytes (.bits layout order))
    (htail : a.info.tail = []) (hroot : Everywhere SteadyBits root) (hfills : pad.Fills root.bitCount)
    (hagain : ∀ depth' ≥ depth, ∀ {frames : List (Frame κ)} {a' : Atom κ} {w : LoadState κ},
      a'.plain = a.plain →
      w.view.Gives a.info.offset (BitStream.pack order (BitStream.close order (root.stream order) pad)) →
        Ends (again depth' frames a') w fun out _ => out.Remakes (hostedBits a root pad)) :
    Outcome.Settled env depth around a again ⟨(hostedBits a root pad).ready, none⟩ := by
  constructor
  · show IsSteady env (.node { a.info with initialized := true } (.host pad) [root])
    rw [IsSteady, info_node, hlayout]
    intro pad' hpad
    cases hpad
    exact hfills
  · exact ⟨hroot.mono fun _ => settled_of_bits, trivial⟩
  · intro depth' hdepth frames a' w _ hplain hw
    have hbytes : serialize env.config.bitOrder (hostedBits a root pad).ready =
        BitStream.pack order (BitStream.close order (root.stream order) pad) := by
      have hbits : (hostedBits a root pad).isBits = false := by
        rw [isBits, hostedBits, info_fill, hlayout]
        rfl
      rw [serialize_of_plain (plain_ready _), serialize_of_bytes _ hbits, contentBytes_hostedBits hlayout,
        hostedBits, info_fill, htail, List.append_nil]
    rw [hbytes] at hw
    refine (hagain depth' hdepth hplain hw).mono fun out _ hout => ⟨hout.complete, ?_⟩
    rw [plain_ready]
    exact hout.plain

theorem settled_loadRoot {layout : BitLayout κ} {order : ByteOrder} (hsettable : layout.Settable env.rules)
    (hsome : layout.staticBits ≠ some 0) (frames : List (Frame κ)) {a root : Atom κ}
    (hroot : root.info.layout = .bits layout) (s : LoadState κ) :
    Ends (loadRoot env depth order frames a root) s fun out _ => out.error? = none →
      ∃ b pad, out.atom = (hostedBits a b pad).ready ∧ Everywhere SteadyBits b ∧ pad.Fills b.bitCount
        ∧ ∀ depth' ≥ depth, ∀ (frames' : List (Frame κ)) {a' root' : Atom κ} {w : LoadState κ},
          a'.plain = a.plain → root'.info.plain = root.info.plain →
            w.view.Gives a.info.offset (BitStream.pack order (BitStream.close order (b.stream order) pad)) →
              Ends (loadRoot env depth' order frames' a' root') w fun out _ =>
                out.Remakes (hostedBits a b pad) := by
  obtain ⟨width, hstatic⟩ := Option.isSome_iff_exists.1 hsettable.static
  have hpos : width ≠ 0 := fun hzero => hsome (hzero ▸ hstatic)
  rw [loadRoot]
  refine (LoadM.ends_seekTo a.info.offset 1 s).bind fun result t ht => ?_
  obtain ⟨-, -, hstands⟩ := ht
  cases result with
  | error e => exact Ends.pure fun h => by cases h
  | ok _ =>
    have hleft := hstands rfl
    -- What the same bits become from this view and from another one that gives the same bytes.
    have hboth (depth' : Nat) (hdepth : depth' ≥ depth) (frames' : List (Frame κ)) {root' : Atom κ}
        {x : LoadState κ} (hplain : root.info.plain = root'.info.plain) (hright : x.view.StandsAt a.info.offset)
        (hbytes : ∀ k, a.info.offset ≤ k → k < a.info.offset + bytesOfBits width →
          Echo SourceError.isConsume (t.view.given k 1) (x.view.given k 1)) :=
      BitLoadM.echo_run env hdepth order ((a.fill (.host .empty) []).frame :: frames) frames' hroot hsettable
        hstatic hplain hleft hright hbytes
    have hsame := hboth depth (Nat.le_refl _) ((a.fill (.host .empty) []).frame :: frames) rfl hleft
      fun k _ _ => .refl _ _
    refine Ends.via (fun result _ => result = (BitLoadM.run order a.info.offset
      (loadBits env depth ((a.fill (.host .empty) []).frame :: frames) root) t).1) rfl fun result u hu => ?_
    rw [Together, ← hu] at hsame
    simp only [Together, ← hu] at hboth
    cases hsame with
    | @same b _ pad _ _ hsteady hfills bytes hpack hspells hlength =>
      refine Ends.pure fun _ => ⟨b, pad, rfl, hsteady, hfills,
        fun depth' hdepth frames' a' root' w ha hb hw => ?_⟩
      rw [hpack] at hw
      have hne : bytes ≠ [] := by
        rintro rfl
        rw [List.length_nil, bytesOfBits] at hlength
        omega
      rw [loadRoot, offset_of_plain ha]
      refine (LoadM.ends_seekTo a.info.offset 1 w).bind fun result x hx => ?_
      obtain ⟨hkept, hmoved, hstands'⟩ := hx
      obtain rfl := hmoved.2 (hw.moved hne 0 (Nat.zero_le _))
      have hecho := hboth depth' hdepth ((a'.fill (.host .empty) []).frame :: frames') hb.symm (hstands' rfl)
        fun k hk hstop => (hw.of_rewound hkept).echo_of_spells hspells hk (by rw [hlength]; exact hstop)
      refine Ends.via (fun result _ => Outcome.EchoedRoot width order a.info.offset root.info.site t.view
        (⟨b, none⟩, pad) result) hecho fun result' y hy => ?_
      cases hy with
      | same hplain =>
        refine Ends.pure ⟨rfl, ?_⟩
        rw [plain_ready]
        exact plain_fill_of_info (info_of_plain ha) _ (congrArg (fun b => [b]) hplain.symm)
    | short | lost => exact Ends.pure fun h => by cases h

theorem settled_loadHost {layout : BitLayout κ} {order : ByteOrder}
    (hsettable : layout.Settable env.rules) (frames : List (Frame κ)) {a : Atom κ}
    (hlayout : a.info.layout = .bytes (.bits layout order)) (htail : a.info.tail = []) (s : LoadState κ)
    {around : Context κ} :
    Ends (loadHost env depth layout order frames a) s fun out _ => out.error? = none →
      out.Settled env depth around a fun depth' => loadHost env depth' layout order := by
  rw [loadHost]
  split
  · exact Ends.pure fun h => by cases h
  · rename_i position hposition
    have hspawn (s : LoadState κ) : Ends (LoadM.ofLedger (LedgerM.spawn "" (.bits layout) position)) s
        fun root t => root.info.plain = (Atom.blank 0 "" (.bits layout) position).info.plain
          ∧ t.view = s.view := ⟨rfl, rfl⟩
    refine (hspawn s).bind fun root t ht => ?_
    obtain ⟨hroot, -⟩ := ht
    have hown : root.info.layout = .bits layout := (Info.layout_of_seat (Info.seat_of_plain hroot) :)
    dsimp only
    split
    · rename_i hzero
      refine Ends.via (fun out _ => (out.error? = none → out.atom.bitCount = 0) ∧ ∀ depth' ≥ depth,
        ∀ (frames' : List (Frame κ)) (root' : Atom κ) (l : Ledger κ), root.info.seat = root'.info.seat →
          out.MadeTwice root.info.site (allocateBits env depth' frames' root' l).1) ?_ fun out u hu => ?_
      · exact ⟨keepsWidth_allocateBits env depth _ root layout 0 t.ledger hown hzero,
          fun depth' hdepth frames' root' l hseat => echo_allocateBits env hdepth hown hsettable hseat⟩
      obtain ⟨hempty, hu⟩ := hu
      obtain ⟨b, _ | e⟩ := out
      · refine Ends.pure fun _ => ?_
        have hsteady : Everywhere SteadyBits b := by
          have hmade := hu depth (Nat.le_refl _) frames root u.ledger rfl
          generalize (allocateBits env depth frames root u.ledger).1 = out' at hmade
          cases hmade with
          | same _ _ hsteady => exact hsteady
        have hfills : Bitmap.Fills b.bitCount Bitmap.empty := by
          rw [hempty rfl]
          rfl
        refine Outcome.settled_of_root hlayout htail hsteady hfills
          fun depth' hdepth {frames' a' w} hplain _ => ?_
        rw [loadHost, offset_of_plain hplain, hposition]
        dsimp only
        refine (hspawn w).bind fun root' x hx => ?_
        rw [if_pos hzero]
        refine Ends.via (fun out _ => Outcome.MadeTwice root.info.site ⟨b, none⟩ out) ?_ fun out' y hy => ?_
        · exact hu depth' hdepth _ root' x.ledger (Info.seat_of_plain (hroot.trans hx.1.symm))
        · cases hy with
          | same hsame =>
            refine Ends.pure ⟨rfl, ?_⟩
            rw [plain_ready]
            exact plain_fill_of_info (info_of_plain hplain) _ (congrArg (fun b => [b]) hsame.symm)
      · exact Ends.pure fun h => by cases h
    · rename_i hsome
      refine (settled_loadRoot hsettable hsome frames hown t).mono fun out _ hout hok => ?_
      obtain ⟨b, pad, hatom, hsteady, hfills, hagain⟩ := hout hok
      obtain ⟨_, _ | e⟩ := out
      · subst hatom
        refine Outcome.settled_of_root hlayout htail hsteady hfills
          fun depth' hdepth {frames' a' w} hplain hw => ?_
        rw [loadHost, offset_of_plain hplain, hposition]
        dsimp only
        refine (hspawn w).bind fun root' x hx => ?_
        rw [if_neg hsome]
        exact hagain depth' hdepth frames' hplain (hx.1.trans hroot.symm)
          (hw.of_rewound (congrArg View.rewound hx.2))
      · cases hok

/-! ## All atoms -/

/-- Loading an atom of bytes empties it first. What is known of the emptied atom, prepared for its layout, is
known of the atom. -/
theorem Outcome.Settled.of_cleared {layout : Layout κ} (again : Nat → LoadPart (LoadM κ) κ)
    (prepare : Atom κ → Atom κ) {frames : List (Frame κ)} {a : Atom κ} {s : LoadState κ} {around : Context κ}
    (hload : ∀ d frames (b : Atom κ), b.info.layout = .bytes layout → load env (d + 1) frames b =
      LoadM.ofLedger (LedgerM.clear b) >>= fun c => again d frames (prepare c))
    (hprepare : ∀ {b b' : Atom κ}, b.plain = b'.plain → (prepare b).plain = (prepare b').plain)
    (hinfo : ∀ b, (prepare b).info = b.info) (hlayout : a.info.layout = .bytes layout) (hs : s.view.Coherent)
    (hsettled : ∀ t : LoadState κ, t.view.Coherent →
      Ends (again depth frames (prepare a.cleared)) t fun out u =>
      u.ledger.unterminated = t.ledger.unterminated → out.error? = none →
        out.Settled env depth around (prepare a.cleared) again) :
    Ends (load env (depth + 1) frames a) s fun out t => t.ledger.unterminated = s.ledger.unterminated →
      out.error? = none → out.atom.IsSteady env ∧ EverywhereIn (IsSettled env) out.atom.parts
        ∧ ∀ depth' ≥ depth + 1, out.atom.RemadeBy env.config.bitOrder (load env depth') around := by
  have hclear (b : Atom κ) (t : LoadState κ) : Ends (LoadM.ofLedger (LedgerM.clear b)) t fun c u =>
      c = b.cleared ∧ u.ledger.warnings = t.ledger.warnings ∧ u.view = t.view :=
    ⟨rfl, Ledger.warnings_releaseAll _ _, rfl⟩
  have hseat := laid_load env (depth + 1) frames a s
  have hmade : Ends (load env (depth + 1) frames a) s fun out t =>
      t.ledger.unterminated = s.ledger.unterminated → out.error? = none →
        out.Settled env depth around (prepare a.cleared) again := by
    rw [hload depth frames a hlayout]
    refine (hclear a s).bind fun c t ht => ?_
    obtain ⟨rfl, hwarnings, hview⟩ := ht
    have hsame : t.ledger.unterminated = s.ledger.unterminated :=
      congrArg (List.countP Warning.isUnterminated) hwarnings
    rw [← hsame]
    exact hsettled t (hview ▸ hs)
  refine (hseat.and hmade).mono fun out t ht hquiet hok => ?_
  obtain ⟨hlaid, hout⟩ := ht
  obtain ⟨hsteady, hparts, hagain⟩ := hout hquiet hok
  refine ⟨hsteady, hparts, fun depth' hdepth frames' blank w hframes hblank hw => ?_⟩
  obtain ⟨d, rfl⟩ : ∃ d, depth' = d + 1 := ⟨depth' - 1, by omega⟩
  have hown : blank.info.seat = a.info.seat := hblank.trans (Info.seat_of_site (hlaid hok).2)
  rw [hload d frames' blank ((Info.layout_of_seat hown).trans hlayout)]
  refine (hclear blank w).bind fun c x hx => ?_
  obtain ⟨rfl, -, hx⟩ := hx
  refine hagain d (by omega) hframes (hprepare (plain_cleared hown)) ?_
  rw [hinfo, Info.offset_of_site (site_cleared a), ← Info.offset_of_site (hlaid hok).2, hx]
  exact hw

/-- One layout more. The atom is made again where the same stands around it, and anywhere if that does not
matter. -/
theorem LoadSettles.remade (hpart : LoadSettles env depth) (hdepth : depth ≤ Layout.nestingLimit)
    {frames : List (Frame κ)} {a : Atom κ} {layout : Layout κ} {s : LoadState κ}
    (hlayout : a.info.layout = .bytes layout) (hsettable : layout.Settable env.rules) (hs : s.view.Coherent)
    {around : Context κ} (haround : layout.Freestanding env.rules ∨ Frame.context frames = around) :
    Ends (load env (depth + 1) frames a) s fun out t => t.ledger.unterminated = s.ledger.unterminated →
      out.error? = none → out.atom.IsSteady env ∧ EverywhereIn (IsSettled env) out.atom.parts
        ∧ ∀ depth' ≥ depth + 1, out.atom.RemadeBy env.config.bitOrder (load env depth') around := by
  have hown : a.cleared.info.layout = .bytes layout :=
    (Info.layout_of_site (site_cleared a)).trans hlayout
  have htail : a.cleared.info.tail = [] := (isBlank_cleared a).tail
  have hgroup {b b' : Atom κ} (h : b.plain = b'.plain) : (b.fill .group []).plain = (b'.fill .group []).plain :=
    plain_fill_of_info (info_of_plain h) .group rfl
  have hframe {b b' : Atom κ} (h : b.plain = b'.plain) : b.frame.plain = b'.frame.plain := by
    rw [Frame.plain_frame, Frame.plain_frame, h]
  have hbits : a.cleared.isBits = false := by rw [isBits, hown]; rfl
  -- An array of any shape says nothing about its parts.
  have harray {element : Layout κ} {shape : Shape κ} (harray : layout = .array element shape)
      (parts : List (Atom κ)) : IsSteady env ((a.cleared.fill .group []).frame.filled parts).ready := by
    show IsSteady env (.node { a.cleared.info with initialized := true } .group parts)
    rw [IsSteady, info_node, hown, harray]
    trivial
  have hleaf (hhere : layout.SettableHere env.rules) (t : LoadState κ) :
      Ends (loadLeaf env layout frames a.cleared) t fun out u =>
        u.ledger.unterminated = t.ledger.unterminated → out.error? = none →
          out.Settled env depth around a.cleared fun _ => loadLeaf env layout :=
    (settled_loadLeaf hhere frames hown htail t haround).mono fun _ _ h _ => h
  cases layout with
  | record name fields =>
    refine Outcome.Settled.of_cleared
      (fun d frames b => loadFields env (load env d) frames b.frame 0 b.info.offset fields)
      (fill .group []) (fun d frames b hb => by rw [load, hb]; rfl) hgroup (fun _ => rfl) hlayout hs
      fun t ht => ?_
    obtain ⟨hnodup, hsized⟩ := hsettable.here
    have hnone : (a.cleared.fill .group []).frame.left.length = 0 := rfl
    have hrecord : (a.cleared.fill .group []).frame.info.layout.isRecord = true := by
      show a.cleared.info.layout.isRecord = true
      rw [hown]
      rfl
    refine (settled_loadFields hpart hdepth frames (f := (a.cleared.fill .group []).frame) rfl hrecord rfl hnone _
      hsized (fun field hfield layout hoffers => hsettable.inner (.field hfield hoffers (.here _))) ht).mono
        fun out u hu hquiet hok => ?_
    obtain ⟨parts, hatom, hparts, hnames, hfields, hagain⟩ := hu hquiet hok
    refine Outcome.settled_of_parts hbits rfl rfl htail hatom ?_ hparts
      fun depth' hdepth' frames' a' w hframes hplain hw => ?_
    · show IsSteady env (.node { a.cleared.info with initialized := true } .group parts)
      rw [IsSteady, info_node, hown]
      refine ⟨hnames, hnodup, fun i field part hfield hfound => ?_⟩
      have hsteady := hfields i field part hfield hfound
      rwa [Nat.zero_add] at hsteady
    · rw [offset_of_plain hplain]
      exact hagain depth' hdepth' _ (hframe hplain) hw
  | array element shape =>
    have helement : element.Settable env.rules := hsettable.element
    cases shape with
    | counted count =>
      refine Outcome.Settled.of_cleared
        (fun d frames b => loadCounted (load env d) element frames count b.frame 0 b.info.offset)
        (fill .group []) (fun d frames b hb => by rw [load, hb]; rfl) hgroup (fun _ => rfl) hlayout hs
        fun t ht => ?_
      refine (settled_loadCounted hpart helement frames count
        (f := (a.cleared.fill .group []).frame) rfl 0 _ ht).mono fun out u hu hquiet hok => ?_
      obtain ⟨parts, hatom, hparts, hagain⟩ := hu hquiet hok
      refine Outcome.settled_of_parts hbits rfl rfl htail hatom (harray rfl parts) hparts
        fun depth' hdepth' frames' a' w hframes hplain hw => ?_
      rw [offset_of_plain hplain]
      exact hagain depth' hdepth' _ (hframe hplain) hw
    | block extent =>
      refine Outcome.Settled.of_cleared (fun d => loadBlock (load env d) element extent) (fill .group [])
        (fun d frames b hb => by rw [load, hb]) hgroup (fun _ => rfl) hlayout hs fun t ht => ?_
      exact settled_loadBlock (a := a.cleared.fill .group []) hpart helement extent frames hown rfl rfl
        htail ht
    | terminated rule =>
      refine Outcome.Settled.of_cleared
        (fun d frames b =>
          loadOpen env (load env d) element (some rule) frames env.config.maxElements b.frame 0 b.info.offset)
        (fill .group []) (fun d frames b hb => by rw [load, hb]; rfl) hgroup (fun _ => rfl) hlayout hs
        fun t ht => ?_
      refine (settled_loadOpen hpart helement hsettable.here frames haround _
        (f := (a.cleared.fill .group []).frame) rfl 0 _ ht).mono fun out u hu hquiet hok => ?_
      obtain ⟨parts, hatom, hparts, hagain⟩ := hu hquiet hok
      refine Outcome.settled_of_parts hbits rfl rfl htail hatom (harray rfl parts) hparts
        fun depth' hdepth' frames' a' w hframes hplain hw => ?_
      rw [offset_of_plain hplain]
      exact hagain depth' hdepth' hframes (hframe hplain) hw
    | unending => exact absurd rfl hsettable.ends
  | union name members size =>
    refine Outcome.Settled.of_cleared (fun d => loadUnion (load env d) members size) id
      (fun d frames b hb => by rw [load, hb]; rfl) (fun h => h) (fun _ => rfl) hlayout hs fun t _ => ?_
    exact settled_loadUnion hpart hdepth hsettable frames hown htail t
  | bits root order =>
    refine Outcome.Settled.of_cleared (fun d => loadHost env d root order) id
      (fun d frames b hb => by rw [load, hb]; rfl) (fun h => h) (fun _ => rfl) hlayout hs fun t _ => ?_
    exact (settled_loadHost hsettable.here frames hown htail t).mono fun _ _ h _ => h
  | int | float | fixed | varint | text | block | constant | padding | align | pointer =>
    refine Outcome.Settled.of_cleared (fun _ => loadLeaf env _) id
      (fun d frames b hb => by rw [load, hb]; rfl) (fun h => h) (fun _ => rfl) hlayout hs fun t _ => ?_
    exact hleaf hsettable.here t

/-- Atoms of settable layouts that are loaded from coherent views are steady and are made again. -/
theorem settles_load (env : Env κ) {depth : Nat}
    (hdepth : depth ≤ Layout.nestingLimit) : LoadSettles env depth := by
  induction depth with
  | zero => exact fun _ _ _ _ => Ends.pure fun _ => nofun
  | succ depth ih =>
    intro frames a layout s hlayout hpresent hsettable hs
    have hmade : Ends (load env (depth + 1) frames a) s fun out t => ∀ around,
        layout.Freestanding env.rules ∨ Frame.context frames = around → t.ledger.unterminated = s.ledger.unterminated →
          out.error? = none → out.atom.IsSteady env ∧ EverywhereIn (IsSettled env) out.atom.parts
            ∧ ∀ depth' ≥ depth + 1, out.atom.RemadeBy env.config.bitOrder (load env depth') around :=
      fun around haround => LoadSettles.remade (ih (Nat.le_of_succ_le hdepth)) (Nat.le_of_succ_le hdepth) hlayout
        hsettable hs haround
    refine ((laid_load env (depth + 1) frames a s).and hmade).mono fun out t h hquiet hok => ?_
    obtain ⟨hlaid, hmade⟩ := h
    obtain ⟨hsteady, hparts, hagain⟩ := hmade _ (.inr rfl) hquiet hok
    have hown : out.atom.info.layout = .bytes layout := (Info.layout_of_site (hlaid hok).2).trans hlayout
    have hinner : ∀ layout', out.atom.info.layout = .bytes layout' → layout'.Settable env.rules := by
      intro layout' hlayout'
      cases hown.symm.trans hlayout'
      exact hsettable
    have hportable : out.atom.IsPortable env := by
      intro layout' hlayout' hfree
      cases hown.symm.trans hlayout'
      refine ⟨(Info.null_of_seat (Info.seat_of_site (hlaid hok).2)).trans hpresent, fun around => ?_⟩
      exact (hmade around (.inl hfree) hquiet hok).2.2 _ hdepth
    exact ⟨everywhere_iff.2 ⟨⟨hsteady, hinner, hportable⟩, everywhereIn_iff.1 hparts⟩, hagain⟩

end Load

end BinaryLayout
