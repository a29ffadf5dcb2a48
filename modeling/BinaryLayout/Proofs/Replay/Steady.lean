import BinaryLayout.Proofs.Extent.Load
import BinaryLayout.Proofs.Locality.Array
import BinaryLayout.Proofs.Placement.Load
import BinaryLayout.Proofs.Replay.Gives
import BinaryLayout.Proofs.Replay.Load
import BinaryLayout.Proofs.Span.Bits

/-!
# Loading again what was loaded

An atom that was loaded from a coherent view is loaded again, up to handles and flags, from any view
that gives its bytes where it stands. This is not so of an array that ended because its view did; but
then there was a warning. The elements that a block array dropped are dropped again, because their bytes
are the tail of the array.

## Main definitions

* `Outcome.Remakes`: an atom that was made again.
* `Atom.RemadeBy`: an atom that is made again from its own bytes.
* `Atom.IsSteady`, `Atom.IsPortable`: what is known of each atom of a tree that was loaded.
* `LoadSettles`: loading that makes such trees, and makes them again.

## Main statements

* `settled_loadLeaf`, `settled_loadCounted`, `settled_loadOpen`: texts, numbers and arrays.
* `LoadSettles.bind`, `Atom.RemadeBy.bind`: a part that is loaded, and a part that is made again.
-/

namespace BinaryLayout

variable {κ α : Type}

open Atom

/-! ## Runs without a warning of an unterminated array -/

theorem Aftermath.unterminated {l m : Ledger κ} (h : l.warnings <:+ m.warnings) :
    l.unterminated ≤ m.unterminated :=
  h.sublist.countP_le

theorem Aftermath.quiet {s t u : LoadState κ} (hst : Aftermath s.record t.record)
    (htu : Aftermath t.record u.record) (h : u.ledger.unterminated = s.ledger.unterminated) :
    u.ledger.unterminated = t.ledger.unterminated := by
  have hearlier := Aftermath.unterminated hst.warnings
  have hlater := Aftermath.unterminated htu.warnings
  exact Nat.le_antisymm (Nat.le_trans (Nat.le_of_eq h) hearlier) hlater

/-- What a run leads to that adds no warning of an unterminated array, when the run before it added
none either. -/
theorem Ends.quietly {m : LoadM κ α} {s t : LoadState κ} {post : α → Prop}
    (hm : Harmless LoadState.record m) (hst : s.ledger.warnings <:+ t.ledger.warnings)
    (h : t.ledger.unterminated = s.ledger.unterminated →
      Ends m t fun a u => u.ledger.unterminated = t.ledger.unterminated → post a) :
    Ends m t fun a u => u.ledger.unterminated = s.ledger.unterminated → post a := by
  have hearlier := Aftermath.unterminated hst
  have hlater := Aftermath.unterminated (hm t).warnings
  intro hquiet
  have hsame : t.ledger.unterminated = s.ledger.unterminated :=
    Nat.le_antisymm (Nat.le_trans hlater (Nat.le_of_eq hquiet)) hearlier
  exact h hsame (hquiet.trans hsame.symm)

/-! ## Atoms made again -/

/-- The same atom was made. -/
structure Outcome.Remakes (out : Outcome κ) (a : Atom κ) : Prop where
  complete : out.error? = none
  plain : out.atom.plain = a.plain

/-- From a blank atom in its place and a view that gives its bytes there, the part makes the atom. -/
def Atom.RemadeBy (order : ByteOrder) (part : LoadPart (LoadM κ) κ) (around : Context κ) (a : Atom κ) : Prop :=
  ∀ (frames : List (Frame κ)) (blank : Atom κ) (s : LoadState κ), Frame.context frames = around →
    blank.info.seat = a.info.seat → s.view.Gives a.info.offset (serialize order a) →
      Ends (part frames blank) s fun out _ => out.Remakes a

/-- From a blank atom in its place and these bytes, the atom is made again. -/
def Atom.RemadeFrom (env : Env κ) (bytes : Bytes) (around : Context κ) (a : Atom κ) : Prop :=
  ∀ (frames : List (Frame κ)) (blank : Atom κ) (l : Ledger κ), Frame.context frames = around →
    blank.info.seat = a.info.seat →
      Ends (LedgerM.fromBytes bytes a.info.offset (load env Layout.nestingLimit frames blank)) l
        fun out _ => out.Remakes a

/-- What is known of a field of a record that was loaded: its rule answers the layout that it has, as long as
the fields before it are the same, and it is made again from its bytes. -/
def Atom.FieldSteady (env : Env κ) (record : Atom κ) (index : Nat) (field : Field κ (Layout κ))
    (part : Atom κ) : Prop :=
  field.extent? = none ∧ field.layout.SeesEarlier env.rules ∧ record.content = .group
    ∧ ∃ layout, part.info.layout = .bytes layout
    ∧ env.resolve ⟨record, []⟩ index field.layout = .ok layout
    ∧ part.RemadeFrom env (serialize env.config.bitOrder part) (record.contextOf index)

/-- What is known of a member of a union that was loaded: it stands for the first of the shared bytes, and
is made again from them. -/
structure Atom.MemberSteady (env : Env κ) (backing : Bytes) (base : Nat) (member : Atom κ) : Prop where
  offset : member.info.offset = base
  front : ∀ order, serialize order member <+: backing
  again : member.RemadeFrom env backing ⟨base, []⟩

/-- What is known of an atom that was loaded. The fields of a record and the members of a union have
different names, the unused bits of a host fill its last byte, and what an atom without parts holds can be
written. -/
def Atom.IsSteady (env : Env κ) (a : Atom κ) : Prop :=
  match a.info.layout with
  | .bits _ => a.SteadyBits
  | .bytes (.record _ fields) => a.parts.map (fun part => part.info.name) = fields.map Field.name
      ∧ (fields.map Field.name).Nodup
      ∧ ∀ i field part, fields[i]? = some field → a.parts[i]? = some part → a.FieldSteady env i field part
  | .bytes (.union ..) => (a.parts.map fun part => part.info.name).Nodup
      ∧ ∀ backing, a.content = .overlay backing →
        ∀ member ∈ a.parts, member.MemberSteady env backing a.info.offset
  | .bytes (.bits ..) => ∀ pad, a.content = .host pad → pad.Fills (bitCounts a.parts)
  | .bytes (.array ..) => True
  | .bytes layout => ∃ raw, a.content = layout.stored raw ∧ a.parts = [] ∧ layout.Holds raw

/-- Whatever stands around it, the atom is made again from its own bytes, if its layout is freestanding. It is
not what a null pointer refers to. -/
def Atom.IsPortable (env : Env κ) (a : Atom κ) : Prop :=
  ∀ layout, a.info.layout = .bytes layout → layout.Freestanding env.rules → a.info.null = false
    ∧ ∀ around, a.RemadeBy env.config.bitOrder (load env Layout.nestingLimit) around

/-- What is known of an atom that was loaded, and of loading it again. -/
structure Atom.IsSettled (env : Env κ) (a : Atom κ) : Prop where
  steady : a.IsSteady env
  settable : ∀ layout, a.info.layout = .bytes layout → layout.Settable env.rules
  portable : a.IsPortable env

/-- What was loaded is steady, and is made again. -/
structure Outcome.Settled (env : Env κ) (depth : Nat) (around : Context κ) (a : Atom κ)
    (again : Nat → LoadPart (LoadM κ) κ) (out : Outcome κ) : Prop where
  steady : out.atom.IsSteady env
  parts : EverywhereIn (IsSettled env) out.atom.parts
  again : ∀ depth' ≥ depth, ∀ {frames : List (Frame κ)} {a' : Atom κ} {w : LoadState κ},
    Frame.context frames = around → a'.plain = a.plain →
      w.view.Gives a.info.offset (serialize env.config.bitOrder out.atom) →
        Ends (again depth' frames a') w fun out' _ => out'.Remakes out.atom

/-- At this depth, atoms of settable layouts that are loaded from coherent views are steady and are made
again. -/
def LoadSettles (env : Env κ) (depth : Nat) : Prop :=
  ∀ {frames : List (Frame κ)} {a : Atom κ} {layout : Layout κ} {s : LoadState κ},
    a.info.layout = .bytes layout → a.info.null = false → layout.Settable env.rules → s.view.Coherent →
      Ends (load env depth frames a) s fun out t => t.ledger.unterminated = s.ledger.unterminated →
        out.error? = none → Everywhere (IsSettled env) out.atom ∧ ∀ depth' ≥ depth,
          out.atom.RemadeBy env.config.bitOrder (load env depth') (Frame.context frames)

section Load

variable {env : Env κ} {depth : Nat}

/-! ## Atoms without parts -/

/-- An atom without parts that holds what its layout asks for. -/
theorem Atom.steady_of_stored {a : Atom κ} {layout : Layout κ} {raw : Bytes}
    (hlayout : a.info.layout = .bytes layout) (hcontent : a.content = layout.stored raw)
    (hparts : a.parts = []) (hholds : layout.Holds raw) : a.IsSteady env := by
  rw [IsSteady, hlayout]
  cases layout with
  | int | text | block | constant | padding | align | pointer => exact ⟨raw, hcontent, hparts, hholds⟩
  | float | fixed | varint | record | array | union | bits => exact hholds.elim

theorem Atom.serialize_stored (order : ByteOrder) {a : Atom κ} {layout : Layout κ} {raw : Bytes}
    (hbits : a.isBits = false) (htail : a.info.tail = []) (hcontent : a.content = layout.stored raw) :
    serialize order a = raw := by
  rw [serialize_of_bytes order hbits, htail, List.append_nil, contentBytes, hcontent]
  cases layout <;> rfl

theorem settled_loadLeaf {layout : Layout κ} (hhere : layout.SettableHere env.rules)
    (frames : List (Frame κ)) {a : Atom κ} (hlayout : a.info.layout = .bytes layout) (htail : a.info.tail = [])
    (s : LoadState κ) {around : Context κ}
    (haround : layout.Freestanding env.rules ∨ Frame.context frames = around) :
    Ends (loadLeaf env layout frames a) s fun out _ => out.error? = none →
      out.Settled env depth around a fun _ => loadLeaf env layout := by
  -- What is made of the bytes that were read, whatever the warnings were.
  have hmade (frames' : List (Frame κ)) (a' : Atom κ) (w : LoadState κ) (raw : Bytes)
      (hraw : Ends (LoadM.readLeaf env.config frames' layout a'.info.offset) w fun result _ =>
        result = .ok raw) :
      Ends (loadLeaf env layout frames' a') w fun out _ => out =
        ⟨.node { a'.info with undecodable := layout.isUndecodable raw, initialized := true }
          (layout.stored raw) [], none⟩ := by
    obtain ⟨info, content, parts⟩ := a'
    rw [loadLeaf]
    refine hraw.bind fun result t ht => ?_
    subst ht
    dsimp only
    rw [withBytes_eq]
    split <;> exact rfl
  have hread {frames' : List (Frame κ)} (hframes : layout.Freestanding env.rules ∨ Frame.base frames = Frame.base frames') :=
    LoadM.again_readLeaf env.config hframes hhere a.info.offset s
  cases hresult : (LoadM.readLeaf env.config frames layout a.info.offset s).1 with
  | error e =>
    have hfailed : Ends (LoadM.readLeaf env.config frames layout a.info.offset) s fun result _ =>
        result = .error e := hresult
    rw [loadLeaf]
    refine hfailed.bind fun result t ht => ?_
    subst ht
    exact Ends.pure fun h => by cases h
  | ok raw =>
    refine (hmade frames a s raw hresult).mono fun out t hout _ => ?_
    subst hout
    constructor
    · exact steady_of_stored hlayout rfl rfl (hread (.inr rfl) raw hresult).1
    · exact trivial
    · intro depth' _ frames' a' w hframes hplain hw
      have hbits : a.info.layout.isBits = false := by rw [hlayout]; rfl
      rw [serialize_stored _ (by exact hbits) (by exact htail) rfl] at hw
      refine (hmade frames' a' w raw ?_).mono fun out' t' hout' => ?_
      · rw [offset_of_plain hplain]
        exact (hread (haround.imp_right fun h => Frame.base_of_context (h.trans hframes.symm)) raw hresult).2 w hw
      · subst hout'
        refine ⟨rfl, plain_ext ?_ rfl rfl⟩
        exact (info_of_plain hplain :)

/-! ## Parts -/

/-- A new atom. -/
theorem LoadM.after_spawn (name : String) (layout : AtomLayout κ) (offset : Nat) (s : LoadState κ) :
    Ends (LoadM.ofLedger (LedgerM.spawn name layout offset)) s fun a t =>
      a.IsBlank ∧ a.info.seat = (Atom.blank 0 name layout offset).info.seat ∧ Aftermath s.record t.record :=
  ⟨isBlank_blank _ _ _ _, rfl, LoadM.harmless_ofLedger (LedgerM.harmless_spawn name layout offset) s⟩

theorem Aftermath.coherent {s t : LoadState κ} (h : Aftermath s.record t.record) (hs : s.view.Coherent) :
    t.view.Coherent := by
  have hcontents : t.view.rewound = s.view.rewound := h.contents
  rw [← View.coherent_rewound, hcontents, View.coherent_rewound]
  exact hs

/-- What is known of a part that was loaded as a new atom. -/
structure Outcome.Settling (env : Env κ) (depth : Nat) (around : Context κ) (blank : Info κ) (s : LoadState κ)
    (out : Outcome κ) (t : LoadState κ) : Prop where
  after : Aftermath s.record t.record
  shaped : Everywhere Shaped out.atom
  laid : out.error? = none → Everywhere LaidOut out.atom
  seat : out.error? = none → out.atom.info.seat = blank.seat
  settled : t.ledger.unterminated = s.ledger.unterminated → out.error? = none →
    Everywhere (IsSettled env) out.atom ∧ ∀ depth' ≥ depth,
      out.atom.RemadeBy env.config.bitOrder (load env depth') around

namespace LoadSettles

theorem run (hpart : LoadSettles env depth) {frames : List (Frame κ)} {a : Atom κ} {layout : Layout κ}
    {s : LoadState κ} (hblank : a.IsBlank) {name : String} {offset : Nat}
    (hseat : a.info.seat = (Atom.blank 0 name (.bytes layout) offset).info.seat)
    (hsettable : layout.Settable env.rules) (hs : s.view.Coherent) :
    Ends (load env depth frames a) s (Outcome.Settling env depth (Frame.context frames) a.info s) := by
  have hlaid := laid_load env depth frames a s
  have haccounts := accounts_load env depth frames (.inl hblank.shaped) s
  exact ⟨harmless_load env depth frames a s, haccounts.shaped, fun hok => (hlaid hok).1,
    fun hok => Info.seat_of_site (hlaid hok).2,
    hpart (Info.layout_of_seat hseat) (Info.null_of_seat hseat) hsettable hs⟩

/-- A part that is loaded as a new atom, and what is done with it. -/
theorem bind {β : Type} (hpart : LoadSettles env depth) {frames : List (Frame κ)} {name : String}
    {layout : Layout κ} {offset : Nat} {next : Outcome κ → LoadM κ β} {s : LoadState κ}
    {post : β → LoadState κ → Prop} (hsettable : layout.Settable env.rules) (hs : s.view.Coherent)
    (hnext : ∀ out t, Outcome.Settling env depth (Frame.context frames)
      (Atom.blank 0 name (.bytes layout) offset).info s out t → Ends (next out) t post) :
    Ends (do
      let blank ← LoadM.ofLedger (LedgerM.spawn name (.bytes layout) offset)
      let out ← load env depth frames blank
      next out) s post := by
  refine (LoadM.after_spawn name (.bytes layout) offset s).bind fun blank t ht => ?_
  obtain ⟨hfresh, hblank, ht⟩ := ht
  refine (hpart.run hfresh hblank hsettable (ht.coherent hs)).bind fun out u hu =>
    hnext out u ⟨ht.trans hu.after, hu.shaped, hu.laid, fun hok => (hu.seat hok).trans hblank,
      fun hquiet => ?_⟩
  exact hu.settled (ht.quiet hu.after hquiet)

end LoadSettles

/-- A part that is made again as a new atom, and what is done with it. -/
theorem Atom.RemadeBy.bind {β : Type} {order : ByteOrder} {depth : Nat} {around : Context κ} {a : Atom κ}
    (h : a.RemadeBy order (load env depth) around) {frames : List (Frame κ)} {name : String} {layout : Layout κ}
    {offset : Nat} {next : Outcome κ → LoadM κ β} {w : LoadState κ} {post : β → LoadState κ → Prop}
    (hframes : Frame.context frames = around)
    (hseat : a.info.seat = (Atom.blank 0 name (.bytes layout) offset).info.seat)
    (hw : w.view.Gives offset (serialize order a))
    (hnext : ∀ b t, b.plain = a.plain → t.view.rewound = w.view.rewound → Ends (next ⟨b, none⟩) t post) :
    Ends (do
      let blank ← LoadM.ofLedger (LedgerM.spawn name (.bytes layout) offset)
      let out ← load env depth frames blank
      next out) w post := by
  have hoffset : a.info.offset = offset := Info.offset_of_seat hseat
  refine (LoadM.after_spawn name (.bytes layout) offset w).bind fun blank t ht => ?_
  obtain ⟨-, hblank, ht⟩ := ht
  have hgives : t.view.Gives a.info.offset (serialize order a) :=
    hoffset.symm ▸ hw.of_rewound ht.contents
  refine ((h frames blank t hframes (hblank.trans hseat.symm) hgives).kept
    (harmless_load env depth frames blank)).bind fun out u hu => ?_
  obtain ⟨b, error?⟩ := out
  obtain ⟨⟨hcomplete, hb⟩, hkept⟩ := hu
  cases hcomplete
  exact hnext b u hb (hkept.trans ht.contents)

/-! ## Arrays -/

theorem settled_loadCounted (hpart : LoadSettles env depth) {element : Layout κ}
    (helement : element.Settable env.rules) (frames : List (Frame κ)) (count : Nat) {f : Frame κ}
    (hright : f.right = []) (index cursor : Nat) {s : LoadState κ} (hs : s.view.Coherent) :
    Ends (loadCounted (load env depth) element frames count f index cursor) s fun out t =>
      t.ledger.unterminated = s.ledger.unterminated → out.error? = none →
        ∃ parts, out.atom = (f.filled parts).ready ∧ EverywhereIn (IsSettled env) parts
          ∧ ∀ depth' ≥ depth, ∀ (frames' : List (Frame κ)) {f' : Frame κ} {w : LoadState κ},
            f'.plain = f.plain → w.view.Gives cursor (serializeAll env.config.bitOrder parts) →
              Ends (loadCounted (load env depth') element frames' count f' index cursor) w fun out' _ =>
                out'.Remakes (f.filled parts) := by
  induction count generalizing f index cursor s with
  | zero =>
    refine Ends.pure fun _ _ => ⟨[], ?_, trivial, fun depth' _ frames' f' w hf _ => Ends.pure ⟨rfl, ?_⟩⟩
    · rw [Frame.close_eq_filled hright]
    · rw [plain_ready, Frame.close_of_plain hf, Frame.close_eq_filled hright]
  | succ count ih =>
    rw [loadCounted]
    refine hpart.bind helement hs fun out t ht => ?_
    obtain ⟨a, _ | e⟩ := out
    · dsimp only
      split
      · exact Ends.pure fun _ h => by cases h
      · rename_i next hspan
        obtain ⟨rfl, -⟩ := spanEnd_eq hspan
        refine Ends.quietly (harmless_loadCounted (harmless_load env depth) _ _ _ _ _ _) ht.after.warnings
          fun hquiet => (ih (f := f.push a) hright (index + 1) (cursor + a.size)
            (ht.after.coherent hs)).mono fun out u hu hrest hok => ?_
        obtain ⟨hsteady, hagain⟩ := ht.settled hquiet rfl
        obtain ⟨parts, hatom, hparts, hmore⟩ := hu hrest hok
        rw [Frame.filled_push] at hatom
        refine ⟨a :: parts, hatom, ⟨hsteady, hparts⟩, fun depth' hdepth frames' f' w hf hw => ?_⟩
        rw [serializeAll] at hw
        have hrest := hw.rest
        rw [length_serialize _ a (ht.laid rfl)] at hrest
        refine (hagain depth' hdepth).bind (Frame.context_cons_of_plain hf _ _) (ht.seat rfl) hw.front
          fun b x hb hx => ?_
        have hfinal := hmore depth' hdepth frames' (Frame.push_of_plain hf hb) (hrest.of_rewound hx)
        rw [Frame.filled_push] at hfinal
        dsimp only
        rw [size_of_plain hb, hspan]
        exact hfinal
    · exact Ends.pure fun _ h => by cases h

theorem settled_loadOpen (hpart : LoadSettles env depth) {element : Layout κ} (helement : element.Settable env.rules)
    {rule : κ} (hrule : env.rules.SeesSoFar rule) (frames : List (Frame κ)) {around : Context κ}
    (haround : env.rules.SeesElement rule ∨ Frame.context frames = around) (budget : Nat) {f : Frame κ}
    (hright : f.right = []) (index cursor : Nat) {s : LoadState κ} (hs : s.view.Coherent) :
    Ends (loadOpen env (load env depth) element (some rule) frames budget f index cursor) s fun out t =>
      t.ledger.unterminated = s.ledger.unterminated → out.error? = none →
        ∃ parts, out.atom = (f.filled parts).ready ∧ EverywhereIn (IsSettled env) parts
          ∧ ∀ depth' ≥ depth, ∀ {frames' : List (Frame κ)} {f' : Frame κ} {w : LoadState κ},
            Frame.context frames' = around → f'.plain = f.plain →
              w.view.Gives cursor (serializeAll env.config.bitOrder parts) →
                Ends (loadOpen env (load env depth') element (some rule) frames' budget f' index cursor) w
                  fun out' _ => out'.Remakes (f.filled parts) := by
  have hends (end? : Option Nat) (cursor : Nat) : endsAt (some rule) end? cursor = false := rfl
  induction budget generalizing f index cursor s with
  | zero => exact Ends.pure fun _ h => by cases h
  | succ budget ih =>
    rw [loadOpen]
    refine LoadM.goes_viewEnd.bind fun end? s' hs' => ?_
    subst hs'
    rw [hends]
    refine hpart.bind helement hs fun out t ht => ?_
    obtain ⟨a, _ | e⟩ := out
    · dsimp only
      split
      · exact Ends.pure fun _ h => by cases h
      · rename_i next hspan
        obtain ⟨rfl, -⟩ := spanEnd_eq hspan
        have hbytes : a.isBits = false := by
          rw [isBits, Info.layout_of_seat (ht.seat rfl)]
          rfl
        have hlast {b : Atom κ} (hb : b.plain = a.plain) {f' : Frame κ} (hf : f'.plain = f.plain)
            {frames' : List (Frame κ)} (hframes : Frame.context frames' = around) :
            isLast env (some rule) (index + 1) ⟨b, f' :: frames'⟩ =
              isLast env (some rule) (index + 1) ⟨a, f :: frames⟩ := by
          rcases haround with hfree | haround
          · exact (hfree hbytes ht.shaped hb.symm).symm
          · exact (hrule hbytes ht.shaped hb.symm hf.symm (haround.trans hframes.symm)).symm
        split
        · rename_i haccepted
          refine Ends.pure fun hquiet _ => ?_
          obtain ⟨hsteady, hagain⟩ := ht.settled hquiet rfl
          have hfilled : f.plug a = f.filled [a] := by
            rw [← Frame.close_push, Frame.close_eq_filled (f := f.push a) hright, Frame.filled_push]
          refine ⟨[a], by rw [hfilled], ⟨hsteady, trivial⟩, fun depth' hdepth frames' f' w hframes hf hw => ?_⟩
          rw [loadOpen]
          refine LoadM.goes_viewEnd.bind fun end? w' hw' => ?_
          subst hw'
          rw [hends]
          refine (hagain depth' hdepth).bind (Frame.context_cons_of_plain hf _ _) (ht.seat rfl) hw.front
            fun b x hb hx => ?_
          dsimp only
          rw [size_of_plain hb, hspan]
          dsimp only
          rw [hlast hb hf hframes, if_pos haccepted]
          refine Ends.pure ⟨rfl, ?_⟩
          rw [plain_ready, ← hfilled, Frame.plug_of_plain hf hb]
        · rename_i hmore
          refine Ends.quietly (harmless_loadOpen env (harmless_load env depth) _ _ _ _ _ _ _)
            ht.after.warnings fun hquiet => (ih (f := f.push a) hright (index + 1) (cursor + a.size)
              (ht.after.coherent hs)).mono fun out u hu hrest hok => ?_
          obtain ⟨hsteady, hagain⟩ := ht.settled hquiet rfl
          obtain ⟨parts, hatom, hparts, hothers⟩ := hu hrest hok
          rw [Frame.filled_push] at hatom
          refine ⟨a :: parts, hatom, ⟨hsteady, hparts⟩, fun depth' hdepth frames' f' w hframes hf hw => ?_⟩
          rw [serializeAll] at hw
          have hrest := hw.rest
          rw [length_serialize _ a (ht.laid rfl)] at hrest
          rw [loadOpen]
          refine LoadM.goes_viewEnd.bind fun end? w' hw' => ?_
          subst hw'
          rw [hends]
          refine (hagain depth' hdepth).bind (Frame.context_cons_of_plain hf _ _) (ht.seat rfl) hw.front
            fun b x hb hx => ?_
          have hfinal := hothers depth' hdepth hframes (Frame.push_of_plain hf hb) (hrest.of_rewound hx)
          rw [Frame.filled_push] at hfinal
          dsimp only
          rw [size_of_plain hb, hspan]
          dsimp only
          rw [hlast hb hf hframes, if_neg hmore]
          exact hfinal
    · -- An element that could not be loaded fails the array, or there is a warning.
      have hbefore := Aftermath.unterminated ht.after.warnings
      refine (ends_dropElement a frames f index e (b := ⟨0, s'.ledger.unterminated, []⟩) hbefore).mono
        fun out u hu hquiet hok => ?_
      rcases hu with ⟨e', herror⟩ | hloud
      · cases herror.symm.trans hok
      · exact absurd hquiet (Nat.ne_of_gt hloud)

/-! ### Block arrays -/

/-- If the bytes ran out the first time, they ran out both times. -/
theorem Outcome.Echo.isConsume {out out' : Outcome κ} (h : out.Echo out') {e : Error}
    (herror : out.error? = some e) (he : e.isConsume = true) :
    ∃ e', out'.error? = some e' ∧ e'.isConsume = true := by
  cases h with
  | same => cases herror
  | short _ he' => exact ⟨_, rfl, he'⟩
  | lost hlost =>
    cases herror
    exact absurd he (hlost ▸ Bool.false_ne_true)

/-- Loading an element through a window runs out of bytes again, if it did, in every view that gives the
same bytes up to the end of the window. -/
def Outcome.DroppedAgain (env : Env κ) (depth : Nat) (around : Context κ) (blank : Info κ) (limit : Nat) (s : LoadState κ)
    (out : Outcome κ) : Prop :=
  ∀ e, out.error? = some e → e.isConsume = true → ∀ depth' ≥ depth,
    ∀ (frames : List (Frame κ)) (blank' : Atom κ) (w : LoadState κ), Frame.context frames = around →
      blank'.info.seat = blank.seat →
      (s.view.window limit 0).Echoes blank.offset (w.view.window limit 0) →
        Ends (LoadM.inWindow limit (load env depth' frames blank')) w fun out' _ =>
          ∃ e', out'.error? = some e' ∧ e'.isConsume = true

theorem rewound_window_of {v w : View} (h : v.rewound = w.rewound) (limit i j : Nat) :
    (v.window limit i).rewound = (w.window limit j).rewound :=
  congrArg (fun u : View => u.window limit 0) h

theorem droppedAgain_inWindow {frames : List (Frame κ)} {a : Atom κ}
    {layout : Layout κ} (hlayout : a.info.layout = .bytes layout) (hsettable : layout.Settable env.rules)
    (limit : Nat) (s : LoadState κ) :
    Ends (LoadM.inWindow limit (load env depth frames a)) s fun out _ =>
      out.DroppedAgain env depth (Frame.context frames) a.info limit s := by
  intro e herror he depth' hdepth frames' blank' w hframes hseat hechoes
  have hwindows : LoadState.Echoes a.info.offset { s with reader := .window s.reader limit 0 }
      { w with reader := .window w.reader limit 0 } := hechoes
  have hboth := (echo_load env hdepth).echo hframes.symm hseat.symm hlayout hsettable (Nat.le_refl _) hwindows
  exact Outcome.Echo.isConsume hboth herror he

/-- An element that is loaded through a window as a new atom, and what is done with it. -/
theorem LoadSettles.bindInside {β : Type} (hpart : LoadSettles env depth)
    {frames : List (Frame κ)} {name : String} {layout : Layout κ} {offset limit : Nat}
    {next : Outcome κ → LoadM κ β} {s : LoadState κ} {post : β → LoadState κ → Prop}
    (hsettable : layout.Settable env.rules) (hs : s.view.Coherent)
    (hnext : ∀ out t, Outcome.Settling env depth (Frame.context frames)
      (Atom.blank 0 name (.bytes layout) offset).info s out t →
        (out.error? = none → offset + out.atom.size ≤ max offset limit) →
        out.DroppedAgain env depth (Frame.context frames) (Atom.blank 0 name (.bytes layout) offset).info limit s →
          Ends (next out) t post) :
    Ends (do
      let blank ← LoadM.ofLedger (LedgerM.spawn name (.bytes layout) offset)
      let out ← LoadM.inWindow limit (load env depth frames blank)
      next out) s post := by
  refine (LoadM.after_spawn name (.bytes layout) offset s).bind fun blank t ht => ?_
  obtain ⟨hfresh, hblank, ht⟩ := ht
  have hlayout : blank.info.layout = .bytes layout := Info.layout_of_seat hblank
  have hoffset : blank.info.offset = offset := Info.offset_of_seat hblank
  have hcoherent := ht.coherent hs
  have hinside : Ends (LoadM.inWindow limit (load env depth frames blank)) t fun out u =>
      Outcome.Settling env depth (Frame.context frames) blank.info t out u
        ∧ (out.error? = none → offset + out.atom.size ≤ max offset limit) := by
    have hrun : Outcome.Settling env depth (Frame.context frames) blank.info
        { t with reader := .window t.reader limit 0 } _ _ :=
      hpart.run hfresh hblank hsettable (hcoherent.window limit 0)
    have hhonours := honours_load env depth frames blank { t with reader := .window t.reader limit 0 }
    refine ⟨⟨LoadM.harmless_inWindow limit (harmless_load env depth frames blank) t, hrun.shaped, hrun.laid,
      hrun.seat, hrun.settled⟩, fun hok => ?_⟩
    have hlimits := hhonours.inside hok limit (List.mem_cons_self ..)
    rw [hoffset] at hlimits
    exact hlimits
  refine (hinside.and (droppedAgain_inWindow hlayout hsettable limit t)).bind fun out u hu => ?_
  obtain ⟨⟨hsettling, hinside⟩, hdrops⟩ := hu
  refine hnext out u ⟨ht.trans hsettling.after, hsettling.shaped, hsettling.laid,
    fun hok => (hsettling.seat hok).trans hblank,
    fun hquiet => hsettling.settled (ht.quiet hsettling.after hquiet)⟩ hinside ?_
  intro e herror he depth' hdepth frames' blank' w hframes hseat hechoes
  refine hdrops e herror he depth' hdepth frames' blank' w hframes (hseat.trans hblank.symm) ?_
  rw [hoffset]
  exact hechoes.of_rewound (rewound_window_of ht.contents limit 0 0) rfl

/-- An element that is made again through a window, and what is done with it. -/
theorem Atom.RemadeBy.bindInside {β : Type} {order : ByteOrder} {depth : Nat} {around : Context κ} {a : Atom κ}
    (h : a.RemadeBy order (load env depth) around) {frames : List (Frame κ)} {name : String} {layout : Layout κ}
    {offset limit : Nat} {next : Outcome κ → LoadM κ β} {w : LoadState κ} {post : β → LoadState κ → Prop}
    (hframes : Frame.context frames = around)
    (hseat : a.info.seat = (Atom.blank 0 name (.bytes layout) offset).info.seat)
    (hw : w.view.Gives offset (serialize order a)) (hlimit : offset + (serialize order a).length ≤ limit)
    (hnext : ∀ b t, b.plain = a.plain → t.view.rewound = w.view.rewound → Ends (next ⟨b, none⟩) t post) :
    Ends (do
      let blank ← LoadM.ofLedger (LedgerM.spawn name (.bytes layout) offset)
      let out ← LoadM.inWindow limit (load env depth frames blank)
      next out) w post := by
  have hoffset : a.info.offset = offset := Info.offset_of_seat hseat
  refine (LoadM.after_spawn name (.bytes layout) offset w).bind fun blank t ht => ?_
  obtain ⟨-, hblank, ht⟩ := ht
  have hgives : t.view.Gives offset (serialize order a) := hw.of_rewound ht.contents
  have hmade : Ends (LoadM.inWindow limit (load env depth frames blank)) t fun out _ => out.Remakes a :=
    h frames blank { t with reader := .window t.reader limit 0 } hframes (hblank.trans hseat.symm)
      (hoffset.symm ▸ hgives.window hlimit 0)
  refine (hmade.kept (LoadM.harmless_inWindow limit (harmless_load env depth frames blank))).bind
    fun out u hu => ?_
  obtain ⟨b, error?⟩ := out
  obtain ⟨⟨hcomplete, hb⟩, hkept⟩ := hu
  cases hcomplete
  exact hnext b u hb (hkept.trans ht.contents)

/-- An element that is dropped again, and what is done then. -/
theorem Outcome.DroppedAgain.bind {β : Type} {around : Context κ} {limit : Nat} {name : String} {layout : Layout κ} {offset : Nat}
    {s : LoadState κ} {a : Atom κ} {e : Error}
    (h : Outcome.DroppedAgain env depth around (Atom.blank 0 name (.bytes layout) offset).info limit s
      ⟨a, some e⟩)
    (he : e.isConsume = true) {depth' : Nat} (hdepth : depth ≤ depth') {frames : List (Frame κ)}
    (hframes : Frame.context frames = around) {next : Outcome κ → LoadM κ β} {w : LoadState κ}
    {post : β → LoadState κ → Prop}
    (hechoes : (s.view.window limit 0).Echoes offset (w.view.window limit 0))
    (hnext : ∀ b e' t, e'.isConsume = true → Ends (next ⟨b, some e'⟩) t post) :
    Ends (do
      let blank ← LoadM.ofLedger (LedgerM.spawn name (.bytes layout) offset)
      let out ← LoadM.inWindow limit (load env depth' frames blank)
      next out) w post := by
  refine (LoadM.after_spawn name (.bytes layout) offset w).bind fun blank t ht => ?_
  obtain ⟨-, hblank, ht⟩ := ht
  refine (h e rfl he depth' hdepth frames blank t hframes hblank
    (hechoes.of_rewound rfl (rewound_window_of ht.contents limit 0 0))).bind fun out u hu => ?_
  obtain ⟨b, error?⟩ := out
  obtain ⟨e', herror, he'⟩ := hu
  cases herror
  exact hnext b e' u he'

end Load

end BinaryLayout
