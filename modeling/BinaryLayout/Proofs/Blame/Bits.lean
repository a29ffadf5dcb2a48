import BinaryLayout.Proofs.Blame.Basic
import BinaryLayout.Proofs.Load.Bits

/-!
# Which atom of bits failed

Whatever reads or measures knows nothing of atoms. Its errors name none; it is up to the atom that wanted
the bytes to say where it stands.

An error of an atom of bits comes from a place that failed, at or below the atom. Where bits are read its
path leads there. Default content of bits passes on the errors of parts as they are, and their places are
unnamed.

## Main definitions

* `Except.IsBare`: the error of a result names no atom yet.

## Main statements

* `LoadM.isBare_readLeaf`, `BitLoadM.isBare_read`: reading bytes and bits.
* `Layout.isBare_defaultBytes`: default bytes.
* `blaming_loadBits`, `blaming_allocateBits`: atoms of bits that are read and that get default content.
-/

namespace BinaryLayout

section Bare

variable {κ α β : Type}

namespace Error

theorem bare_initialization (fault : InitializationFault) : (initialization fault).Bare :=
  fun _ _ h => by cases h; rfl

theorem bare_consume (offset desired got : Nat) : (consume offset desired got).Bare :=
  fun _ _ h => by cases h; rfl

theorem bare_ofSource (e : SourceError) : (ofSource e).Bare := by
  intro path problem h
  cases e <;> cases h <;> rfl

end Error

open Error

/-- The error of the result, if there is one, names no atom yet. -/
def IsBare (result : Except Error α) : Prop := ∀ e, result = .error e → e.Bare

theorem isBare_ok (a : α) : IsBare (.ok a) := fun _ h => nomatch h

theorem isBare_error {e : Error} (h : e.Bare) : IsBare (.error e : Except Error α) :=
  fun _ he => by cases he; exact h

theorem IsBare.map {result : Except Error α} (h : IsBare result) (f : α → β) : IsBare (result.map f) := by
  cases result with
  | ok a => exact isBare_ok _
  | error e => exact isBare_error (h e rfl)

theorem isBare_ofSource (result : Except SourceError α) : IsBare (result.mapError ofSource) := by
  cases result with
  | ok a => exact isBare_ok a
  | error e => exact isBare_error (bare_ofSource e)

/-! ## Measures -/

theorem isBare_spanEnd (offset amount : Nat) : IsBare (spanEnd offset amount) := by
  rw [spanEnd]
  split
  · exact isBare_ok _
  · exact isBare_error (bare_consume offset amount 0)

theorem isBare_unitBytes (count unit : Nat) : IsBare (unitBytes count unit) := by
  rw [unitBytes]
  split
  · exact isBare_ok _
  · exact isBare_error (bare_initialization _)

theorem isBare_bitPosition (offset : Nat) : IsBare (bitPosition offset) := by
  rw [bitPosition]
  split
  · exact isBare_ok _
  · exact isBare_error (bare_initialization _)

theorem Layout.isBare_defaultBytes (config : Config) (frames : List (Frame κ)) (layout : Layout κ)
    (offset : Nat) : IsBare (layout.defaultBytes config frames offset) := by
  cases layout with
  | int | float | fixed | varint | block | constant | padding | align | pointer => exact isBare_ok _
  | record | array | union | bits => exact isBare_error (bare_initialization _)
  | text format =>
    rw [defaultBytes, TextFormat.defaultBytes]
    split
    · exact (isBare_unitBytes _ _).map _
    · exact isBare_ok _
    · exact isBare_ok _

/-! ## Reading bytes -/

namespace LoadM

theorem isBare_seekTo (offset amount : Nat) (s : LoadState κ) :
    Ends (seekTo offset amount) s fun result _ => IsBare result := by
  simp only [Ends, seekTo, modifyGet, MonadStateOf.modifyGet, StateT.modifyGet, Pure.pure]
  generalize s.reader.seek s.sources offset = step
  obtain ⟨cause | _, _⟩ := step
  · cases cause with
    | outOfBounds => exact isBare_error (bare_consume offset amount 0)
    | _ => exact isBare_error (bare_ofSource _)
  · exact isBare_ok _

theorem isBare_readAt (offset amount : Nat) (s : LoadState κ) :
    Ends (readAt offset amount) s fun result _ => IsBare result := by
  rw [readAt]
  split
  · exact Ends.pure (isBare_ok _)
  · refine (isBare_seekTo offset amount s).bind fun result t hseek => ?_
    split
    · exact Ends.pure (isBare_error (hseek _ rfl))
    · exact (Ends.trivial _ t).bind fun read u _ => Ends.pure (isBare_ofSource read)

theorem isBare_readGroups (budget : Nat) (read : Bytes) (s : LoadState κ) :
    Ends (readGroups budget read) s fun result _ => IsBare result := by
  induction budget generalizing read s with
  | zero => exact Ends.pure (isBare_error (bare_initialization _))
  | succ budget ih =>
    rw [readGroups]
    refine (Ends.trivial _ s).bind fun result t _ => ?_
    split
    · exact Ends.pure (isBare_error (bare_ofSource _))
    · split
      · exact ih _ t
      · exact Ends.pure (isBare_ok _)

theorem isBare_readVarint (offset : Nat) (s : LoadState κ) :
    Ends (readVarint offset) s fun result _ => IsBare result := by
  refine (isBare_seekTo offset 1 s).bind fun result t hseek => ?_
  split
  · exact Ends.pure (isBare_error (hseek _ rfl))
  · exact isBare_readGroups 19 [] t

theorem isBare_readUnits (unit limit budget : Nat) (read : Bytes) (s : LoadState κ) :
    Ends (readUnits unit limit budget read) s fun result _ => IsBare result := by
  induction budget generalizing read s with
  | zero => exact Ends.pure (isBare_error (bare_initialization _))
  | succ budget ih =>
    rw [readUnits]
    refine (Ends.trivial _ s).bind fun result t _ => ?_
    split
    · exact Ends.pure (isBare_error (bare_ofSource _))
    · dsimp only
      split
      · exact Ends.pure (isBare_ok _)
      · exact ih _ t

theorem isBare_readText (format : TextFormat) (limit offset : Nat) (s : LoadState κ) :
    Ends (readText format limit offset) s fun result _ => IsBare result := by
  rw [readText]
  dsimp only
  split
  · split
    · rename_i e he
      exact Ends.pure (isBare_error (isBare_unitBytes _ _ e he))
    · exact isBare_readAt offset _ s
  · refine (isBare_seekTo offset _ s).bind fun result t hseek => ?_
    split
    · exact Ends.pure (isBare_error (hseek _ rfl))
    · exact isBare_readUnits _ limit _ [] t
  · refine (isBare_readAt offset _ s).bind fun result t hfront => ?_
    split
    · exact Ends.pure (isBare_error (hfront _ rfl))
    · split
      · exact Ends.pure (isBare_error (bare_initialization _))
      · split
        · exact Ends.pure (isBare_error (isBare_spanEnd _ _ _ ‹_›))
        · exact Ends.pure (isBare_error (isBare_unitBytes _ _ _ ‹_›))
        · exact (isBare_readAt _ _ t).bind fun rest u hrest => Ends.pure (hrest.map _)

/-- Reading the bytes of a layout without parts. -/
theorem isBare_readLeaf (config : Config) (frames : List (Frame κ)) (layout : Layout κ) (offset : Nat)
    (s : LoadState κ) :
    Ends (readLeaf config frames layout offset) s fun result _ => IsBare result := by
  cases layout with
  | int | float | fixed | block | padding | constant | align | pointer => exact isBare_readAt offset _ s
  | varint => exact isBare_readVarint offset s
  | text format => exact isBare_readText format _ offset s
  | record | array | union | bits => exact Ends.pure (isBare_error (bare_initialization _))

end LoadM

/-! ## Reading bits -/

namespace BitLoadM

theorem bare_fetchError (next : Nat) (e : SourceError) : (fetchError next e).Bare := by
  cases e with
  | consume => exact bare_consume _ _ _
  | io reason => exact bare_ofSource (.io reason)
  | outOfBounds offset size => exact bare_ofSource (.outOfBounds offset size)
  | store offset desired written => exact bare_ofSource (.store offset desired written)
  | readOnly => exact bare_ofSource .readOnly
  | poisoned => exact bare_ofSource .poisoned

theorem isBare_fetch (s : BitLoadState κ) : Ends fetch s fun result _ => IsBare result := by
  refine ends_fetch ?_
  rw [Ends]
  cases (LoadM.next 1 s.base).1 with
  | ok bytes => exact isBare_ok _
  | error e => exact isBare_error (bare_fetchError _ _)

/-- Reading a field of so many bits. -/
theorem isBare_read (width : Nat) (s : BitLoadState κ) :
    Ends (read width) s fun result _ => IsBare result := by
  refine (ends_read (fun _ _ => True) (fun _ _ => True) (fun e _ => e.Bare)
    (fun _ t _ _ _ => (isBare_fetch t).mono fun result _ hresult => ?_) (fun _ _ _ _ => trivial)
    (fun _ _ _ _ _ _ _ => trivial) trivial).mono fun result t ht => ?_
  · cases result with
    | ok _ => trivial
    | error e => exact hresult e rfl
  · cases result with
    | ok value => exact isBare_ok _
    | error e => exact isBare_error ht

end BitLoadM

end Bare

variable {κ : Type} {env : Env κ} {base : View} {depth : Nat}

open Atom

/-! ## Where the next bits are -/

/-- The last offset stays the last one. -/
theorem satAdd_satAdd (position amount : Nat) :
    satAdd (satAdd position 0) amount = satAdd (position + amount) 0 := by
  simp only [satAdd]
  omega

namespace BitLoadState.Reads

variable {v : View} {order? : Option ByteOrder} {position : Nat} {s : BitLoadState κ}

theorem ofLedger {α : Type} (m : LedgerM κ α) (hs : s.Reads v order? position) :
    Ends (BitLoadM.ofLedger m) s fun _ t => t.Reads v order? position :=
  ⟨hs.view, hs.order, hs.place⟩

/-- Where nothing more can be read every position is as good as another. -/
theorem of_dry (hview : s.base.view.rewound = v) (horder : order? = some s.order)
    (h : s.pending = [] ∧ s.Dry) (position : Nat) : s.Reads v order? position :=
  ⟨hview, horder, .inr h⟩

end BitLoadState.Reads

namespace BitLoadM

/-- A byte that was fetched is the one at which the view stood. -/
theorem standsAt_fetch {s : BitLoadState κ} (hs : s.base.view.StandsAt s.next) :
    Ends fetch s fun result t => result = .ok () → t.base.view.StandsAt t.next := by
  refine ends_fetch ?_
  have hread := (View.consume_given hs 1).2
  rw [Ends]
  cases hnext : (LoadM.next 1 s.base).1 with
  | ok bytes => exact fun _ => hread bytes hnext
  | error e => exact fun h => by cases h

/-- A field that was read, and where the next bits are. -/
theorem reads_read (width : Nat) {v : View} {order? : Option ByteOrder} {position : Nat} {s : BitLoadState κ}
    (hs : s.Reads v order? position) :
    Ends (read width) s fun result t =>
      match result with
      | .ok value => value.width = width ∧ t.Reads v order? (position + width)
      | .error _ => ∀ position', t.Reads v order? position' := by
  refine (ends_read (fun done t => t.Reads v order? (position + done.length))
    (fun done t => t.Reads v order? (position + done.length))
    (fun _ t => ∀ position', t.Reads v order? position') (fun done t _ ht hnone => ?_) (fun _ _ ht _ => ht)
    (fun done t count hpos hle _ ht => ⟨ht.view, ht.order, ?_⟩) hs).mono fun result t ht => ?_
  · have hnil := t.pending_eq_nil.2 hnone
    have hfetch := (((aligned_fetch t hnil).and (order_fetch t)).and (harmless_fetch t)).and
      (Ends.trivial fetch t)
    refine hfetch.mono fun result u hu => ?_
    obtain ⟨⟨⟨hdry, horder, hnext⟩, hkept⟩, hrun⟩ := hu
    have hview : u.base.view.rewound = v := hkept.contents.trans ht.view
    have hsame : order? = some u.order := by rw [ht.order, horder]
    cases result with
    | error e => exact BitLoadState.Reads.of_dry hview hsame hdry
    | ok _ =>
      obtain ⟨hstands, hplace⟩ := ht.place.resolve_right fun h => hdry h.2
      have hfetched := standsAt_fetch hstands
      rw [Ends, ← hrun] at hfetched
      refine ⟨hview, hsame, .inl ⟨hfetched rfl, ?_⟩⟩
      have hlength := u.length_pending
      rw [hnil, List.length_nil] at hplace
      omega
  · refine ht.place.imp (fun h => ⟨h.1, ?_⟩) fun h => ⟨?_, h.2⟩
    · have hplace := h.2
      have hlength := t.length_pending
      simp only [BitLoadState.pending_skip, BitLoadState.next_skip, List.length_drop, List.length_append,
        List.length_take]
      omega
    · rw [BitLoadState.pending_skip, h.1, List.drop_nil]
  · cases result with
    | error e => exact ht
    | ok value =>
      obtain ⟨bits, hlength, rfl, -, ht⟩ := ht
      exact ⟨by simp [hlength], hlength ▸ ht⟩

end BitLoadM

/-- What filling an atom of bits leaves of the view: the bits after those of the atom, or none if it ran
out of bytes. -/
structure Outcome.ReadsOn (v : View) (order? : Option ByteOrder) (position : Nat) (out : Outcome κ)
    (t : BitLoadState κ) : Prop where
  ok : out.error? = none → t.Reads v order? (position + out.atom.bitCount)
  short : ∀ e, out.error? = some e → e.isConsume = true → ∀ position', t.Reads v order? position'

namespace Outcome.ReadsOn

variable {v : View} {order? : Option ByteOrder} {position : Nat} {a : Atom κ} {e : Error} {t : BitLoadState κ}

/-- A failure that has nothing to do with the view. -/
theorem of_other (he : e.isConsume = false) : Outcome.ReadsOn v order? position ⟨a, some e⟩ t :=
  ⟨nofun, fun _ h hconsume => by cases h; rw [he] at hconsume; cases hconsume⟩

theorem of_short (h : ∀ position', t.Reads v order? position') :
    Outcome.ReadsOn v order? position ⟨a, some e⟩ t :=
  ⟨nofun, fun _ _ _ => h⟩

/-- An atom that is complete. -/
theorem of_ready (h : t.Reads v order? (position + a.bitCount)) :
    Outcome.ReadsOn v order? position ⟨a.ready, none⟩ t :=
  ⟨fun _ => by rw [bitCount_ready]; exact h, nofun⟩

/-- The failure of a part, seen from its container. -/
theorem within {out : Outcome κ} {position' : Nat} (h : out.ReadsOn v order? position t)
    (herror : out.error? = some e) (path : Path) :
    Outcome.ReadsOn v order? position' ⟨a, some (e.within path)⟩ t :=
  ⟨nofun, fun _ he hconsume => h.short e herror (by
    cases he
    rwa [Error.isConsume_within] at hconsume)⟩

end Outcome.ReadsOn

/-- Reading a blank atom of bits at most `depth` layouts deep fails only where a place failed. -/
def BlamingBits (env : Env κ) (base : View) (depth : Nat) (part : LoadPart (BitLoadM κ) κ) : Prop :=
  ∀ frames a position s, frames.length + depth = Layout.nestingLimit → a.IsBlank → a.isBits = true →
    a.info.extent? = none → a.info.offset = satAdd position 0 →
    s.Reads (Place.viewIn base frames a.info) (Frame.order? frames) position →
    Ends (part frames a) s fun out t => out.Blames env base .load frames a.info
      ∧ out.ReadsOn (Place.viewIn base frames a.info) (Frame.order? frames) position t

/-! ## Reading -/

/-- The parts of an atom of bits are read from the same view, in the same order. -/
theorem Frame.view_of_bits {f : Frame κ} {layout : BitLayout κ} (hlayout : f.info.layout = .bits layout)
    (base : View) (frames : List (Frame κ)) (part : Info κ) :
    Place.viewIn base (f :: frames) part = Place.viewIn base frames f.info
      ∧ Frame.order? (f :: frames) = Frame.order? frames := by
  rw [Place.viewIn, Frame.viewOf, Frame.order?, List.findSome?_cons, hlayout]
  exact ⟨rfl, rfl⟩

/-- What is read in a frame of bits, from a position on. -/
structure Frame.Reads (base : View) (frames : List (Frame κ)) (f : Frame κ) (position cursor : Nat)
    (s : BitLoadState κ) : Prop where
  content : f.content = .group
  next : f.next = cursor
  cursor : cursor = satAdd (position + f.close.bitCount) 0
  state : s.Reads (Place.viewIn base frames f.info) (Frame.order? frames) (position + f.close.bitCount)

namespace Frame.Reads

variable {f : Frame κ} {frames : List (Frame κ)} {index position cursor : Nat} {s t : BitLoadState κ}

theorem start {a : Atom κ} (hoffset : a.info.offset = satAdd position 0)
    (hs : s.Reads (Place.viewIn base frames a.info) (Frame.order? frames) position) :
    (a.fill .group []).frame.Reads base frames position a.info.offset s :=
  ⟨rfl, rfl, hoffset, hs⟩

theorem ofLedger {α : Type} (m : LedgerM κ α) (hs : f.Reads base frames position cursor s) :
    Ends (BitLoadM.ofLedger m) s fun _ t => f.Reads base frames position cursor t :=
  ⟨hs.content, hs.next, hs.cursor, hs.state.ofLedger m⟩

/-- A complete atom. -/
theorem ready (hs : f.Reads base frames position cursor s) :
    Outcome.Blames env base .load frames f.info ⟨f.close.ready, none⟩
      ∧ Outcome.ReadsOn (Place.viewIn base frames f.info) (Frame.order? frames) position
        ⟨f.close.ready, none⟩ s :=
  ⟨Outcome.blames_ready f, .of_ready hs.state⟩

variable {layout : BitLayout κ} (hlayout : f.info.layout = .bits layout)

include hlayout

theorem inside (hs : f.Reads base frames position cursor s) (part : Info κ) :
    s.Reads (Place.viewIn base (f :: frames) part) (Frame.order? (f :: frames))
      (position + f.close.bitCount) := by
  obtain ⟨hview, horder⟩ := view_of_bits hlayout base frames part
  rw [hview, horder]
  exact hs.state

/-- One part after another. -/
theorem push (hs : f.Reads base frames position cursor s) (hright : f.right = []) {out : Outcome κ}
    (hbits : out.atom.isBits = true) (hoffset : out.atom.info.offset = cursor) (herror : out.error? = none)
    (ht : out.ReadsOn (Place.viewIn base frames f.info) (Frame.order? frames) (position + f.close.bitCount) t) :
    (f.push out.atom).Reads base frames position (satAdd cursor out.atom.bits) t := by
  have hcount := Frame.bitCount_push hs.content hright out.atom
  refine ⟨hs.content, ?_, ?_, ?_⟩
  · show satAdd out.atom.info.offset (out.atom.step f.info.layout.isBits) = _
    rw [hoffset, hlayout]
    rfl
  · rw [hcount, hs.cursor, satAdd_satAdd, ← Nat.add_assoc, bits, if_pos hbits]
  · rw [hcount, ← Nat.add_assoc]
    exact ht.ok herror

end Frame.Reads

section Load

variable {part : LoadPart (BitLoadM κ) κ} (hpart : BlamingBits env base depth part)
  (frames : List (Frame κ)) (hdepth : frames.length + 1 + depth = Layout.nestingLimit)

include hpart hdepth

/-- A new part of an atom of bits. -/
theorem blames_loadBitPart (name : String) (inner : BitLayout κ) {f : Frame κ} {layout : BitLayout κ}
    {index position cursor : Nat} (hlayout : f.info.layout = .bits layout) (hf : f.Has index) {s : BitLoadState κ}
    (hs : f.Reads base frames position cursor s) (id : Nat) :
    Ends (part (f :: frames) (.blank id name (.bits inner) cursor)) s fun out t =>
      out.Completes env base .load (f :: frames) (Atom.blank id name (.bits inner) cursor).info
        ∧ out.ReadsOn (Place.viewIn base frames f.info) (Frame.order? frames) (position + f.close.bitCount) t
        ∧ (out.error? = none → (f.push out.atom).Has (index + 1)
          ∧ (f.push out.atom).Reads base frames position (satAdd cursor out.atom.bits) t) := by
  refine (hpart (f :: frames) (.blank id name (.bits inner) cursor) _ s hdepth rfl rfl rfl hs.cursor
    (hs.inside hlayout _)).mono fun out t hout => ?_
  obtain ⟨hblames, hreads⟩ := hout
  have hcompletes := hblames.completes rfl
  obtain ⟨hview, horder⟩ := Frame.view_of_bits hlayout base frames
    (Atom.blank id name (.bits inner) cursor).info
  rw [hview, horder] at hreads
  refine ⟨hcompletes, hreads, fun herror => ⟨hf.push (hcompletes.complete herror), ?_⟩⟩
  refine hs.push hlayout hf.right ?_ (Info.offset_of_site hblames.site) herror hreads
  rw [isBits, Info.layout_of_site hblames.site]
  rfl

theorem blames_loadBitFields {name : String} {all : List (BitField κ (BitLayout κ))} {f : Frame κ}
    {index position cursor : Nat} (hlayout : f.info.layout = .bits (.record name all)) (hf : f.Has index)
    (fields : List (BitField κ (BitLayout κ))) (hfields : all.drop index = fields) {s : BitLoadState κ}
    (hs : f.Reads base frames position cursor s) :
    Ends (loadBitFields env part frames f index cursor fields) s fun out t =>
      out.Blames env base .load frames f.info
        ∧ out.ReadsOn (Place.viewIn base frames f.info) (Frame.order? frames) position t := by
  induction fields generalizing f index cursor s with
  | nil => exact Ends.pure hs.ready
  | cons field fields ih =>
    obtain ⟨hfield, hrest⟩ := next_of_drop hfields
    rw [loadBitFields]
    split
    · rename_i e hresolve
      refine Ends.pure ⟨Outcome.blames_close (hf.bitRule hlayout hfield hresolve), .of_other ?_⟩
      rw [Error.isConsume_within]
      exact Env.isConsume_resolveBits hresolve
    · rename_i layout _
      refine Ends.via (fun blank t => (∃ id, blank = .blank id field.name (.bits layout) cursor)
        ∧ f.Reads base frames position cursor t) ⟨⟨_, rfl⟩, hs.ofLedger _⟩ fun blank t ht => ?_
      obtain ⟨⟨id, rfl⟩, ht⟩ := ht
      refine (blames_loadBitPart hpart frames hdepth field.name layout hlayout hf ht id).bind fun out u hout => ?_
      obtain ⟨hcompletes, hreads, hnext⟩ := hout
      have hadds : f.Adds .load .load (Atom.blank id field.name (.bits layout) cursor).info field.name :=
        ⟨by rw [hlayout]; rfl, by rw [hlayout]; rfl, by rw [Place.segment, hlayout]; rfl⟩
      dsimp only
      split
      · rename_i e herror
        exact Ends.pure ⟨Outcome.blames_close (f := f.push out.atom) (hcompletes.within hf.right hadds herror),
          hreads.within herror _⟩
      · rename_i herror
        exact ih (f := f.push out.atom) hlayout (hnext herror).1 hrest (hnext herror).2

end Load

/-- The elements of an array of bits. The one that is given up was read as the next one. -/
theorem blames_loadBitElements (hpart : BlamingBits env base depth (loadBits env depth))
    (frames : List (Frame κ)) (hdepth : frames.length + 1 + depth = Layout.nestingLimit)
    {element : BitLayout κ} {shape : BitShape κ} {f : Frame κ} {index position cursor : Nat}
    (hlayout : f.info.layout = .bits (.array element shape)) (hf : f.Has index) (budget : Nat)
    (hbudget : index + budget = env.config.maxElements) {s : BitLoadState κ}
    (hs : f.Reads base frames position cursor s) :
    Ends (loadBitElements env (loadBits env depth) element shape frames budget f index cursor) s fun out t =>
      out.Blames env base .load frames f.info
        ∧ out.ReadsOn (Place.viewIn base frames f.info) (Frame.order? frames) position t := by
  induction budget generalizing f index cursor s with
  | zero =>
    rw [loadBitElements]
    split
    · exact Ends.pure hs.ready
    · exact Ends.pure ⟨Outcome.blames_close (hf.elementLimit (by rw [hlayout]; rfl) hbudget), .of_other rfl⟩
  | succ budget ih =>
    rw [loadBitElements]
    split
    · exact Ends.pure hs.ready
    · refine Ends.via (fun blank t => (∃ id, blank = .blank id (toString index) (.bits element) cursor)
        ∧ f.Reads base frames position cursor t) ⟨⟨_, rfl⟩, hs.ofLedger _⟩ fun blank t ht => ?_
      obtain ⟨⟨id, rfl⟩, ht⟩ := ht
      have hmade := (blames_loadBitPart hpart frames hdepth (toString index) element hlayout hf ht
        id).and (Ends.trivial _ t)
      refine hmade.bind fun out u hout => ?_
      obtain ⟨⟨hcompletes, hreads, hnext⟩, hrun⟩ := hout
      have hadds : f.Adds .load .load (Atom.blank id (toString index) (.bits element) cursor).info
          (Path.index index) :=
        ⟨by rw [hlayout]; rfl, by rw [hlayout]; rfl, by rw [Place.segment, hlayout]; rfl⟩
      split
      · rename_i herror _
        split
        · exact Ends.pure (hnext herror).2.ready
        · exact ih (f := f.push out.atom) hlayout (hnext herror).1 (by omega) (hnext herror).2
      · have herror : out.error? = some _ := ‹_›
        exact Ends.pure ⟨Outcome.blames_close (f := f.push out.atom) (hcompletes.within hf.right hadds herror),
          hreads.within herror _⟩
      · have herror : out.error? = some _ := ‹_›
        split
        · exact Ends.pure ⟨Outcome.blames_close (f := f.push out.atom)
            (hcompletes.within hf.right hadds herror), hreads.within herror _⟩
        · rename_i hconsume
          have hshort := hreads.short _ herror (by simpa using hconsume)
          refine Ends.via (fun _ v => ∀ position', v.Reads (Place.viewIn base frames f.info)
            (Frame.order? frames) position') (fun position' => (hshort position').ofLedger _) fun _ v hv => ?_
          refine Ends.via (fun _ w => ∀ position', w.Reads (Place.viewIn base frames f.info)
            (Frame.order? frames) position') hv fun bounded w hw => ?_
          split
          · refine Ends.via (fun _ x => ∀ position', x.Reads (Place.viewIn base frames f.info)
              (Frame.order? frames) position') (fun position' => (hw position').ofLedger _) fun _ x hx => ?_
            exact Ends.pure ⟨Outcome.blames_ready f, .of_ready (hx _)⟩
          · refine Ends.pure ⟨Outcome.blames_close ?_, .of_short hw⟩
            have hdrops : f.GivesUp env base frames out.atom := by
              refine .bits hlayout (Eq.refl (Atom.blank id _ _ _)) (ht.next.trans ht.cursor) (ht.inside hlayout _) ?_ herror
                (by simpa using hconsume)
              rw [ht.next, hf.count, show Layout.nestingLimit - (frames.length + 1) = depth by omega]
              exact (congrArg Prod.fst hrun).symm
            refine (hcompletes.traced _ herror).dropped hf.right hdrops ?_
            rw [Info.name_of_site hcompletes.site, hadds.segment]

/-- An atom of bits that was read. -/
theorem blaming_loadBits (env : Env κ) (base : View) (depth : Nat) :
    BlamingBits env base depth (loadBits env depth) := by
  induction depth with
  | zero => exact fun frames a position s hdepth _ _ _ _ _ =>
      Ends.pure ⟨Outcome.blames_nesting hdepth a, .of_other rfl⟩
  | succ depth ih =>
    intro frames a position s hdepth hblank hbits hnone hoffset hs
    have hinner : frames.length + 1 + depth = Layout.nestingLimit := by omega
    have hstart := Frame.Has.start .group hblank
    have hread := Frame.Reads.start hoffset hs
    rw [loadBits]
    split
    · rename_i layout hlayout
      rw [isBits, hlayout] at hbits
      cases hbits
    · rename_i bits signed hlayout
      have hfield := ((BitLoadM.reads_read bits hs).and (BitLoadM.isBare_read bits s)).and (Ends.trivial _ s)
      refine hfield.bind fun result t hresult => ?_
      obtain ⟨⟨hresult, hbare⟩, hrun⟩ := hresult
      split
      · rename_i e
        refine Ends.pure ⟨Outcome.blames_some (.bare (hbare e rfl) fun problem he => ?_) rfl rfl,
          .of_short hresult⟩
        exact .bits hlayout hblank hoffset hs (by rw [← hrun, he])
      · rename_i value
        refine Ends.pure ⟨Outcome.blames_none (site_ready (a.fill _ [])) rfl rfl, .of_ready ?_⟩
        show t.Reads _ _ (position + value.width)
        rw [hresult.1]
        exact hresult.2
    · rename_i name fields hlayout
      exact blames_loadBitFields ih frames hinner hlayout hstart fields rfl hread
    · rename_i element shape hlayout
      exact blames_loadBitElements ih frames hinner hlayout hstart _ (Nat.zero_add _) hread

/-! ## Default content -/

/-- Default content for an atom at most `depth` layouts deep fails only where a place failed. -/
def BlamingDefault (env : Env κ) (base : View) (depth : Nat) (part : LoadPart (LedgerM κ) κ) : Prop :=
  ∀ frames a l, frames.length + depth = Layout.nestingLimit →
    Ends (part frames a) l fun out _ => out.Blames env base .allocate frames a.info

/-- Default content for an atom of bits at most `depth` layouts deep fails only where a place failed. -/
def BlamingDefaultBits (env : Env κ) (base : View) (depth : Nat) (part : LoadPart (LedgerM κ) κ) : Prop :=
  ∀ frames a l, frames.length + depth = Layout.nestingLimit → a.isBits = true →
    Ends (part frames a) l fun out _ => out.Blames env base .allocate frames a.info

section Allocate

variable {part : LoadPart (LedgerM κ) κ} (hpart : BlamingDefaultBits env base depth part)
  (frames : List (Frame κ)) (hdepth : frames.length + 1 + depth = Layout.nestingLimit)

include hpart hdepth

theorem blames_allocateBitFields {name : String} {all : List (BitField κ (BitLayout κ))} {f : Frame κ}
    {index : Nat} (hlayout : f.info.layout = .bits (.record name all)) (hf : f.Has index) (cursor : Nat)
    (fields : List (BitField κ (BitLayout κ))) (hfields : all.drop index = fields) (l : Ledger κ) :
    Ends (allocateBitFields env part frames f index cursor fields) l fun out _ =>
      out.Blames env base .allocate frames f.info := by
  induction fields generalizing f index cursor l with
  | nil => exact Ends.pure (Outcome.blames_ready f)
  | cons field fields ih =>
    obtain ⟨hfield, hrest⟩ := next_of_drop hfields
    rw [allocateBitFields]
    split
    · rename_i e hresolve
      exact Ends.pure (Outcome.blames_close (hf.bitRule hlayout hfield hresolve))
    · rename_i layout _
      refine (Ends.spawn_blank field.name (.bits layout) cursor l).bind fun blank m hblank => ?_
      obtain ⟨id, rfl⟩ := hblank
      refine (hpart (f :: frames) _ m hdepth rfl).bind fun out n hout => ?_
      have hcompletes := hout.completes rfl
      dsimp only
      split
      · rename_i e herror
        refine Ends.pure (Outcome.blames_close (f := f.push out.atom) ?_)
        refine .passed hf.right (by rw [hlayout]; rfl) ?_ (hcompletes.traced e herror)
        rw [isBits, Info.layout_of_site hout.site]
        rfl
      · rename_i herror
        exact ih (f := f.push out.atom) hlayout (hf.push (hcompletes.complete herror)) _ hrest n

theorem blames_allocateBitElements {element : BitLayout κ} {shape : BitShape κ} {f : Frame κ}
    {index : Nat} (hlayout : f.info.layout = .bits (.array element shape)) (hf : f.Has index)
    (cursor count : Nat) (l : Ledger κ) :
    Ends (allocateBitElements part element frames count f index cursor) l fun out _ =>
      out.Blames env base .allocate frames f.info := by
  induction count generalizing f index cursor l with
  | zero => exact Ends.pure (Outcome.blames_ready f)
  | succ count ih =>
    rw [allocateBitElements]
    refine (Ends.spawn_blank (toString index) (.bits element) cursor l).bind fun blank m hblank => ?_
    obtain ⟨id, rfl⟩ := hblank
    refine (hpart (f :: frames) _ m hdepth rfl).bind fun out n hout => ?_
    have hcompletes := hout.completes rfl
    dsimp only
    split
    · rename_i e herror
      refine Ends.pure (Outcome.blames_close (f := f.push out.atom) ?_)
      refine .passed hf.right (by rw [hlayout]; rfl) ?_ (hcompletes.traced e herror)
      rw [isBits, Info.layout_of_site hout.site]
      rfl
    · rename_i herror
      exact ih (f := f.push out.atom) hlayout (hf.push (hcompletes.complete herror)) _ n

end Allocate

/-- Default content for an atom of bits. -/
theorem blaming_allocateBits (env : Env κ) (base : View) (depth : Nat) :
    BlamingDefaultBits env base depth (allocateBits env depth) := by
  induction depth with
  | zero => exact fun frames a l hdepth _ => Ends.pure (Outcome.blames_nesting hdepth a)
  | succ depth ih =>
    intro frames a l hdepth hbits
    have hinner : frames.length + 1 + depth = Layout.nestingLimit := by omega
    rw [allocateBits]
    split
    · rename_i layout hlayout
      rw [isBits, hlayout] at hbits
      cases hbits
    · rename_i layout hlayout
      refine (Ends.clear_blank a l).bind fun b m hb => ?_
      subst hb
      have hsame : a.cleared.info.layout = .bits layout := (Info.layout_of_site (site_cleared a)).trans hlayout
      have hstart := Frame.Has.start .group (isBlank_cleared a)
      cases layout with
      | int bits signed =>
        exact Ends.pure (Outcome.Blames.cleared (Outcome.blames_none (site_ready (a.cleared.fill _ [])) rfl rfl))
      | record name fields =>
        exact (blames_allocateBitFields ih frames hinner hsame hstart _ fields rfl m).mono fun _ _ h => h.cleared
      | array element shape =>
        exact (blames_allocateBitElements ih frames hinner hsame hstart _ _ m).mono fun _ _ h => h.cleared

end BinaryLayout
