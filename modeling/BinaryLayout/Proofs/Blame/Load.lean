import BinaryLayout.Proofs.Blame.Bits
import BinaryLayout.Proofs.Span.Load

/-!
# Which atom of bytes was not loaded

An error of an atom of bytes that is loaded comes from a place that failed, at or below the atom, and its
path leads there. There is one lemma for each kind of layout, which takes from its parts only that the
same holds of them, and an induction on the depth of layouts puts these together. Loading only reads, so a
part is loaded from what its container is loaded from, however much of that was read before.

## Main statements

* `blames_loadSized`, `blames_loadFields`, `blames_loadMembers`: fields and members.
* `blames_loadCounted`, `blames_loadBlock`, `blames_loadOpen`: elements.
* `blames_loadHost`: hosts of bits.
* `blaming_load`: atoms of bytes.
-/

namespace BinaryLayout

variable {κ : Type} {env : Env κ} {base : View} {depth : Nat}

open Atom

/-- Loading an atom at most `depth` layouts deep fails only where a place failed, and only reads. -/
def BlamingLoad (env : Env κ) (base : View) (depth : Nat) (part : LoadPart (LoadM κ) κ) : Prop :=
  ∀ frames a s, frames.length + depth = Layout.nestingLimit → (a.isBits = true → frames = []) →
    s.view.rewound = Place.viewIn base frames a.info →
    Ends (part frames a) s fun out t => out.Blames env base .load frames a.info
      ∧ t.view.rewound = s.view.rewound

/-! ## What parts are loaded from -/

namespace Frame

variable {f : Frame κ} {frames : List (Frame κ)} {part : Info κ}

/-- A field that does not have to take so many bytes. -/
theorem view_of_record {name : String} {fields : List (Field κ (Layout κ))}
    (hlayout : f.info.layout = .bytes (.record name fields)) (hnone : part.extent? = none) :
    Place.viewIn base (f :: frames) part = Place.viewIn base frames f.info := by
  rw [Place.viewIn, viewOf, hlayout]
  simp only [hnone]

/-- A field that has to take so many bytes. -/
theorem view_of_sized {name : String} {fields : List (Field κ (Layout κ))} {extent : Nat}
    (hlayout : f.info.layout = .bytes (.record name fields)) (hextent : part.extent? = some extent) :
    Place.viewIn base (f :: frames) part
      = (Place.viewIn base frames f.info).window (part.offset + extent) 0 := by
  rw [Place.viewIn, viewOf, hlayout]
  simp only [hextent]

/-- The elements of an array that is no block array. -/
theorem view_of_array {element : Layout κ} {shape : Shape κ}
    (hlayout : f.info.layout = .bytes (.array element shape)) (hshape : ∀ extent, shape ≠ .block extent) :
    Place.viewIn base (f :: frames) part = Place.viewIn base frames f.info := by
  rw [Place.viewIn, viewOf, hlayout]
  cases shape with
  | block extent => exact absurd rfl (hshape extent)
  | counted | terminated | unending => rfl

end Frame

namespace LoadM

variable {s : LoadState κ}

/-- Loading through a window that only reads. -/
theorem sees_inWindow {α : Type} (limit : Nat) {m : LoadM κ α} {post : α → Prop}
    (h : Ends m { s with reader := .window s.reader limit 0 } fun a t =>
      post a ∧ t.view.rewound = s.view.rewound.window limit 0) :
    Ends (inWindow limit m) s fun a t => post a ∧ t.view.rewound = s.view.rewound := by
  obtain ⟨hpost, hview⟩ := h
  refine ⟨hpost, ?_⟩
  show View.rewound (innermost (m { s with reader := .window s.reader limit 0 }).2.reader, _) = _
  simp only [LoadState.view, View.rewound, View.window, Prod.mk.injEq] at hview
  obtain ⟨hreader, hsources⟩ := hview
  refine Prod.ext ?_ hsources
  generalize (m { s with reader := .window s.reader limit 0 }).2.reader = reader at hreader
  cases reader with
  | source id => cases hreader
  | detached data origin cursor => cases hreader
  | window inner limit' cursor => exact (Reader.window.inj hreader).1

end LoadM

/-! ## Atoms without parts -/

/-- An atom without parts. -/
theorem blames_loadLeaf (frames : List (Frame κ)) {layout : Layout κ} {a : Atom κ}
    (hlayout : a.info.layout = .bytes layout) (hblank : a.IsBlank) {s : LoadState κ}
    (hs : s.view.rewound = Place.viewIn base frames a.info) :
    Ends (loadLeaf env layout frames a) s fun out _ => out.Blames env base .load frames a.info := by
  have hread := (Ends.trivial (LoadM.readLeaf env.config frames layout a.info.offset) s).and
    (LoadM.isBare_readLeaf env.config frames layout a.info.offset s)
  refine hread.bind fun result t hresult => ?_
  obtain ⟨hrun, hbare⟩ := hresult
  split
  · rename_i e
    refine Ends.pure (Outcome.blames_some (.bare (hbare e rfl) fun problem he => ?_) rfl rfl)
    exact .leaf (s := s) hlayout hblank hs (by rw [← hrun, he])
  · rename_i raw
    have hdone : Outcome.Blames env base .load frames a.info ⟨((a.mapInfo fun info =>
        { info with undecodable := layout.isUndecodable raw }).withBytes layout raw).ready, none⟩ := by
      rw [withBytes_eq]
      cases a
      exact Outcome.blames_none rfl rfl rfl
    dsimp only
    split
    · exact (Ends.trivial _ t).bind fun _ _ _ => Ends.pure hdone
    · exact Ends.pure hdone

section Parts

variable {part : LoadPart (LoadM κ) κ} (hpart : BlamingLoad env base depth part)
  (frames : List (Frame κ)) (hdepth : frames.length + 1 + depth = Layout.nestingLimit)

include hpart hdepth

/-! ## Fields and members -/

/-- A field of a forced extent. -/
theorem blames_loadSized {name : String} {all : List (Field κ (Layout κ))} {f : Frame κ}
    (hlayout : f.info.layout = .bytes (.record name all)) {field : Field κ (Layout κ)}
    (hfield : all[f.left.length]? = some field) (hrule : field.extent?.isSome = true) {blank : Atom κ}
    (hblank : blank.IsBlank) (hbytes : blank.isBits = false) (extent : Nat) {s : LoadState κ}
    (hs : s.view.rewound = Place.viewIn base frames f.info) :
    Ends (loadSized part (f :: frames) blank extent) s fun out t =>
      out.Completes env base .load (f :: frames) blank.info ∧ t.view.rewound = s.view.rewound := by
  let sized := blank.mapInfo fun info => { info with extent? := some extent }
  have hinfo : sized.info = { blank.info with extent? := some extent } := info_mapInfo _ blank
  have hsite : sized.info.site = blank.info.site := by rw [hinfo]; rfl
  have hoffset : sized.info.offset = blank.info.offset := by rw [hinfo]
  have hextent : sized.info.extent? = some extent := by rw [hinfo]
  have hforced (a : Atom κ) (ha : a.info.extent? = some extent) : Place.IsForced ⟨a, f :: frames⟩ extent :=
    ⟨ha, f, rfl, name, all, field, hlayout, hfield, hrule⟩
  rw [loadSized]
  dsimp only
  split
  · rename_i e hspan
    have hparts : sized.parts = [] := (parts_mapInfo _ blank).trans hblank.parts
    have hopen : sized.IsOpen := by
      refine ⟨by rw [hinfo]; exact hblank.isOpen.unready, ?_⟩
      rw [hparts]
      simp
    refine Ends.pure ⟨⟨hsite, (fun he => by cases he), fun _ he => ?_⟩, rfl⟩
    cases he
    refine .bare (isBare_spanEnd _ _ e hspan) fun problem he => ?_
    exact .room hopen hparts (.inl (hforced sized hextent)) (by rw [← he]; exact hspan)
  · rename_i limit hspan
    have hlimit : limit = sized.info.offset + extent := (spanEnd_eq hspan).1
    have hview : s.view.rewound.window limit 0 = Place.viewIn base (f :: frames) sized.info := by
      rw [Frame.view_of_sized hlayout hextent, hs, hlimit]
    have hwindow : Ends (LoadM.inWindow limit (part (f :: frames) sized)) s fun out t =>
        out.Blames env base .load (f :: frames) sized.info ∧ t.view.rewound = s.view.rewound := by
      refine LoadM.sees_inWindow limit ?_
      have hbits : sized.isBits = true → f :: frames = [] := by
        rw [isBits_of_site hsite, hbytes]
        simp
      exact hpart (f :: frames) sized _ hdepth hbits hview
    refine hwindow.bind fun out t hout => ?_
    obtain ⟨hblames, ht⟩ := hout
    have hsame := hblames.site.trans hsite
    split
    · rename_i hdone
      refine Ends.pure ⟨⟨hsame, fun herror => ⟨hblames.ready herror, ?_⟩, hblames.traced⟩, ht⟩
      have hfits : extent ≤ out.atom.contentSize := hdone.resolve_left (by simp [herror])
      rw [hblames.extent, hextent]
      rintro _ ⟨⟩
      exact Nat.le_trans hfits (Nat.le_add_right _ _)
    · rename_i hmore
      have herror : out.error? = none := by
        cases h : out.error? with
        | none => rfl
        | some e => exact absurd (.inl (by rw [h]; rfl)) hmore
      have hhere : sized.info.offset = out.atom.info.offset := (Info.offset_of_site hblames.site).symm
      rw [hhere]
      have hread := ((LoadM.isBare_readAt (out.atom.info.offset + out.atom.contentSize)
        (extent - out.atom.contentSize) t).and (LoadM.length_readAt _ _ t)).and
          ((LoadM.harmless_readAt _ _ t).and (Ends.trivial _ t))
      refine hread.bind fun result u hu => ?_
      obtain ⟨⟨hbare, hlength⟩, hkept, hrun⟩ := hu
      have hu : u.view.rewound = s.view.rewound := hkept.contents.trans ht
      split
      · rename_i e
        refine Ends.pure ⟨⟨hsame, (fun he => by cases he), fun _ he => ?_⟩, hu⟩
        cases he
        refine .bare (hbare e rfl) fun problem he => ?_
        exact .tail (s := t) (hblames.ready herror) (hforced out.atom (hblames.extent.trans hextent))
          (ht.trans hs) (by rw [← hrun, he])
      · rename_i tail
        refine Ends.pure ⟨⟨(site_withTail tail out.atom).trans hsame, fun _ => ⟨?_, ?_⟩,
          fun _ he => by cases he⟩, hu⟩
        · rw [withTail, info_mapInfo]
          exact hblames.ready herror
        · have hkeeps : (out.atom.withTail tail).info.extent? = some extent := by
            rw [withTail, info_mapInfo]
            exact hblames.extent.trans hextent
          have hamount := hlength tail rfl
          rw [hkeeps, size_withTail]
          rintro _ ⟨⟩
          omega

/-- A field, with or without a rule for its extent. -/
theorem blames_loadField {name : String} {all : List (Field κ (Layout κ))} {f : Frame κ} {index : Nat}
    (hlayout : f.info.layout = .bytes (.record name all)) (hf : f.Has index)
    {field : Field κ (Layout κ)} (hfield : all[index]? = some field) (id cursor : Nat) (layout : Layout κ)
    {s : LoadState κ} (hs : s.view.rewound = Place.viewIn base frames f.info) :
    Ends (loadField env part frames f index field.extent? (.blank id field.name (.bytes layout) cursor)) s
      fun out t => out.Completes env base .load (f :: frames)
        (Atom.blank id field.name (.bytes layout) cursor).info ∧ t.view.rewound = s.view.rewound := by
  cases hrule : field.extent? with
  | none =>
    refine (hpart (f :: frames) (.blank id field.name (.bytes layout) cursor) s hdepth
      (fun h => by cases h) ?_).mono
      fun out t ht => ⟨ht.1.completes rfl, ht.2⟩
    rw [hs, Frame.view_of_record hlayout rfl]
  | some rule =>
    rw [← hf.count] at hfield
    rw [loadField]
    split
    · rename_i e hextent
      rw [← hf.count] at hextent
      refine Ends.pure ⟨⟨rfl, (fun he => by cases he), fun _ he => ?_⟩, rfl⟩
      cases he
      refine .own fun path problem he => ?_
      rw [he] at hextent
      exact .extent rfl rfl rfl hlayout hfield hrule hextent
    · exact blames_loadSized hpart frames hdepth hlayout hfield (by rw [hrule]; rfl) (isBlank_blank ..) rfl _ hs

theorem blames_loadFields {name : String} {all : List (Field κ (Layout κ))} {f : Frame κ} {index : Nat}
    (hlayout : f.info.layout = .bytes (.record name all)) (hf : f.Has index) (cursor : Nat)
    (fields : List (Field κ (Layout κ))) (hfields : all.drop index = fields) {s : LoadState κ}
    (hs : s.view.rewound = Place.viewIn base frames f.info) :
    Ends (loadFields env part frames f index cursor fields) s fun out _ =>
      out.Blames env base .load frames f.info := by
  induction fields generalizing f index cursor s with
  | nil => exact Ends.pure (Outcome.blames_ready f)
  | cons field fields ih =>
    obtain ⟨hfield, hrest⟩ := next_of_drop hfields
    rw [loadFields]
    split
    · rename_i e hresolve
      exact Ends.pure (Outcome.blames_close (hf.rule hlayout hfield hresolve))
    · rename_i layout _
      refine (LoadM.spawn_blank field.name (.bytes layout) cursor s).bind fun blank t hblank => ?_
      obtain ⟨⟨id, rfl⟩, hview⟩ := hblank
      rw [← hview] at hs
      refine (blames_loadField hpart frames hdepth hlayout hf hfield id cursor layout hs).bind
        fun out u hout => ?_
      obtain ⟨hcompletes, hu⟩ := hout
      have hadds : f.Adds .load .load (Atom.blank id field.name (.bytes layout) cursor).info field.name :=
        ⟨by rw [hlayout]; rfl, by rw [hlayout]; rfl, by rw [Place.segment, hlayout]; rfl⟩
      dsimp only
      split
      · rename_i e herror
        exact Ends.pure (Outcome.blames_close (f := f.push out.atom) (hcompletes.within hf.right hadds herror))
      · rename_i herror
        split
        · rename_i e hspan
          exact Ends.pure (Outcome.blames_close (f := f.push out.atom)
            (hcompletes.oversized hf.right hadds herror (isBare_spanEnd _ _ e hspan) hspan))
        · exact ih (f := f.push out.atom) hlayout (hf.push (hcompletes.complete herror)) _ hrest
            (hu.trans hs)

theorem blames_loadMembers {name : String} {all : List (String × Layout κ)} {size : Nat} {f : Frame κ}
    {index : Nat} (hlayout : f.info.layout = .bytes (.union name all size)) (hf : f.Has index)
    {backing : Bytes} (hbacking : f.content = .overlay backing) {task : Task}
    (members : List (String × Layout κ)) (s : LoadState κ) :
    Ends (loadMembers part backing frames f members) s fun out _ =>
      out.Blames env base task frames f.info := by
  induction members generalizing f index s with
  | nil => exact Ends.pure (Outcome.blames_ready f)
  | cons member members ih =>
    obtain ⟨segment, layout⟩ := member
    rw [loadMembers]
    refine (LoadM.spawn_blank segment (.bytes layout) f.info.offset s).bind fun blank t hblank => ?_
    obtain ⟨⟨id, rfl⟩, -⟩ := hblank
    have hview : View.rewound (.ofBytes backing f.info.offset, [])
        = Place.viewIn base (f :: frames) (Atom.blank id segment (.bytes layout) f.info.offset).info := by
      rw [Place.viewIn, Frame.viewOf, hlayout]
      simp only [hbacking]
    have hload : Ends (LoadM.fromBytes backing f.info.offset
        (part (f :: frames) (.blank id segment (.bytes layout) f.info.offset))) t fun out _ =>
        out.Blames env base .load (f :: frames) (Atom.blank id segment (.bytes layout) f.info.offset).info :=
      (hpart (f :: frames) (.blank id segment (.bytes layout) f.info.offset)
        ⟨t.ledger, [], .ofBytes backing f.info.offset⟩ hdepth (fun h => by cases h) hview).1
    refine hload.bind fun out u hout => ?_
    have hcompletes := hout.completes rfl
    have hadds : f.Adds task .load (Atom.blank id segment (.bytes layout) f.info.offset).info segment :=
      ⟨by rw [hlayout]; rfl, by rw [hlayout]; rfl, by rw [Place.segment, hlayout]; rfl⟩
    dsimp only
    split
    · rename_i e herror
      exact Ends.pure (Outcome.blames_close (f := f.push out.atom) (hcompletes.within hf.right hadds herror))
    · rename_i herror
      exact ih (f := f.push out.atom) hlayout (hf.push (hcompletes.complete herror)) hbacking u

/-- A union whose members are loaded from its bytes. -/
theorem blames_startMembers {name : String} {members : List (String × Layout κ)} {size : Nat}
    {a : Atom κ} (hlayout : a.info.layout = .bytes (.union name members size)) (hblank : a.IsBlank)
    (backing : Bytes) {task : Task} (s : LoadState κ) :
    Ends (loadMembers part backing frames (a.fill (.overlay backing) []).frame members) s fun out _ =>
      out.Blames env base task frames a.info :=
  blames_loadMembers hpart frames hdepth (f := (a.fill (.overlay backing) []).frame) hlayout
    (.start _ hblank) rfl members s

theorem blames_loadUnion {name : String} {members : List (String × Layout κ)} {size : Nat} {a : Atom κ}
    (hlayout : a.info.layout = .bytes (.union name members size)) (hblank : a.IsBlank) {s : LoadState κ}
    (hs : s.view.rewound = Place.viewIn base frames a.info) :
    Ends (loadUnion part members size frames a) s fun out _ =>
      out.Blames env base .load frames a.info := by
  have hread := (Ends.trivial (LoadM.readAt a.info.offset size) s).and
    (LoadM.isBare_readAt a.info.offset size s)
  refine hread.bind fun result t hresult => ?_
  obtain ⟨hrun, hbare⟩ := hresult
  split
  · rename_i e
    refine Ends.pure (Outcome.blames_some (.bare (hbare e rfl) fun problem he => ?_) rfl rfl)
    exact .union (s := s) hlayout hblank hs (by rw [← hrun, he])
  · exact blames_startMembers hpart frames hdepth hlayout hblank _ t

/-! ## Elements -/

theorem blames_loadCounted {element : Layout κ} {number : Nat} {f : Frame κ} {index : Nat}
    (hlayout : f.info.layout = .bytes (.array element (.counted number))) (hf : f.Has index)
    (count cursor : Nat) {s : LoadState κ} (hs : s.view.rewound = Place.viewIn base frames f.info) :
    Ends (loadCounted part element frames count f index cursor) s fun out _ =>
      out.Blames env base .load frames f.info := by
  induction count generalizing f index cursor s with
  | zero => exact Ends.pure (Outcome.blames_ready f)
  | succ count ih =>
    rw [loadCounted]
    refine (LoadM.spawn_blank (toString index) (.bytes element) cursor s).bind fun blank t hblank => ?_
    obtain ⟨⟨id, rfl⟩, hview⟩ := hblank
    rw [← hview] at hs
    refine (hpart (f :: frames) (.blank id (toString index) (.bytes element) cursor) t hdepth
      (fun h => by cases h) (by rw [hs, Frame.view_of_array hlayout (fun _ h => by cases h)])).bind fun out u hout => ?_
    obtain ⟨hblames, hu⟩ := hout
    have hcompletes := hblames.completes rfl
    have hadds : f.Adds .load .load (Atom.blank id (toString index) (.bytes element) cursor).info
        (Path.index index) :=
      ⟨by rw [hlayout]; rfl, by rw [hlayout]; rfl, by rw [Place.segment, hlayout]; rfl⟩
    dsimp only
    split
    · rename_i e herror
      exact Ends.pure (Outcome.blames_close (f := f.push out.atom) (hcompletes.within hf.right hadds herror))
    · rename_i herror
      split
      · rename_i e hspan
        exact Ends.pure (Outcome.blames_close (f := f.push out.atom)
          (hcompletes.oversized hf.right hadds herror (isBare_spanEnd _ _ e hspan) hspan))
      · exact ih (f := f.push out.atom) hlayout (hf.push (hcompletes.complete herror)) _ (hu.trans hs)

/-- The elements of a block array, as far as they were loaded: they go up to the cursor, or the error comes
from a place that failed. -/
structure BlockOutcome.Blames (env : Env κ) (base : View) (frames : List (Frame κ)) (info : Info κ)
    (out : BlockOutcome κ) : Prop where
  kept : out.error? = none → ∃ (f : Frame κ) (index : Nat), f.Has index ∧ f.Spanning out.cursor ∧ f.info = info
    ∧ out.atom = f.close
  failed : ∀ e, out.error? = some e → Outcome.Blames env base .load frames info ⟨out.atom, some e⟩

theorem blames_loadBlockElements {element : Layout κ} {extent : Nat} {f : Frame κ} {index cursor : Nat}
    (hlayout : f.info.layout = .bytes (.array element (.block extent))) (hf : f.Has index)
    (hspanning : f.Spanning cursor) {limit : Nat} (hlimit : limit = f.info.offset + extent) (fuel : Nat)
    {s : LoadState κ} (hs : s.view.rewound = Place.viewIn base frames f.info) :
    Ends (loadBlockElements part element limit frames fuel f index cursor) s fun out t =>
      out.Blames env base frames f.info ∧ t.view.rewound = s.view.rewound := by
  have hkept {g : Frame κ} {number stop : Nat} (hg : g.Has number) (hstop : g.Spanning stop)
      (hinfo : g.info = f.info) : BlockOutcome.Blames env base frames f.info ⟨g.close, stop, none⟩ :=
    ⟨fun _ => ⟨g, number, hg, hstop, hinfo, rfl⟩, fun _ he => by cases he⟩
  induction fuel generalizing f index cursor s with
  | zero => exact Ends.pure ⟨hkept hf hspanning rfl, rfl⟩
  | succ fuel ih =>
    rw [loadBlockElements]
    split
    · exact Ends.pure ⟨hkept hf hspanning rfl, rfl⟩
    · split
      · exact Ends.pure ⟨hkept hf hspanning rfl, rfl⟩
      · rename_i layout _
        refine (LoadM.spawn_blank (toString index) (.bytes layout) cursor s).bind fun blank t hblank => ?_
        obtain ⟨⟨id, rfl⟩, hview⟩ := hblank
        have hinside : t.view.rewound.window limit 0 = Place.viewIn base (f :: frames)
            (Atom.blank id (toString index) (.bytes layout) cursor).info := by
          rw [Place.viewIn, Frame.viewOf, hlayout, hview, hs, hlimit]
        have hwindow : Ends (LoadM.inWindow limit
            (part (f :: frames) (.blank id (toString index) (.bytes layout) cursor))) t fun out u =>
            out.Blames env base .load (f :: frames)
              (Atom.blank id (toString index) (.bytes layout) cursor).info
            ∧ u.view.rewound = t.view.rewound :=
          LoadM.sees_inWindow limit (hpart (f :: frames) _ _ hdepth (fun h => by cases h) hinside)
        refine hwindow.bind fun out u hout => ?_
        obtain ⟨hblames, hu⟩ := hout
        rw [hview] at hu
        have hcompletes := hblames.completes rfl
        have hadds : f.Adds .load .load (Atom.blank id (toString index) (.bytes layout) cursor).info
            (Path.index index) :=
          ⟨by rw [hlayout]; rfl, by rw [hlayout]; rfl, by rw [Place.segment, hlayout]; rfl⟩
        split
        · rename_i e herror
          split
          · exact Ends.via (fun _ v => v.view.rewound = s.view.rewound) hu fun _ v hv =>
              Ends.pure ⟨hkept hf hspanning rfl, hv⟩
          · refine Ends.pure ⟨⟨(fun he => by cases he), fun _ he => ?_⟩, hu⟩
            cases he
            exact Outcome.blames_close (f := f.push out.atom) (hcompletes.within hf.right hadds herror)
        · rename_i herror
          have hnext := hf.push (hcompletes.complete herror)
          dsimp only
          split
          · rename_i hnone
            have hpushed := hspanning.push out.atom
            rw [hnone, Nat.add_zero] at hpushed
            exact Ends.pure ⟨hkept hnext hpushed rfl, hu⟩
          · split
            · rename_i e hspan
              refine Ends.pure ⟨⟨(fun he => by cases he), fun _ he => ?_⟩, hu⟩
              cases he
              exact Outcome.blames_close (f := f.push out.atom)
                (hcompletes.oversized hf.right hadds herror (isBare_spanEnd _ _ e hspan) hspan)
            · rename_i next hspan
              refine (ih (f := f.push out.atom) hlayout hnext (hspanning.pushed hspan) hlimit (hu.trans hs)
                hkept).mono fun result v hv => ⟨hv.1, hv.2.trans hu⟩

theorem blames_loadBlock {element : Layout κ} {extent : Nat} {a : Atom κ}
    (hlayout : a.info.layout = .bytes (.array element (.block extent))) (hblank : a.IsBlank)
    {s : LoadState κ} (hs : s.view.rewound = Place.viewIn base frames a.info) :
    Ends (loadBlock part element extent frames (a.fill .group [])) s fun out _ =>
      out.Blames env base .load frames a.info := by
  have hbytes : a.isBits = false := by rw [isBits, hlayout]; rfl
  rw [loadBlock]
  split
  · rename_i e hspan
    have hopen : (a.fill .group []).IsOpen := (Frame.Has.start .group hblank).isOpen
    refine Ends.pure (Outcome.blames_some ?_ rfl rfl)
    refine .bare (isBare_spanEnd _ _ e hspan) fun problem he => ?_
    exact .room hopen rfl (.inr ⟨element, hlayout⟩) (by rw [← he]; exact hspan)
  · rename_i limit hspan
    refine (blames_loadBlockElements hpart frames hdepth hlayout (.start .group hblank)
      (.start hbytes hblank.tail) (spanEnd_eq hspan).1 extent hs).bind fun out t hout => ?_
    obtain ⟨⟨hkept, hfailed⟩, ht⟩ := hout
    split
    · rename_i e herror
      exact Ends.pure (hfailed e herror)
    · rename_i herror
      obtain ⟨f, index, hf, hspanning, hinfo, hatom⟩ := hkept herror
      have hclose : out.atom.info = a.info := by rw [hatom]; exact hinfo
      split
      · exact Ends.pure (Outcome.blames_none (by rw [site_ready, hclose])
          (by rw [ready, info_mapInfo, hclose]) (by rw [ready, info_mapInfo]))
      · have hend : out.cursor = out.atom.info.offset + out.atom.contentSize := by
          rw [hatom]
          exact hspanning.contentSize.symm
        have hamount : limit - out.cursor = extent - out.atom.contentSize := by
          have hlimit : limit = a.info.offset + extent := (spanEnd_eq hspan).1
          rw [hclose] at hend
          omega
        rw [hamount, hend]
        have hread := (LoadM.isBare_readAt (out.atom.info.offset + out.atom.contentSize)
          (extent - out.atom.contentSize) t).and (Ends.trivial _ t)
        refine hread.bind fun result u hu => ?_
        obtain ⟨hbare, hrun⟩ := hu
        split
        · rename_i e
          refine Ends.pure (Outcome.blames_some (.bare (hbare e rfl) fun problem he => ?_)
            (by rw [hclose]) (by rw [hclose]))
          have hblock : out.atom.info.layout = .bytes (.array element (.block extent)) := by
            rw [hclose, hlayout]
          refine .leftover hblock ?_ (s := t) ?_ (by rw [← hrun, he])
          · rw [hatom]
            exact hf.isOpen
          · rw [ht, hs, Place.view, hclose]
        · rename_i tail
          refine (Ends.trivial _ u).bind fun _ _ _ => Ends.pure (Outcome.blames_none ?_ ?_ ?_)
          · rw [site_ready, site_withTail, hclose]
          · rw [ready, withTail, info_mapInfo, info_mapInfo, hclose]
          · rw [ready, info_mapInfo]

end Parts

/-- The elements of an open array. The one that is given up was loaded as the next one. -/
theorem blames_loadOpen (hpart : BlamingLoad env base depth (load env depth)) (frames : List (Frame κ))
    (hdepth : frames.length + 1 + depth = Layout.nestingLimit) {element : Layout κ} {shape : Shape κ}
    (rule? : Option κ) (hshape : shape = match rule? with
      | some rule => .terminated rule
      | none => .unending) {f : Frame κ} {index cursor : Nat}
    (hlayout : f.info.layout = .bytes (.array element shape)) (hf : f.Has index) (hnext : f.next = cursor)
    (budget : Nat) (hbudget : index + budget = env.config.maxElements) {s : LoadState κ}
    (hs : s.view.rewound = Place.viewIn base frames f.info) :
    Ends (loadOpen env (load env depth) element rule? frames budget f index cursor) s fun out _ =>
      out.Blames env base .load frames f.info := by
  have hblock (extent : Nat) : shape ≠ .block extent := by
    rw [hshape]
    cases rule? <;> simp
  induction budget generalizing f index cursor s with
  | zero => exact Ends.pure (Outcome.blames_close (hf.elementLimit (by rw [hlayout]; rfl) hbudget))
  | succ budget ih =>
    rw [loadOpen]
    refine Ends.via (fun _ t => t.view.rewound = s.view.rewound) rfl fun viewEnd? t ht => ?_
    rw [← ht] at hs
    split
    · exact Ends.pure (Outcome.blames_ready f)
    · refine (LoadM.spawn_blank (toString index) (.bytes element) cursor t).bind fun blank u hblank => ?_
      obtain ⟨⟨id, rfl⟩, hview⟩ := hblank
      rw [← hview] at hs
      have hinside : u.view.rewound = Place.viewIn base (f :: frames)
          (Atom.blank id (toString index) (.bytes element) cursor).info := by
        rw [hs, Frame.view_of_array hlayout hblock]
      have hmade := (hpart (f :: frames) (.blank id (toString index) (.bytes element) cursor) u hdepth
        (fun h => by cases h)
        hinside).and (Ends.trivial _ u)
      refine hmade.bind fun out v hout => ?_
      obtain ⟨⟨hblames, hv⟩, hrun⟩ := hout
      have hcompletes := hblames.completes rfl
      have hadds : f.Adds .load .load (Atom.blank id (toString index) (.bytes element) cursor).info
          (Path.index index) :=
        ⟨by rw [hlayout]; rfl, by rw [hlayout]; rfl, by rw [Place.segment, hlayout]; rfl⟩
      split
      · rename_i e herror
        split
        · exact Ends.pure (Outcome.blames_close (f := f.push out.atom)
            (hcompletes.within hf.right hadds herror))
        · rename_i hconsume
          refine (Ends.trivial _ v).bind fun _ w _ => ?_
          split
          · exact Ends.pure (Outcome.blames_ready f)
          · rename_i hrule
            refine (Ends.trivial _ w).bind fun viewEnd? x _ => ?_
            split
            · exact (Ends.trivial _ x).bind fun _ _ _ => Ends.pure (Outcome.blames_ready f)
            · obtain ⟨rule, rfl⟩ : ∃ rule, rule? = some rule := by
                cases rule? with
                | none => exact absurd rfl hrule
                | some rule => exact ⟨rule, rfl⟩
              have hdrops : f.GivesUp env base frames out.atom := by
                have hblank : Atom.blank id (toString index) (.bytes element) cursor
                    = .blank id (toString f.left.length) (.bytes element) f.next := by rw [hnext, hf.count]
                have harray : f.info.layout = .bytes (.array element (.terminated rule)) := by
                  rw [hlayout, hshape]
                refine .bytes harray hblank hinside ?_ herror (by simpa using hconsume)
                rw [show Layout.nestingLimit - (frames.length + 1) = depth by omega]
                exact (congrArg Prod.fst hrun).symm
              refine Ends.pure (Outcome.blames_close ((hcompletes.traced e herror).dropped hf.right hdrops ?_))
              rw [Info.name_of_site hcompletes.site, hadds.segment]
      · rename_i herror
        split
        · rename_i e hspan
          exact Ends.pure (Outcome.blames_close (f := f.push out.atom)
            (hcompletes.oversized hf.right hadds herror (isBare_spanEnd _ _ e hspan) hspan))
        · rename_i next hspan
          split
          · exact Ends.pure (Outcome.blames_ready (f.push out.atom))
          · refine ih (f := f.push out.atom) hlayout (hf.push (hcompletes.complete herror)) ?_ (by omega)
              (hv.trans hs)
            show satAdd out.atom.info.offset (out.atom.step f.info.layout.isBits) = next
            rw [Info.offset_of_site hblames.site, hlayout]
            exact (spanEnd_eq hspan).2

/-! ## Hosts of bits -/

section Hosts

variable {layout : BitLayout κ} {order : ByteOrder} {a root : Atom κ} {frames : List (Frame κ)}
  (hlayout : a.info.layout = .bytes (.bits layout order)) (hblank : a.IsBlank)

include hlayout

/-- An offset without a place in bits. -/
theorem traced_bitPosition (hblank : a.IsBlank) {task : Task} {e : Error}
    (hposition : bitPosition a.info.offset = .error e) : e.Traced env base task ⟨a, frames⟩ :=
  .bare (isBare_bitPosition _ e hposition) fun _ he => .position hlayout hblank (by rw [hposition, he])

/-- The error of a root of bits, seen from its host. -/
theorem traced_root {task t : Task} {e : Error} (htask : task.onParts a.info.layout = t)
    (hname : root.info.name = "")
    (h : e.Traced env base t ⟨root, (a.fill (.host .empty) []).frame :: frames⟩) :
    e.Traced env base task ⟨hostedBits a root .empty, frames⟩ :=
  .hosted (f := (a.fill (.host .empty) []).frame) rfl htask h hlayout hname

variable (hdepth : frames.length + 1 + depth = Layout.nestingLimit)

include hdepth

theorem blames_loadRoot (hbits : layout.staticBits ≠ some 0) {id position : Nat}
    (hroot : root = .blank id "" (.bits layout) position) (hposition : position = satAdd (8 * a.info.offset) 0)
    {s : LoadState κ} (hs : s.view.rewound = Place.viewIn base frames a.info) :
    Ends (loadRoot env depth order frames a root) s fun out _ =>
      out.Blames env base .load frames a.info := by
  subst hroot
  have htask : Task.onParts .load a.info.layout = .load := by
    rw [hlayout]
    exact if_neg hbits
  have hseek := ((Ends.trivial (LoadM.seekTo a.info.offset 1) s).and
    (LoadM.isBare_seekTo a.info.offset 1 s)).and (LoadM.ends_seekTo a.info.offset 1 s)
  refine hseek.bind fun result t hresult => ?_
  obtain ⟨⟨hrun, hbare⟩, hkept, -, hstands⟩ := hresult
  split
  · rename_i e
    refine Ends.pure (Outcome.blames_some (.bare (hbare e rfl) fun problem he => ?_) rfl rfl)
    refine .seek hlayout (s := s) ?_ hs (show (LoadM.seekTo a.info.offset 1 s).1 = _ by rw [← hrun, he])
    rintro part (_ | ⟨_, ⟨⟩⟩)
    exact isBlank_blank ..
  · let inner := (a.fill (.host .empty) []).frame :: frames
    have hinside : Place.viewIn base inner (Atom.blank id "" (.bits layout) position).info
        = Place.viewIn base frames a.info := by
      show Frame.viewOf _ _ (Place.viewIn base frames a.info) = _
      rw [Frame.viewOf, show (a.fill (.host .empty) []).frame.info.layout = _ from hlayout]
    have horder : Frame.order? inner = some order := by
      rw [Frame.order?, List.findSome?_cons, show (a.fill (.host .empty) []).frame.info.layout = _ from hlayout]
      rfl
    have hreads : BitLoadState.Reads (Place.viewIn base inner (Atom.blank id "" (.bits layout) position).info)
        (Frame.order? inner) (8 * a.info.offset) ⟨t, .new order, a.info.offset⟩ := by
      refine ⟨?_, horder, .inl ⟨hstands rfl, by simp⟩⟩
      rw [hinside, ← hs]
      exact hkept
    have hread : Ends (BitLoadM.run order a.info.offset
        (loadBits env depth inner (.blank id "" (.bits layout) position))) t fun result _ =>
        result.1.Blames env base .load inner (Atom.blank id "" (.bits layout) position).info :=
      (blaming_loadBits env base depth inner (.blank id "" (.bits layout) position) _ _ hdepth
        (isBlank_blank ..) rfl rfl hposition hreads).1
    refine hread.bind fun result u hout => ?_
    dsimp only
    split
    · rename_i e herror
      refine Ends.pure (Outcome.blames_some ?_ rfl rfl)
      exact traced_root hlayout htask (Info.name_of_site hout.site) (hout.traced e herror)
    · exact Ends.pure (Outcome.blames_none (site_ready (hostedBits a _ _)) rfl rfl)

/-- Default content for the root of a host, while either is done to the host. -/
theorem traced_newRoot (base : View) {task : Task} (htask : task.onParts a.info.layout = .allocate)
    (hname : root.info.name = "") (hbits : root.isBits = true) (l : Ledger κ) :
    Ends (allocateBits env depth ((a.fill (.host .empty) []).frame :: frames) root) l fun out _ =>
      ∀ e, out.error? = some e → e.Traced env base task ⟨hostedBits a out.atom .empty, frames⟩ := by
  let inner := (a.fill (.host .empty) []).frame :: frames
  refine (blaming_allocateBits env base depth inner root l hdepth hbits).mono fun out m hout e herror => ?_
  exact traced_root hlayout htask ((Info.name_of_site hout.site).trans hname) (hout.traced e herror)

include hblank

theorem blames_loadHost {s : LoadState κ} (hs : s.view.rewound = Place.viewIn base frames a.info) :
    Ends (loadHost env depth layout order frames a) s fun out _ =>
      out.Blames env base .load frames a.info := by
  rw [loadHost]
  split
  · rename_i e hposition
    exact Ends.pure (Outcome.blames_some (traced_bitPosition hlayout hblank hposition) rfl rfl)
  · rename_i position hposition
    refine (LoadM.spawn_blank "" (.bits layout) position s).bind fun root t hroot => ?_
    obtain ⟨⟨id, rfl⟩, hview⟩ := hroot
    rw [← hview] at hs
    split
    · rename_i hnone
      have htask : Task.onParts .load a.info.layout = .allocate := by
        rw [hlayout]
        exact if_pos hnone
      have hnew : Ends (LoadM.ofLedger (allocateBits env depth ((a.fill (.host .empty) []).frame :: frames)
          (.blank id "" (.bits layout) position))) t fun out _ =>
          ∀ e, out.error? = some e → e.Traced env base .load ⟨hostedBits a out.atom .empty, frames⟩ :=
        traced_newRoot hlayout hdepth base htask rfl rfl t.ledger
      refine hnew.bind fun out u hout => ?_
      split
      · exact Ends.pure (Outcome.blames_some (hout _ ‹_›) rfl rfl)
      · exact Ends.pure (Outcome.blames_none (site_ready (hostedBits a out.atom _)) rfl rfl)
    · exact blames_loadRoot hlayout hdepth ‹_› rfl (hostedAt_of_bitPosition hposition) hs

end Hosts

/-! ## Loading -/

/-- An atom of bytes that was loaded. -/
theorem blaming_load (env : Env κ) (base : View) (depth : Nat) :
    BlamingLoad env base depth (load env depth) := by
  induction depth with
  | zero => exact fun frames a s hdepth _ _ => Ends.pure ⟨Outcome.blames_nesting hdepth a, rfl⟩
  | succ depth ih =>
    intro frames a s hdepth hbits hs
    have hinner : frames.length + 1 + depth = Layout.nestingLimit := by omega
    have hkept : Ends (load env (depth + 1) frames a) s fun _ t => t.view.rewound = s.view.rewound :=
      (harmless_load env (depth + 1) frames a s).contents
    suffices h : Ends (load env (depth + 1) frames a) s fun out _ => out.Blames env base .load frames a.info
      from h.and hkept
    rw [load]
    split
    · rename_i layout hlayout
      refine Ends.pure (Outcome.blames_some (.own fun _ _ he => ?_) rfl rfl)
      cases he
      exact .alone hlayout (hbits (by rw [isBits, hlayout]; rfl))
    · rename_i layout hlayout
      refine Ends.via (fun b t => b = a.cleared ∧ t.view = s.view) ⟨rfl, rfl⟩ fun b t hb => ?_
      obtain ⟨rfl, hview⟩ := hb
      have hsame : a.cleared.info.layout = .bytes layout := (Info.layout_of_site (site_cleared a)).trans hlayout
      have hblank := isBlank_cleared a
      have hstart := Frame.Has.start .group hblank
      have ht : t.view.rewound = Place.viewIn base frames a.cleared.info := by
        rw [hview, hs]
        cases frames <;> cases a <;> rfl
      cases layout
      case record name fields =>
        exact (blames_loadFields ih frames hinner hsame hstart _ fields rfl ht).mono fun _ _ h => h.cleared
      case array element shape =>
        cases shape with
        | counted count =>
          exact (blames_loadCounted ih frames hinner hsame hstart count _ ht).mono fun _ _ h => h.cleared
        | block extent =>
          exact (blames_loadBlock ih frames hinner hsame hblank ht).mono fun _ _ h => h.cleared
        | terminated rule =>
          exact (blames_loadOpen ih frames hinner (some rule) rfl hsame hstart rfl _ (Nat.zero_add _)
            ht).mono fun _ _ h => h.cleared
        | unending =>
          exact (blames_loadOpen ih frames hinner none rfl hsame hstart rfl _ (Nat.zero_add _)
            ht).mono fun _ _ h => h.cleared
      case union name members size =>
        exact (blames_loadUnion ih frames hinner hsame hblank ht).mono fun _ _ h => h.cleared
      case bits root order => exact (blames_loadHost hsame hblank hinner ht).mono fun _ _ h => h.cleared
      all_goals exact (blames_loadLeaf frames hsame hblank ht).mono fun _ _ h => h.cleared

end BinaryLayout
