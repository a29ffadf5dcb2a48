import BinaryLayout.Proofs.Blame.Load
import BinaryLayout.Proofs.Document.Rules
import BinaryLayout.Proofs.Extent.Allocate

/-!
# Errors of outermost atoms

An error of an atom that gets its default content comes from a place that failed, at or below the atom.
The path leads there as long as no container of bits stands in between; members of unions are loaded, and
their errors name every place.

An outermost atom is loaded or gets its default content, whether it was there before or is new. If that
fails, then a place failed at or below what is left of the atom, and the path of the error leads there from
the outermost atom on. It does not where a rule of a layout fails two levels deep in bits that get their
default content.

## Main definitions

* `Document.FillsOutermost`: the operations that fill an outermost atom.

## Main statements

* `blames_allocateFields`, `blames_allocateElements`, `blames_allocateHost`: fields, elements and hosts.
* `blaming_allocate`: default content for an atom of any layout.
* `Document.reached_of_failure`: the errors of these operations.
-/

namespace BinaryLayout

section Default

variable {κ : Type} {env : Env κ} {base : View} {depth : Nat}

open Atom

/-- A field that got its default content, and then the bytes that it has to take. -/
theorem Atom.complete_forceExtent {config : Config} {extent : Nat} {a : Atom κ}
    (h : a.info.initialized = true) : (a.forceExtent config extent).Complete := by
  have hextent : (a.forceExtent config extent).info.extent? = some extent := by
    rw [forceExtent, info_mapInfo]
  refine ⟨by rw [forceExtent, info_mapInfo]; exact h, ?_⟩
  rw [hextent]
  rintro _ ⟨⟩
  rw [size, contentSize_forceExtent, forceExtent, info_mapInfo]
  simp only [List.length_append, List.length_take, List.length_replicate]
  omega

section Parts

variable {part : LoadPart (LedgerM κ) κ} (hpart : BlamingDefault env base depth part)
  (frames : List (Frame κ)) (hdepth : frames.length + 1 + depth = Layout.nestingLimit)

include hpart hdepth

theorem blames_allocateFields {name : String} {all : List (Field κ (Layout κ))} {f : Frame κ}
    {index : Nat} (hlayout : f.info.layout = .bytes (.record name all)) (hf : f.Has index)
    (cursor : Nat) (fields : List (Field κ (Layout κ))) (hfields : all.drop index = fields)
    (l : Ledger κ) :
    Ends (allocateFields env part frames f index cursor fields) l fun out _ =>
      out.Blames env base .allocate frames f.info := by
  induction fields generalizing f index cursor l with
  | nil => exact Ends.pure (Outcome.blames_ready f)
  | cons field fields ih =>
    obtain ⟨hfield, hrest⟩ := next_of_drop hfields
    rw [allocateFields]
    split
    · rename_i e hresolve
      exact Ends.pure (Outcome.blames_close (hf.rule hlayout hfield hresolve))
    · rename_i layout _
      refine (Ends.spawn_blank field.name (.bytes layout) cursor l).bind fun blank m hblank => ?_
      obtain ⟨id, rfl⟩ := hblank
      refine (hpart (f :: frames) _ m hdepth).bind fun out n hout => ?_
      have hcompletes := hout.completes rfl
      have hadds : f.Adds .allocate .allocate (Atom.blank id field.name (.bytes layout) cursor).info
          field.name :=
        ⟨by rw [hlayout]; rfl, by rw [hlayout]; rfl, by rw [Place.segment, hlayout]; rfl⟩
      split
      · exact Ends.pure (Outcome.blames_close (f := f.push out.atom) (hcompletes.within hf.right hadds ‹_›))
      · rename_i herror _
        exact ih (f := f.push out.atom) hlayout (hf.push (hcompletes.complete herror)) _ hrest n
      · rename_i rule herror hrule
        split
        · rename_i e hextent
          rw [← hf.count] at hfield hextent
          refine Ends.pure (Outcome.blames_close (f := f.push out.atom) ?_)
          refine Error.Traced.within hf.right hadds.task (.own fun path problem he => ?_) ?_ ?_
          · rw [he] at hextent
            exact .extent rfl (hout.ready herror) hout.extent hlayout hfield hrule hextent
          · rw [isBits, Info.layout_of_site hout.site, hadds.bits]
          · rw [Info.name_of_site hout.site, hadds.segment]
        · rename_i extent _
          exact ih (f := f.push (out.atom.forceExtent env.config extent)) hlayout
            (hf.push (complete_forceExtent (hout.ready herror))) _ hrest n

theorem blames_allocateElements {element : Layout κ} {shape : Shape κ} {f : Frame κ} {index : Nat}
    (hlayout : f.info.layout = .bytes (.array element shape)) (hf : f.Has index) (count cursor : Nat)
    (l : Ledger κ) :
    Ends (allocateElements part element frames count f index cursor) l fun out _ =>
      out.Blames env base .allocate frames f.info := by
  induction count generalizing f index cursor l with
  | zero => exact Ends.pure (Outcome.blames_ready f)
  | succ count ih =>
    rw [allocateElements]
    refine (Ends.spawn_blank (toString index) (.bytes element) cursor l).bind fun blank m hblank => ?_
    obtain ⟨id, rfl⟩ := hblank
    refine (hpart (f :: frames) _ m hdepth).bind fun out n hout => ?_
    have hcompletes := hout.completes rfl
    have hadds : f.Adds .allocate .allocate (Atom.blank id (toString index) (.bytes element) cursor).info
        (Path.index index) :=
      ⟨by rw [hlayout]; rfl, by rw [hlayout]; rfl, by rw [Place.segment, hlayout]; rfl⟩
    dsimp only
    split
    · exact Ends.pure (Outcome.blames_close (f := f.push out.atom) (hcompletes.within hf.right hadds ‹_›))
    · rename_i herror
      exact ih (f := f.push out.atom) hlayout (hf.push (hcompletes.complete herror)) _ n

end Parts

theorem blames_allocateHost {layout : BitLayout κ} {order : ByteOrder} {a : Atom κ}
    {frames : List (Frame κ)} (hlayout : a.info.layout = .bytes (.bits layout order)) (hblank : a.IsBlank)
    (hdepth : frames.length + 1 + depth = Layout.nestingLimit) (l : Ledger κ) :
    Ends (allocateHost env depth layout frames a) l fun out _ =>
      out.Blames env base .allocate frames a.info := by
  have htask : Task.onParts .allocate a.info.layout = .allocate := by
    rw [hlayout]
    exact ite_self _
  rw [allocateHost]
  split
  · rename_i e hposition
    exact Ends.pure (Outcome.blames_some (traced_bitPosition hlayout hblank hposition) rfl rfl)
  · rename_i position _
    refine (Ends.spawn_blank "" (.bits layout) position l).bind fun root m hroot => ?_
    obtain ⟨id, rfl⟩ := hroot
    refine (traced_newRoot hlayout hdepth base htask rfl rfl m).bind fun out n hout => ?_
    dsimp only
    split
    · exact Ends.pure (Outcome.blames_some (hout _ ‹_›) rfl rfl)
    · refine Ends.pure (Outcome.blames_none ?_ ?_ ?_)
      · rw [site_ready, info_fixPad]
        rfl
      · rw [ready, info_mapInfo, info_fixPad]
        rfl
      · rw [ready, info_mapInfo]

/-- Default content for an atom without parts. -/
theorem blames_allocateLeaf (frames : List (Frame κ)) {layout : Layout κ} {a : Atom κ}
    (hlayout : a.info.layout = .bytes layout) (hblank : a.IsBlank) :
    (allocateLeaf env layout frames a).Blames env base .allocate frames a.info := by
  rw [allocateLeaf]
  split
  · rename_i e hdefault
    refine Outcome.blames_some (.bare ?_ fun problem he => ?_) rfl rfl
    · exact layout.isBare_defaultBytes env.config frames a.info.offset e hdefault
    · exact .default hlayout hblank (by rw [hdefault, he])
  · rw [withBytes_eq]
    exact Outcome.blames_none (site_ready (a.fill _ [])) rfl rfl

/-- Default content for an atom. -/
theorem blaming_allocate (env : Env κ) (base : View) (depth : Nat) :
    BlamingDefault env base depth (allocate env depth) := by
  induction depth with
  | zero => exact fun frames a l hdepth => Ends.pure (Outcome.blames_nesting hdepth a)
  | succ depth ih =>
    intro frames a l hdepth
    have hinner : frames.length + 1 + depth = Layout.nestingLimit := by omega
    rw [allocate]
    split
    · rename_i layout hlayout
      exact blaming_allocateBits env base (depth + 1) frames a l hdepth (by rw [isBits, hlayout]; rfl)
    · rename_i layout hlayout
      refine (Ends.clear_blank a l).bind fun b m hb => ?_
      subst hb
      have hsame : a.cleared.info.layout = .bytes layout := (Info.layout_of_site (site_cleared a)).trans hlayout
      have hblank := isBlank_cleared a
      have hstart := Frame.Has.start .group hblank
      cases layout
      case record name fields =>
        exact (blames_allocateFields ih frames hinner hsame hstart _ fields rfl m).mono fun _ _ h => h.cleared
      case array element shape =>
        refine (blames_allocateElements ih frames hinner hsame hstart _ _ m).bind fun out n hout => ?_
        have hdone : out.Blames env base .allocate frames a.cleared.info := hout
        split
        · rename_i e herror
          exact Ends.pure (Outcome.Blames.cleared
            (Outcome.blames_some (hdone.traced e herror) hdone.site hdone.extent))
        · rename_i herror
          refine Ends.pure (Outcome.Blames.cleared (Outcome.blames_none ?_ ?_ ?_))
          · rw [site_withTail, hdone.site]
          · rw [withTail, info_mapInfo]
            exact hdone.extent
          · rw [withTail, info_mapInfo]
            exact hdone.ready herror
      case union name members size =>
        exact LedgerM.ends_fromBytes (Ends.mono
          (blames_startMembers (blaming_load env base depth) frames hinner hsame hblank _ _) fun _ _ h => h.cleared)
      case bits root order =>
        exact (blames_allocateHost hsame hblank hinner m).mono fun _ _ h => h.cleared
      all_goals exact Ends.pure (blames_allocateLeaf frames hsame hblank).cleared

end Default

variable {κ α : Type}

namespace Document

variable {d : Document κ} {id : Nat} {root : Atom κ} {out : Outcome κ} {task : Task} {e : Error}

def view (d : Document κ) : View := View.rewound (.source d.source, d.sources)

/-- The operations that fill an outermost atom, one that is there or a new one, with what is left of it. -/
inductive FillsOutermost (d : Document κ) :
    Task → Atom κ → Outcome κ → (α : Type) → DocumentM κ α → Prop
  | loadAtom {id : Nat} {root : Atom κ} (hfind : d.find? id = some ⟨root, []⟩)
      (hnull : root.info.null = false) :
      FillsOutermost d .load root
        (load d.env Layout.nestingLimit [] root ⟨d.ledger, d.sources, .source d.source⟩).1 Unit
        (loadAtom id)
  /-- What a null pointer refers to stays as it is. -/
  | loadNull {id : Nat} {root : Atom κ} (hfind : d.find? id = some ⟨root, []⟩)
      (hnull : root.info.null = true) : FillsOutermost d .load root ⟨root, none⟩ Unit (loadAtom id)
  | allocateAtom {id : Nat} {root : Atom κ} (hfind : d.find? id = some ⟨root, []⟩) :
      FillsOutermost d .allocate root (allocate d.env Layout.nestingLimit [] root d.ledger).1 Unit
        (allocateAtom id)
  | loadNew (layout : Layout κ) (name : String) (offset : Nat) :
      FillsOutermost d .load (d.next layout name offset)
        (load d.env Layout.nestingLimit [] (d.next layout name offset) d.loadingNext).1 Nat
        (loadNew layout name offset)
  | allocateNew (layout : Layout κ) (name : String) :
      FillsOutermost d .allocate (d.next layout name 0)
        (allocate d.env Layout.nestingLimit [] (d.next layout name 0) d.ledger.take.2).1 Nat
        (allocateNew layout name)

/-- The error of what is left of an outermost atom, with the name of the atom before its path. -/
def Names (env : Env κ) (base : View) (task : Task) (root : Atom κ) (out : Outcome κ) (e : Error) : Prop :=
  ∃ inner : Error, e = inner.within [root.info.name] ∧ out.atom.info.site = root.info.site
    ∧ inner.Traced env base task ⟨out.atom, []⟩

theorem Names.reached {env : Env κ} {base : View} {path : Path} {problem : Problem}
    (h : Names env base task root out (.located path problem)) :
    out.atom.info.site = root.info.site ∧ ∃ t q own, Reached env base task ⟨out.atom, []⟩ t q
      ∧ q.Fails env base t own problem ∧ (q.IsUnnamed t ∨ path.text = Path.text (q.path ++ own)) := by
  obtain ⟨inner, he, hsite, htraced⟩ := h
  cases inner with
  | schema fault => cases he
  | located short cause =>
    cases he
    obtain ⟨t, q, own, hreached, hfails, hpath⟩ := htraced short problem rfl
    refine ⟨hsite, t, q, own, hreached, hfails, hpath.imp_right fun htext => ?_⟩
    rw [← htext, Place.pathOnto, Info.name_of_site hsite]
    rfl

theorem names_of_blames {env : Env κ} {base : View} (h : out.Blames env base task [] root.info)
    (herror : out.error? = some e) : Names env base task root out (e.within [root.info.name]) :=
  ⟨e, rfl, h.site, h.traced e herror⟩

/-! ## Operations -/

/-- The atom, if it was the first, is still the first. -/
def StaysFirst (d : Document κ) (a : Atom κ) (t : Document κ) : Prop :=
  ∀ rest, d.roots = a :: rest → ∃ b others, t.roots = b :: others ∧ b.info.id = a.info.id

theorem staysFirst_put {a b : Atom κ} (hsite : b.info.site = a.info.site) (l : Ledger κ)
    (sources : Sources) : d.StaysFirst a (({ d with ledger := l, sources } : Document κ).put ⟨b, []⟩) := by
  intro rest hroots
  obtain ⟨others, hput⟩ :=
    roots_put (d := { d with ledger := l, sources }) hroots (Info.id_of_site hsite)
  exact ⟨b, others, hput, Info.id_of_site hsite⟩

/-- What a null pointer refers to is not loaded. -/
theorem names_loadNull (hfind : d.find? id = some ⟨root, []⟩) (hnull : root.info.null = true) :
    Yields (Document.loadAtom id) d (fun _ _ => True) fun e _ =>
      Names d.env d.view .load root ⟨root, none⟩ e := by
  refine Yields.via (fun p t => p = ⟨root, []⟩ ∧ t = d) (DocumentM.yields_found hfind ⟨rfl, rfl⟩)
    fun p t ht => ?_
  obtain ⟨rfl, rfl⟩ := ht
  dsimp only
  rw [if_pos hnull]
  refine Yields.throw_bind ⟨.located [] .nullDereference, rfl, rfl, .own fun path problem he => ?_⟩
  cases he
  exact .null hnull rfl

/-- Loading an outermost atom. -/
theorem names_loadAtom (hfind : d.find? id = some ⟨root, []⟩) (hnull : root.info.null = false) :
    Yields (Document.loadAtom id) d (fun _ _ => True) fun e t => d.StaysFirst root t
      ∧ Names d.env d.view .load root
        (load d.env Layout.nestingLimit [] root ⟨d.ledger, d.sources, .source d.source⟩).1 e := by
  refine Yields.via (fun p t => p = ⟨root, []⟩ ∧ t = d) (DocumentM.yields_found hfind ⟨rfl, rfl⟩)
    fun p t ht => ?_
  obtain ⟨rfl, rfl⟩ := ht
  dsimp only
  rw [hnull, if_neg Bool.false_ne_true]
  refine DocumentM.yields_got ?_
  have hblames : Ends (load t.env Layout.nestingLimit [] root) ⟨t.ledger, t.sources, .source t.source⟩
      fun out _ => out.Blames t.env t.view .load [] root.info :=
    (blaming_load t.env t.view Layout.nestingLimit [] root _ (Nat.zero_add _) (fun _ => rfl) rfl).1
  have hload := (Ends.trivial (load t.env Layout.nestingLimit [] root)
    ⟨t.ledger, t.sources, .source t.source⟩).and hblames
  refine (DocumentM.yields_ofLoad hload).bind fun out u hu => ?_
  obtain ⟨s, rfl, hrun, hblames⟩ := hu
  rw [← hrun]
  split
  · rename_i e herror
    refine Yields.via (fun _ v => t.StaysFirst root v)
      (Yields.modified (staysFirst_put hblames.site _ _)) fun _ v hv => ?_
    exact Yields.throw ⟨hv, names_of_blames hblames herror⟩
  · exact Yields.modified trivial

/-- Default content for an outermost atom. -/
theorem names_allocateAtom (hfind : d.find? id = some ⟨root, []⟩) :
    Yields (Document.allocateAtom id) d (fun _ _ => True) fun e t => d.StaysFirst root t
      ∧ Names d.env d.view .allocate root (allocate d.env Layout.nestingLimit [] root d.ledger).1 e := by
  refine DocumentM.yields_got (yields_edit_found hfind ?_)
  have hallocate := (Ends.trivial (allocate d.env Layout.nestingLimit [] root) d.ledger).and
    (blaming_allocate d.env d.view Layout.nestingLimit [] root d.ledger (Nat.zero_add _))
  refine Yields.via (fun _ _ => True) (EditM.yields_remake ?_) fun _ s _ => Yields.modified trivial
  refine hallocate.mono fun out l hout => ⟨fun _ => trivial, fun e herror => ?_⟩
  obtain ⟨hrun, hblames⟩ := hout
  rw [← hrun]
  exact ⟨staysFirst_put hblames.site _ _, names_of_blames hblames herror⟩

/-- A new outermost atom. If it cannot be filled then the error is that of filling it. -/
theorem names_createWith {m : Nat → DocumentM κ Unit} {post : Error → Prop} (layout : Layout κ)
    (name : String) (offset : Nat)
    (hm : ∀ t : Document κ, t.env = d.env → t.ledger = d.ledger.take.2 → t.sources = d.sources →
      t.source = d.source → t.find? (d.next layout name offset).info.id
        = some ⟨d.next layout name offset, []⟩ →
      Yields (m (d.next layout name offset).info.id) t (fun _ _ => True) fun e u =>
        t.StaysFirst (d.next layout name offset) u ∧ post e) :
    Yields (createWith layout name offset m) d (fun _ _ => True) fun e _ => post e := by
  let blank := d.next layout name offset
  let made := ({ d with ledger := d.ledger.take.2 } : Document κ).add blank
  have hroots : made.roots = blank :: _ := rfl
  have hcreate : Yields (create layout name offset) d (fun id t => id = blank.info.id ∧ t = made)
      fun e _ => post e := ⟨rfl, rfl⟩
  refine hcreate.bind fun id t ht => ?_
  obtain ⟨rfl, rfl⟩ := ht
  refine Yields.via (fun _ _ => True) ?_ fun _ _ _ => Yields.pure trivial
  refine Yields.tryCatch (hm made rfl rfl rfl rfl (find?_of_roots hroots)) fun e u hfailed => ?_
  obtain ⟨hfirst, hpost⟩ := hfailed
  obtain ⟨b, others, hothers, hid⟩ := hfirst _ hroots
  have hfound := find?_of_roots hothers
  rw [hid] at hfound
  refine Yields.via (fun _ _ => True) (DocumentM.yields_found hfound trivial) fun p v _ => ?_
  exact Yields.via (fun _ _ => True) (Yields.modified trivial) fun _ _ _ => Yields.throw hpost

/-- If an outermost atom cannot be filled, then the place failed that was filled last, at or below what is
left of the atom. The path of the error leads there from the atom on, one segment for each container, unless
the place is inside a container of bits that got its default content. -/
theorem reached_of_failure {m : DocumentM κ α} (hm : d.FillsOutermost task root out α m) {path : Path}
    {problem : Problem} (hfailure : (m.run d).1 = .error (.located path problem)) :
    out.atom.info.site = root.info.site ∧ ∃ t q own, Reached d.env d.view task ⟨out.atom, []⟩ t q
      ∧ q.Fails d.env d.view t own problem ∧ (q.IsUnnamed t ∨ path.text = Path.text (q.path ++ own)) := by
  suffices h : Yields m d (fun _ _ => True) fun e _ => Names d.env d.view task root out e from
    (h.of_error hfailure).reached
  cases hm with
  | loadAtom hfind hnull => exact (names_loadAtom hfind hnull).mono (fun _ _ h => h) fun _ _ h => h.2
  | loadNull hfind hnull => exact names_loadNull hfind hnull
  | allocateAtom hfind => exact (names_allocateAtom hfind).mono (fun _ _ h => h) fun _ _ h => h.2
  | loadNew layout name offset =>
    refine names_createWith layout name offset fun t henv hledger hsources hsource hfind => ?_
    have hload := names_loadAtom hfind rfl
    rwa [view, henv, hledger, hsources, hsource] at hload
  | allocateNew layout name =>
    refine names_createWith layout name 0 fun t henv hledger hsources hsource hfind => ?_
    have hallocate := names_allocateAtom hfind
    rwa [view, henv, hledger, hsources, hsource] at hallocate

end Document

def failure? {ε : Type} : Except ε α → Option ε
  | .ok _ => none
  | .error e => some e

theorem error_of_failure? {ε : Type} {result : Except ε α} {e : ε} (h : failure? result = some e) :
    result = .error e := by
  cases result with
  | ok a => cases h
  | error e' =>
    cases h
    rfl

/-! ## A rule that fails two levels deep -/

namespace NestedRule

open Document

/-- Every rule fails. -/
def rules : Rules Unit where
  layout _ _ := .error (.initialization (.reason "no"))
  bitLayout _ _ := .error (.initialization (.reason "no"))
  extent _ _ := .ok 0
  update _ _ := .ok (.unsigned 0)
  accepts _ _ _ _ := true
  distance _ n := n
  toAddress _ _ _ := .ok 0
  ofAddress _ _ _ := .ok 0

def empty : Document Unit where
  env := ⟨{}, rules⟩
  sources := [.memory #[1, 2, 3, 4] false 0]
  source := 0

def words : Layout Unit :=
  .record "R" [⟨"a", .given (.array (.record "S"
    [⟨"x", .given (.int .u8), none, none⟩, ⟨"y", .given (.int (.u16 .little)), none, none⟩]) (.counted 2)),
    none, none⟩]

/-- What is left of them when they are loaded from four bytes. -/
def half : Outcome Unit :=
  (load empty.env Layout.nestingLimit [] (empty.next words "r" 0) empty.loadingNext).1

/-- Four bytes end inside the second element. -/
theorem reached_of_short_source :
    ((loadNew words "r" 0).run empty).1 = .error (.located ["r", "a", "[1]", "y"] (.consume 4 2 0))
    ∧ ∃ t q own, Reached empty.env empty.view .load ⟨half.atom, []⟩ t q
      ∧ q.Fails empty.env empty.view t own (.consume 4 2 0)
      ∧ (q.IsUnnamed t ∨ Path.text ["r", "a", "[1]", "y"] = Path.text (q.path ++ own)) := by
  have hfailure : ((loadNew words "r" 0).run empty).1
      = .error (.located ["r", "a", "[1]", "y"] (.consume 4 2 0)) :=
    error_of_failure? (by decide +kernel)
  have hfills : FillsOutermost empty .load (empty.next words "r" 0) half Nat (loadNew words "r" 0) := by
    rw [half]
    exact .loadNew words "r" 0
  exact ⟨hfailure, (reached_of_failure hfills hfailure).2⟩

/-- A record of bits whose field gets no layout. -/
def inner : BitLayout Unit := .record "S" [⟨"x", .computed ()⟩]

def outer : BitLayout Unit := .record "R" [⟨"a", .given inner⟩]

/-- The field of the outer record, without the field that it should have. -/
def field : Atom Unit := .node { id := 2, name := "a", layout := .bits inner, offset := 0 } .group []

def root : Atom Unit := .node { id := 1, name := "", layout := .bits outer, offset := 0 } .group [field]

def host : Atom Unit :=
  .node { id := 0, name := "h", layout := .bytes (.bits outer .big), offset := 0 } (.host .empty) [root]

/-- What is left of the host when it gets its default content. -/
def left : Outcome Unit :=
  (allocate empty.env Layout.nestingLimit [] (empty.next (.bits outer .big) "h" 0) empty.ledger.take.2).1

/-- What the rule says. -/
def problem : Problem := .initialization (.reason "no")

section Reached

variable {base : View} {t : Task} {p q : Place Unit} {own : Path}

/-- What gets its default content last is a place itself, or its last part. -/
theorem reached_cases (h : Reached empty.env base .allocate p t q) :
    (t = .allocate ∧ q = p) ∨ ∃ f part, f.right = [] ∧ p.atom = f.plug part
      ∧ Reached empty.env base (Task.onParts .allocate f.info.layout) ⟨part, f :: p.frames⟩ t q := by
  cases h with
  | here => exact .inl ⟨rfl, rfl⟩
  | last hlast hbits hpart => exact .inr ⟨_, _, hlast, rfl, hpart⟩

/-- The only part is the last one. -/
theorem eq_of_plug {f : Frame Unit} {info : Info Unit} {content : Content} {a part : Atom Unit}
    (hright : f.right = []) (h : .node info content [a] = f.plug part) :
    part = a ∧ f = ⟨info, content, [], []⟩ := by
  obtain ⟨finfo, fcontent, fleft, fright⟩ := f
  cases hright
  rw [Frame.plug, List.reverseAux_eq, Atom.node.injEq] at h
  obtain ⟨rfl, rfl, hparts⟩ := h
  cases hleft : fleft.reverse with
  | nil =>
    rw [hleft] at hparts
    cases hparts
    rw [List.reverse_eq_nil_iff.1 hleft]
    exact ⟨rfl, rfl⟩
  | cons b bs =>
    rw [hleft] at hparts
    have hlength := congrArg List.length hparts
    rw [List.length_append] at hlength
    simp at hlength

/-- A host and what is in it fail like this for the rule of a field of bits. -/
theorem rule_of_fails (hfails : q.Fails empty.env base .allocate own problem)
    (hlayout : q.atom.info.layout = .bytes (.bits outer .big) ∨ q.atom.info.layout.isBits = true)
    (hframe : ∀ f ∈ q.frames.head?, ∀ name fields, f.info.layout ≠ .bytes (.record name fields)) :
    ∃ name fields, q.atom.info.layout = .bits (.record name fields)
      ∧ ∃ field ∈ fields, (∃ rule, field.layout = .computed rule) ∧ own = [field.name] := by
  cases hfails with
  | default hsame hblank hdefault =>
    rcases hlayout with hlayout | hlayout <;> rw [hsame] at hlayout <;> cases hlayout
    cases hdefault
  | position hsame hblank hposition =>
    rw [bitPosition] at hposition
    split at hposition <;> cases hposition
  | rule hsame =>
    rcases hlayout with hlayout | hlayout <;> rw [hsame] at hlayout <;> cases hlayout
  | @bitRule _ name fields field _ _ hsame hopen hfield hresolve =>
    refine ⟨name, fields, hsame, field, List.mem_of_getElem? hfield, ?_⟩
    cases hchoice : field.layout with
    | given layout =>
      rw [hchoice] at hresolve
      cases hresolve
    | computed rule =>
      rw [hchoice] at hresolve
      cases hresolve
      exact ⟨⟨rule, rfl⟩, rfl⟩
  | extent hframes hasked hnone hsame => exact absurd hsame (hframe _ (by rw [hframes]; rfl) _ _)

/-- Nothing but the rule of the inner field fails like this. -/
theorem path_of_fails (hreached : Reached empty.env base .allocate ⟨host, []⟩ t q)
    (hfails : q.Fails empty.env base t own problem) : q.path ++ own = ["h", "", "a", "x"] := by
  rcases reached_cases hreached with ⟨rfl, rfl⟩ | ⟨f, part, hright, hplug, hreached⟩
  · obtain ⟨name, fields, hsame, -⟩ := rule_of_fails hfails (.inl rfl) nofun
    cases hsame
  obtain ⟨rfl, rfl⟩ := eq_of_plug hright hplug
  rcases reached_cases hreached with ⟨rfl, rfl⟩ | ⟨f, part, hright, hplug, hreached⟩
  · obtain ⟨name, fields, hsame, field, hmem, ⟨rule, hrule⟩, -⟩ :=
      rule_of_fails hfails (.inr rfl) (by simp)
    cases hsame
    obtain rfl := List.mem_singleton.1 hmem
    cases hrule
  obtain ⟨rfl, rfl⟩ := eq_of_plug hright hplug
  rcases reached_cases hreached with ⟨rfl, rfl⟩ | ⟨f, part, hright, hplug, hreached⟩
  · obtain ⟨name, fields, hsame, field, hmem, -, rfl⟩ := rule_of_fails hfails (.inr rfl) (by simp)
    cases hsame
    obtain rfl := List.mem_singleton.1 hmem
    rfl
  · have hparts := congrArg (fun a => a.parts.length) hplug
    rw [Frame.parts_plug, List.length_append] at hparts
    cases hparts

end Reached

/-- The error does not name the field whose rule failed, nor anything else that failed. -/
theorem not_named_of_nested_rule :
    ((allocateNew (.bits outer .big) "h").run empty).1 = .error (.located ["h", "x"] problem)
    ∧ ¬∃ t q own, Reached empty.env empty.view .allocate ⟨left.atom, []⟩ t q
      ∧ q.Fails empty.env empty.view t own problem
      ∧ Path.text ["h", "x"] = Path.text (q.path ++ own) := by
  refine ⟨error_of_failure? (by decide +kernel), ?_⟩
  rintro ⟨t, q, own, hreached, hfails, htext⟩
  rw [path_of_fails hreached hfails] at htext
  exact absurd htext (by decide +kernel)

end NestedRule

end BinaryLayout
