import BinaryLayout.Proofs.Flags.Edit
import BinaryLayout.Proofs.Placement.Document

/-!
# Flags in a document

Whether operations succeed or fail, the flags of all atoms tell the truth. Two things are left open. Bytes
that are assigned to a text as such are stored without being decoded, so a text that does not decode may go
unmarked if its bytes were given. And what a null pointer refers to gets content when it is allocated, or
pointed at an address if it is a pointer itself; nothing else does that.

## Main definitions

* `Operation.Minds`: an operation uses of what is left open only what may be used.
* `Document.ReachableBy`: the documents that operations of some kind make.
* `Operation.GivesBytes`, `Operation.SparesNull`: the two kinds of operations.

## Main statements

* `Document.ReachableBy.undecodable_iff`: a text is marked exactly if it does not decode.
* `Document.ReachableBy.null_empty`: what a null pointer refers to stays empty.
-/

namespace BinaryLayout

variable {κ α : Type}

open Atom

namespace Atom

variable {a : Atom κ}

/-- An atom without content takes no bytes. -/
theorem size_of_empty (hcontent : a.content = .empty) (htail : a.info.tail = []) : a.size = 0 := by
  obtain ⟨info, content, parts⟩ := a
  cases hcontent
  rw [size, htail]
  simp [contentSize, bitCount, bytesOfBits]

/-- An atom without content gives no bytes. -/
theorem serialize_of_empty (hcontent : a.content = .empty) (htail : a.info.tail = []) {order : ByteOrder} :
    a.serialize order = [] := by
  obtain ⟨info, content, parts⟩ := a
  cases hcontent
  replace htail : info.tail = [] := htail
  simp [serialize, writeBits, BitWriter.finish, BitWriter.new, htail]

end Atom

/-- Moving an atom within its surroundings does not matter. -/
theorem flagged_assemble_of_unplaced {w : Leeway} {a b : Atom κ} (h : b.unplaced = a.unplaced)
    {frames : List (Frame κ)} (ha : Everywhere (Flagged w) (Place.assemble a frames)) :
    Everywhere (Flagged w) (Place.assemble b frames) :=
  flagged_assemble_of (flagged_of_unplaced h ha.of_assemble) ha (null_of_unplaced h)

namespace Document

variable {w : Leeway} {d : Document κ}

/-! ## Pointers -/

/-- What a pointer refers to, and whether it is a null pointer. -/
theorem truthful_loadReferent (env : Env κ) (p : Place κ) (s : LoadState κ) :
    Ends (loadReferent env p) s fun result _ => ∀ a, result = .ok a → Everywhere (Flagged w) a := by
  rw [loadReferent]
  split
  · exact Ends.pure fun _ h => by cases h
  · have hblank (name : String) (layout : AtomLayout κ) (offset : Nat) :
        Ends (LoadM.ofLedger (LedgerM.spawn name layout offset)) s fun a _ =>
          (a.mapInfo fun info => { info with null := true }).IsBlank := by
      refine (LoadM.ends_spawn name layout offset s).mono fun a _ h => ?_
      obtain ⟨htail, hinitialized, hundecodable, hcontent, hparts⟩ := isBlank_iff.1 h.1
      refine isBlank_iff.2 ⟨?_, ?_, ?_, ?_, ?_⟩
      · rw [info_mapInfo]
        exact htail
      · rw [info_mapInfo]
        exact hinitialized
      · rw [info_mapInfo]
        exact hundecodable
      · rw [content_mapInfo]
        exact hcontent
      · rw [parts_mapInfo]
        exact hparts
    refine (hblank _ _ _).bind fun a t ha => Ends.pure fun b hb => ?_
    cases hb
    exact (ha.truthful rfl).flags
  · refine (LoadM.truthful_spawn w _ _ _ s).bind fun blank t hblank => ?_
    refine (truthful_load env Layout.nestingLimit _ hblank.null (.inl hblank) t).bind fun out u hout => ?_
    split
    · refine Ends.pure fun a ha => ?_
      cases ha
      exact hout.flags
    · exact (Ends.trivial _ u).bind fun _ _ _ => Ends.pure fun _ h => by cases h

/-- A pointer with what it refers to. -/
theorem flagged_followPointer (env : Env κ) {p : Place κ} (hp : Everywhere (Flagged w) p.root.atom)
    (s : LoadState κ) :
    Ends (followPointer env p) s fun result _ =>
      ∀ q, result = .ok q → Everywhere (Flagged w) q.root.atom := by
  rw [followPointer]
  split
  · exact Ends.pure fun _ h => by cases h
  · refine Ends.pure fun q hq => ?_
    cases hq
    exact hp
  · refine ((truthful_loadReferent (w := w) env p s).and (arrives_loadReferent env p s)).bind
      fun result t hresult => ?_
    obtain ⟨hflags, hpointer⟩ := hresult
    split
    · exact Ends.pure fun _ h => by cases h
    · obtain ⟨⟨wire, hcontent⟩, -⟩ := hpointer
      refine Ends.pure fun q hq => ?_
      cases hq
      have hatom : p.atom.Truthful w p.atom.info.null := ⟨rfl, hp.of_assemble⟩
      refine flagged_assemble_of (hatom.push (hflags _ rfl) fun hpointer => ?_).flags hp ?_
      · exact absurd hcontent (hpointer wire)
      · rw [info_push]

/-! ## Operations -/

/-- Whether the computation succeeds or fails, the flags of all atoms tell the truth. -/
def Telling (w : Leeway) (d : Document κ) (m : DocumentM κ α) : Prop :=
  Yields m d (fun _ t => t.Throughout (Flagged w)) fun _ t => t.Throughout (Flagged w)

theorem Telling.forget {m : DocumentM κ α} (h : Telling w d m) : Telling w d (do let _ ← m) :=
  Yields.bind h fun _ _ ht => Yields.pure ht

section Operations

variable (hflags : d.Throughout (Flagged w)) {id : Nat} (hid : d.Live id)

include hflags hid

/-- Edits of an atom of which something is known. -/
theorem telling_edit {m : EditM κ Unit} {R : Place κ → Prop} (hready : ∀ p, d.find? id = some p → R p)
    (hm : ∀ s : Workplace κ, Everywhere (Flagged w) s.whole → R s.place → Heeds w s m) :
    Telling w d (edit id m) := by
  refine yields_edit hid fun p hp hfind _ => ?_
  exact Yields.mono (hm ⟨d.ledger, p⟩ (hflags.place hp) (hready p hfind))
    (fun _ s hs => hflags.put hs.flags _ _) fun _ s hs => hflags.put hs.flags _ _

theorem telling_assign {v : Value} (hv : v.AllBytes w.bytes) : Telling w d (assign id v) :=
  DocumentM.yields_got <| telling_edit hflags hid (R := fun _ => True) (fun _ _ => trivial)
    fun _ hs _ => EditM.heeds_setValue d.env hv hs

theorem telling_recalculate (hrules : d.env.GivesBytes w.bytes) : Telling w d (recalculate id) :=
  DocumentM.yields_got <| telling_edit hflags hid (R := fun _ => True) (fun _ _ => trivial)
    fun _ hs _ => EditM.heeds_recalculate hrules hs

theorem telling_reference (hnull : ∀ p, d.find? id = some p → p.atom.info.null = true → w.content)
    (address : Nat) : Telling w d (reference id address) :=
  DocumentM.yields_got <| telling_edit hflags hid hnull
    fun _ hs hnull => EditM.heeds_reference d.env address hs hnull

theorem telling_allocateAtom (hnull : ∀ p, d.find? id = some p → p.atom.info.null = true → w.content) :
    Telling w d (allocateAtom id) :=
  DocumentM.yields_got <| telling_edit hflags hid hnull fun _ hs hnull =>
    Heeds.bind (EditM.heeds_allocate hs hnull) fun _ _ ht => EditM.heeds_reflow ht.flags

theorem telling_assignAt (path : String) {v : Value} (hv : v.AllBytes w.bytes) :
    Telling w d (assignAt id path v) := by
  refine DocumentM.yields_got ?_
  refine Yields.via (fun q t => t = d ∧ d.locate id path = .ok q) ?_ fun q t ht => ?_
  · exact DocumentM.yields_ofExcept (fun q hq => ⟨rfl, hq⟩) fun _ _ => hflags
  · obtain ⟨rfl, hlocate⟩ := ht
    exact telling_assign hflags (live_of_mem (mem_places_of_locate hid hlocate)) hv

theorem telling_loadAtom : Telling w d (loadAtom id) := by
  refine (DocumentM.yields_place hid).bind fun p t ht => ?_
  obtain ⟨⟨hp, hfind, -⟩, rfl⟩ := ht
  dsimp only
  split
  · exact Yields.throw_bind hflags
  · rename_i hnull
    rw [Bool.not_eq_true] at hnull
    refine (DocumentM.yields_get t).bind fun e u hu => ?_
    obtain ⟨rfl, rfl⟩ := hu
    have hwhole := hflags.place hp
    have hload := truthful_load (w := w) u.env Layout.nestingLimit p.frames hnull
      (.inl ⟨hnull, hwhole.of_assemble⟩) ⟨u.ledger, u.sources, .source u.source⟩
    refine (DocumentM.yields_ofLoad hload).bind fun out t ht => ?_
    obtain ⟨s, rfl, hout⟩ := ht
    have hloaded : Everywhere (Flagged w) (Place.root ⟨out.atom, p.frames⟩).atom :=
      flagged_assemble_of hout.flags hwhole (hout.null.trans hnull.symm)
    split
    · refine Yields.via (fun _ t => t.Throughout (Flagged w)) (Yields.modified ?_) fun _ _ ht =>
        Yields.throw ht
      exact hflags.put hloaded _ _
    · exact Yields.modified (hflags.put (flagged_reflow hloaded).1 _ _)

theorem telling_relocate (offset : Nat) : Telling w d (relocate id offset) := by
  refine (DocumentM.yields_place hid).bind fun p t ht => ?_
  obtain ⟨⟨hp, -, -⟩, rfl⟩ := ht
  have hsame : (p.atom.relocate offset).unplaced = p.atom.unplaced := by
    rw [Atom.relocate, unplaced_arranged]
    obtain ⟨⟨info, content, parts⟩, frames⟩ := p
    rfl
  exact Yields.modified (hflags.put (p := ⟨p.atom.relocate offset, p.frames⟩)
    (flagged_assemble_of_unplaced hsame (hflags.place hp)) _ _)

theorem telling_dereference : Telling w d (dereference id) := by
  refine (DocumentM.yields_place hid).bind fun p t ht => ?_
  obtain ⟨⟨hp, -, -⟩, rfl⟩ := ht
  refine DocumentM.yields_got ?_
  have hfollow := flagged_followPointer t.env (hflags.place hp) ⟨t.ledger, t.sources, .source t.source⟩
  refine (DocumentM.yields_ofLoad hfollow).bind fun result u hu => ?_
  obtain ⟨s, rfl, hresult⟩ := hu
  split
  · exact Yields.throw hflags
  · refine Yields.via (fun _ u => u.Throughout (Flagged w)) (Yields.modified ?_) fun _ _ hu => Yields.pure hu
    exact hflags.put (hresult _ rfl) _ _

theorem telling_commit (hrules : d.env.GivesBytes w.bytes) : Telling w d (commit id) := by
  refine (DocumentM.yields_place hid).bind fun p t ht => ?_
  obtain ⟨⟨hp, -, -⟩, rfl⟩ := ht
  have howner := live_of_mem (mem_places_of_root p.root_byteOwner hp)
  refine Yields.bind (telling_recalculate hflags howner hrules) fun _ u hu => ?_
  refine Yields.via (fun _ v => v = u) ?_ fun q v hv => ?_
  · exact DocumentM.yields_got (DocumentM.yields_ofExcept (fun _ _ => rfl) fun _ _ => hu)
  subst hv
  refine DocumentM.yields_got ?_
  refine Yields.via (fun _ x => x.Throughout (Flagged w)) ?_ fun _ x hx => ?_
  · exact DocumentM.yields_ofSources (fun _ => hu) fun _ => hu
  refine Yields.via (fun _ y => y.Throughout (Flagged w)) ?_ fun written y hy => ?_
  · exact DocumentM.yields_ofSources (fun _ => hx) fun _ => hx
  split
  · exact Yields.throw hy
  · exact Yields.pure hy

theorem telling_discard : Telling w d (discard id) := by
  refine (DocumentM.yields_place hid).bind fun p t ht => ?_
  obtain ⟨-, rfl⟩ := ht
  dsimp only
  split
  · exact Yields.throw_bind hflags
  · exact Yields.modified (hflags.remove p.atom)

theorem telling_cast (layout : Layout κ) : Telling w d (cast id layout) := by
  refine (DocumentM.yields_place hid).bind fun p t ht => ?_
  obtain ⟨-, rfl⟩ := ht
  refine DocumentM.yields_got ?_
  refine (DocumentM.yields_ofLedger (LedgerM.truthful_spawn w _ _ _ _)).bind fun blank u hu => ?_
  obtain ⟨l, rfl, hblank⟩ := hu
  have hload (bytes : Bytes) (offset : Nat) :
      Ends (LedgerM.fromBytes bytes offset (load t.env Layout.nestingLimit [] blank)) l
        fun out _ => out.atom.Truthful w false :=
    LedgerM.ends_fromBytes (truthful_load t.env Layout.nestingLimit [] hblank.null (.inl hblank) _)
  refine (DocumentM.yields_ofLedger (hload _ _)).bind fun out v hv => ?_
  obtain ⟨m, rfl, hout⟩ := hv
  split
  · exact Yields.via (fun _ x => x.Throughout (Flagged w)) hflags fun _ _ hx => Yields.throw hx
  · exact Yields.via (fun _ x => x.Throughout (Flagged w)) (Yields.modified (hflags.add hout.flags m))
      fun _ _ hx => Yields.pure hx

theorem telling_copy : Telling w d (copy id) := by
  refine (DocumentM.yields_place hid).bind fun p t ht => ?_
  obtain ⟨-, rfl⟩ := ht
  split
  · exact telling_cast hflags hid _
  · exact Yields.throw hflags

end Operations

theorem telling_referenceAtom (hflags : d.Throughout (Flagged w)) {id target : Nat} (hid : d.Live id)
    (htarget : d.Live target) (hnull : ∀ p, d.find? id = some p → p.atom.info.null = true → w.content) :
    Telling w d (referenceAtom id target) := by
  refine (DocumentM.yields_place htarget).bind fun p t ht => ?_
  obtain ⟨-, rfl⟩ := ht
  exact telling_reference hflags hid hnull _

/-! ## Outermost atoms -/

/-- No null pointer refers to a new outermost atom. -/
theorem Balanced.telling_create (hd : d.Balanced) (hflags : d.Throughout (Flagged w)) (layout : Layout κ)
    (name : String) (offset : Nat) {failed : Error → Document κ → Prop} :
    Yields (create layout name offset) d (fun id t => t.Throughout (Flagged w) ∧ t.Live id
      ∧ ∀ p, t.find? id = some p → p.atom.info.null = false) failed := by
  refine (DocumentM.yields_ofLedger ((Ends.spawn name (.bytes layout) offset d.ledger).and
    (LedgerM.truthful_spawn w name (.bytes layout) offset d.ledger))).bind fun a t ht => ?_
  obtain ⟨l, rfl, ⟨-, -, -, hcame⟩, hblank⟩ := ht
  obtain ⟨hadd, hbalanced⟩ := hd.add hcame
  refine Yields.via (fun _ u => u = ({ d with ledger := l }.add a)) (Yields.modified rfl)
    fun _ u hu => ?_
  subst hu
  have hroot : a ∈ ({ d with ledger := l }.add a).roots := by
    rw [hadd]
    exact List.mem_cons_self
  refine Yields.pure ⟨hflags.add hblank.flags l, live_of_mem (p := ⟨a, []⟩) (mem_places.2 hroot),
    fun p hfind => ?_⟩
  rw [hbalanced.find?_root hroot, Option.some.injEq] at hfind
  subst hfind
  exact hblank.null

/-- An operation on a new outermost atom, which is taken back if the operation fails. -/
theorem Balanced.telling_createWith (hd : d.Balanced) (hflags : d.Throughout (Flagged w))
    (layout : Layout κ) (name : String) (offset : Nat) {m : Nat → DocumentM κ Unit}
    (hm : ∀ (t : Document κ) id, t.Throughout (Flagged w) → t.Live id →
      (∀ p, t.find? id = some p → p.atom.info.null = false) → Telling w t (m id)) :
    Telling w d (createWith layout name offset m) := by
  refine Yields.bind (hd.telling_create hflags layout name offset) fun id t ht => ?_
  obtain ⟨htflags, hlive, hnull⟩ := ht
  refine Yields.via (fun _ u => u.Throughout (Flagged w)) ?_ fun _ _ hu => Yields.pure hu
  refine Yields.tryCatch (hm t id htflags hlive hnull) fun e u hu => ?_
  refine Yields.via (fun _ v => v = u) ?_ fun p v hv => ?_
  · exact DocumentM.yields_got (DocumentM.yields_ofExcept (fun _ _ => rfl) fun _ _ => hu)
  subst hv
  exact Yields.via (fun _ x => x.Throughout (Flagged w)) (Yields.modified (hu.remove p.atom))
    fun _ _ hx => Yields.throw hx

/-! ## Runs -/

/-- Of what is left open about flags the operation uses no more than `w` says. -/
def Operation.Minds (w : Leeway) (d : Document κ) : Operation κ → Prop
  | .allocateAtom id | .reference id _ | .referenceAtom id _ =>
    ∀ p, d.find? id = some p → p.atom.info.null = true → w.content
  | .assign _ v | .assignAt _ _ v => v.AllBytes w.bytes
  | .recalculate _ | .commit _ => d.env.GivesBytes w.bytes
  | _ => True

/-- What one operation keeps. -/
theorem Balanced.telling_run (hd : d.Balanced) (hflags : d.Throughout (Flagged w)) (op : Operation κ)
    (hlive : ∀ id ∈ op.handles, d.Live id) (hminds : op.Minds w d) : Telling w d op.run := by
  have hone {id : Nat} (h : op.handles = [id]) : d.Live id :=
    hlive id (h ▸ List.mem_singleton_self id)
  cases op with
  | create layout name offset =>
    exact .forget ((hd.telling_create hflags layout name offset).mono (fun _ _ h => h.1) fun _ _ h => h)
  | loadNew layout name offset =>
    exact .forget (hd.telling_createWith hflags layout name offset
      fun _ _ htflags hid _ => telling_loadAtom htflags hid)
  | allocateNew layout name =>
    refine .forget (hd.telling_createWith hflags layout name 0 fun t _ htflags hid hnull =>
      telling_allocateAtom htflags hid fun p hfind h => ?_)
    cases (hnull p hfind).symm.trans h
  | loadAtom id => exact telling_loadAtom hflags (hone rfl)
  | allocateAtom id => exact telling_allocateAtom hflags (hone rfl) hminds
  | assign id v => exact telling_assign hflags (hone rfl) hminds
  | assignAt id path v => exact telling_assignAt hflags (hone rfl) path hminds
  | recalculate id => exact telling_recalculate hflags (hone rfl) hminds
  | dereference id => exact .forget (telling_dereference hflags (hone rfl))
  | reference id address => exact telling_reference hflags (hone rfl) hminds address
  | referenceAtom id target =>
    have hid := hlive id List.mem_cons_self
    have htarget := hlive target (List.mem_cons_of_mem _ List.mem_cons_self)
    exact telling_referenceAtom hflags hid htarget hminds
  | relocate id offset => exact telling_relocate hflags (hone rfl) offset
  | commit id => exact telling_commit hflags (hone rfl) hminds
  | cast id layout => exact .forget (telling_cast hflags (hone rfl) layout)
  | copy id => exact .forget (telling_copy hflags (hone rfl))
  | discard id => exact telling_discard hflags (hone rfl)
  | takeWarnings => exact Yields.modified hflags

/-- The documents that allowed operations on live handles make of an empty one, whether they succeed or
fail. The open sources may change at any time. -/
inductive ReachableBy (allowed : Document κ → Operation κ → Prop) : Document κ → Prop
  | empty (env : Env κ) (sources : Sources) (source : Nat) : ReachableBy allowed { env, sources, source }
  | step {d : Document κ} (op : Operation κ) (hd : ReachableBy allowed d)
      (hlive : ∀ id ∈ op.handles, d.Live id) (hallowed : allowed d op) :
      ReachableBy allowed (op.run.run d).2
  | outside {d : Document κ} (sources : Sources) (hd : ReachableBy allowed d) :
      ReachableBy allowed { d with sources }

namespace ReachableBy

variable {allowed : Document κ → Operation κ → Prop}

theorem reachable (h : ReachableBy allowed d) : Reachable d := by
  induction h with
  | empty env sources source => exact .empty env sources source
  | step op _ hlive _ ih => exact .step op ih hlive
  | outside sources _ ih => exact .outside sources ih

/-- What a run of operations keeps. -/
theorem flags (h : ReachableBy allowed d) (hminds : ∀ d op, allowed d op → op.Minds w d) :
    d.Throughout (Flagged w) := by
  induction h with
  | empty env sources source => exact fun _ ha => absurd ha List.not_mem_nil
  | step op hd hlive hallowed ih =>
    exact (hd.reachable.balanced.telling_run ih op hlive (hminds _ _ hallowed)).of_run
  | outside sources _ ih => exact ih

end ReachableBy

/-- All raw byte strings that the operation stores are `given`. -/
def Operation.GivesBytes (given : Bytes → Prop) (d : Document κ) : Operation κ → Prop
  | .assign _ v | .assignAt _ _ v => v.AllBytes given
  | .recalculate _ | .commit _ => d.env.GivesBytes given
  | _ => True

/-- The operation neither allocates what a null pointer refers to nor points it at an address. -/
def Operation.SparesNull (d : Document κ) : Operation κ → Prop
  | .allocateAtom id | .reference id _ | .referenceAtom id _ =>
    ∀ p, d.find? id = some p → p.atom.info.null = false
  | _ => True

namespace ReachableBy

/-- An atom that is marked as undecodable has a text that fails to decode, and unless its bytes were given as
such, every atom whose text fails to decode is marked. -/
theorem undecodable_iff {given : Bytes → Prop} (h : ReachableBy (Operation.GivesBytes given) d)
    {p : Place κ} (hp : p ∈ d.places) :
    (p.atom.info.undecodable = true → ∃ fault, p.text = .error (.located p.path (.decode fault)))
      ∧ ((∀ raw, p.atom.content = .raw raw → ¬ given raw) →
        (p.atom.info.undecodable = true ↔ ∃ fault, p.text = .error (.located p.path (.decode fault)))) := by
  have hflags : d.Throughout (Flagged ⟨True, given⟩) := h.flags fun d op hop => by
    cases op with
    | allocateAtom | reference | referenceAtom => exact fun _ _ _ => trivial
    | create | loadNew | allocateNew | loadAtom | assign | assignAt | recalculate | dereference | relocate
    | commit | cast | copy | discard | takeWarnings => exact hop
  obtain ⟨hmarked, hunmarked, -, -⟩ := (hflags.place hp).of_assemble.here
  rw [Place.text_error_iff]
  refine ⟨hmarked, fun hgiven => ⟨hmarked, fun ⟨_, hundecodable⟩ => ?_⟩⟩
  refine (hunmarked hundecodable).resolve_right ?_
  rintro ⟨raw, hcontent, hraw⟩
  exact hgiven raw hcontent hraw

/-- What a null pointer refers to is not initialized, takes no bytes and gives none. -/
theorem null_empty (h : ReachableBy Operation.SparesNull d) {p : Place κ} (hp : p ∈ d.places)
    (hnull : p.atom.info.null = true) :
    p.atom.info.initialized = false ∧ p.atom.size = 0 ∧ ∀ standard, p.serialize standard = [] := by
  have hflags : d.Throughout (Flagged ⟨False, fun _ => True⟩) := h.flags fun d op hop => by
    have hall (v : Value) : v.AllBytes fun _ => True := v.allBytes_of_forall fun _ => trivial
    cases op with
    | allocateAtom | reference | referenceAtom =>
      exact fun p hp hnull => Bool.false_ne_true ((hop p hp).symm.trans hnull)
    | assign id v => exact hall v
    | assignAt id path v => exact hall v
    | recalculate | commit => exact fun _ _ v _ => hall v
    | create | loadNew | allocateNew | loadAtom | dereference | relocate | cast | copy | discard
    | takeWarnings => exact trivial
  obtain ⟨hinitialized, hcontent, htail⟩ :=
    ((hflags.place hp).of_assemble.here.null hnull).resolve_left id
  exact ⟨hinitialized, size_of_empty hcontent htail, fun _ => serialize_of_empty hcontent htail⟩

end ReachableBy

end Document

/-! ## A text that does not decode -/

namespace PlainBytes

/-- Nothing is computed. -/
def rules : Rules Unit where
  layout _ _ := .ok (.block 1)
  bitLayout _ _ := .ok (.int 1 false)
  extent _ _ := .ok 1
  update _ _ := .ok (.unsigned 0)
  accepts _ _ _ _ := true
  distance _ n := n
  toAddress _ _ _ := .ok 0
  ofAddress _ _ _ := .ok 0

def empty (bytes : Array UInt8) : Document Unit where
  env := ⟨{}, rules⟩
  sources := [.memory bytes false 0]
  source := 0

end PlainBytes

namespace LooseText

open Document PlainBytes

def loaded (character : UInt8) : Document Unit :=
  ((Operation.loadNew (.text ⟨.ascii, .terminated⟩) "s" 0).run.run (empty #[character, 0])).2

def given : Document Unit := ((Operation.assign 0 (.bytes [0xFF, 0])).run.run (loaded 0x61)).2

/-- The bytes were loaded, so that the text is marked. -/
theorem marked_of_loaded_bytes : ∃ p ∈ (loaded 0xFF).places, p.atom.info.undecodable = true
    ∧ ∃ fault, p.text = .error (.located p.path (.decode fault)) := by
  have hloaded : ReachableBy (Operation.GivesBytes fun _ => False) (loaded 0xFF) :=
    .step (.loadNew (.text ⟨.ascii, .terminated⟩) "s" 0) (.empty ..) nofun trivial
  have hshown : ((loaded 0xFF).find? 0).map (fun p => p.atom.info.undecodable) = some true := by
    decide +kernel
  obtain ⟨p, hp, hfind, -⟩ := find?_of_live (show (loaded 0xFF).Live 0 by decide +kernel)
  rw [hfind, Option.map_some, Option.some.injEq] at hshown
  exact ⟨p, hp, hshown, ((ReachableBy.undecodable_iff hloaded hp).2 fun _ _ => id).1 hshown⟩

/-- The bytes were given, and the text is not marked. -/
theorem unmarked_of_given_bytes : Attained given ∧ ∃ p ∈ given.places, p.atom.info.initialized = true
    ∧ p.atom.info.undecodable = false ∧ ∃ fault, p.text = .error (.located p.path (.decode fault)) := by
  have hloaded : Attained (loaded 0x61) :=
    .step (.loadNew (.text ⟨.ascii, .terminated⟩) "s" 0) (.empty ..) nofun trivial
      (ok_of_toOption (by decide +kernel))
  refine ⟨.step (.assign 0 (.bytes [0xFF, 0])) hloaded (List.forall_mem_singleton.2 (by decide +kernel))
    trivial (ok_of_toOption (by decide +kernel)), ?_⟩
  have hshown : (given.find? 0).map (fun p => (p.atom.info.initialized, p.atom.info.undecodable,
      p.atom.info.null, p.atom.info.layout.isUndecodable p.atom.content))
      = some (true, false, false, true) := by
    decide +kernel
  obtain ⟨p, hp, hfind, -⟩ := find?_of_live (show given.Live 0 by decide +kernel)
  rw [hfind, Option.map_some, Option.some.injEq] at hshown
  simp only [Prod.mk.injEq] at hshown
  obtain ⟨hinitialized, hunmarked, hnull, hundecodable⟩ := hshown
  exact ⟨p, hp, hinitialized, hunmarked, Place.text_error_iff.2 ⟨hnull, hundecodable⟩⟩

end LooseText

/-! ## What a null pointer refers to -/

namespace NullPointer

open Document PlainBytes

def layout : Layout Unit := .pointer .u8 (.int .u8) .absolute

def loaded : Document Unit := ((Operation.loadNew layout "p" 0).run.run (empty #[0])).2

def followed : Document Unit := ((Operation.dereference 0).run.run loaded).2

/-- A value for what it refers to was refused. -/
def refused : Document Unit := ((Operation.assign 1 (.unsigned 5)).run.run followed).2

def allocated : Document Unit := ((Operation.allocateAtom 1).run.run followed).2

theorem null_of_refused : ∃ p ∈ refused.places, p.atom.info.null = true ∧ p.atom.info.initialized = false
    ∧ p.atom.size = 0 ∧ ∀ standard, p.serialize standard = [] := by
  have hloaded : ReachableBy Operation.SparesNull loaded :=
    .step (.loadNew layout "p" 0) (.empty ..) nofun trivial
  have hfollowed : ReachableBy Operation.SparesNull followed :=
    .step (.dereference 0) hloaded (List.forall_mem_singleton.2 (by decide +kernel)) trivial
  have hrefused : ReachableBy Operation.SparesNull refused :=
    .step (.assign 1 (.unsigned 5)) hfollowed (List.forall_mem_singleton.2 (by decide +kernel)) trivial
  have hshown : (refused.find? 1).map (fun p => p.atom.info.null) = some true := by
    decide +kernel
  obtain ⟨p, hp, hfind, -⟩ := find?_of_live (show refused.Live 1 by decide +kernel)
  rw [hfind, Option.map_some, Option.some.injEq] at hshown
  exact ⟨p, hp, hshown, ReachableBy.null_empty hrefused hp hshown⟩

/-- It is initialized then, and takes a byte. -/
theorem size_of_allocated : Attained allocated ∧ ∃ p ∈ allocated.places, p.atom.info.null = true
    ∧ p.atom.info.initialized = true ∧ p.atom.size = 1 ∧ p.serialize .big = [0] := by
  have hloaded : Attained loaded :=
    .step (.loadNew layout "p" 0) (.empty ..) nofun trivial (ok_of_toOption (by decide +kernel))
  have hfollowed : Attained followed :=
    .step (.dereference 0) hloaded (List.forall_mem_singleton.2 (by decide +kernel)) trivial
      (ok_of_toOption (by decide +kernel))
  refine ⟨.step (.allocateAtom 1) hfollowed (List.forall_mem_singleton.2 (by decide +kernel)) trivial
    (ok_of_toOption (by decide +kernel)), ?_⟩
  have hshown : (allocated.find? 1).map (fun p => (p.atom.info.null, p.atom.info.initialized, p.atom.size,
      p.serialize .big)) = some (true, true, 1, [0]) := by
    decide +kernel
  obtain ⟨p, hp, hfind, -⟩ := find?_of_live (show allocated.Live 1 by decide +kernel)
  rw [hfind, Option.map_some, Option.some.injEq] at hshown
  simp only [Prod.mk.injEq] at hshown
  exact ⟨p, hp, hshown⟩

end NullPointer

end BinaryLayout
