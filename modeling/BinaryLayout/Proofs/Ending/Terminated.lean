import BinaryLayout.Proofs.Blame.Warnings
import BinaryLayout.Proofs.Ending.Limit
import BinaryLayout.Proofs.Placement.Document

/-!
# Terminated arrays stop at the first element that is accepted

A terminated array, of bytes or of bits, is loaded element by element. After each one its rule is asked,
while that element is the last, and the first element that the rule accepts stays the last. Where no
further element can be loaded before that, the array ends too, with a warning that counts its elements,
all of which the rule refused. The elements bear their indices as names and stand one after another. In
bits this holds as far as there are offsets: an element behind the last offset is said to stand there.

A warning is known to be the array's own by its path, since those of its elements have longer ones.

## Main definitions

* `Env.acceptsAt`: what the rule says of an element when it is the last.
* `Atom.Terminated`: how a terminated array ended.
* `Frame.Lined`, `Frame.Refused`: the elements so far, in turn, none of which was accepted.

## Main statements

* `load_terminated`: how terminated arrays of bytes and of bits end.
-/

namespace BinaryLayout

variable {κ : Type}

open Atom

/-- What the rule of an array says of the element at `i` when it has just been loaded, and there is no
other after it. -/
def Env.acceptsAt (env : Env κ) (rule : κ) (frames : List (Frame κ)) (info : Info κ)
    (elements : List (Atom κ)) (i : Nat) (e : Atom κ) : Bool :=
  env.rules.accepts rule env.config (i + 1) ⟨e, ⟨info, .group, (elements.take i).reverse, []⟩ :: frames⟩

/-- How a terminated array ended that was loaded with these elements and new warnings: it has its first
element that its rule accepts as the last one, or a warning of its own that counts the elements, none of
which is accepted. In both cases they stand one after another. -/
structure Atom.Terminated (env : Env κ) (rule : κ) (frames : List (Frame κ)) (inBits : Bool) (info : Info κ)
    (new : List Warning) (elements : List (Atom κ)) : Prop where
  accepted : (∀ count, .unterminatedArray (Place.pathOnto [] info.name frames) count ∉ new) →
    (∀ (i : Nat) (e : Atom κ), elements[i]? = some e → i + 1 < elements.length →
      env.acceptsAt rule frames info elements i e = false)
    ∧ ∃ e, elements[elements.length - 1]? = some e
      ∧ env.acceptsAt rule frames info elements (elements.length - 1) e = true
  unaccepted : ∀ count, .unterminatedArray (Place.pathOnto [] info.name frames) count ∈ new →
    count = elements.length
      ∧ ∀ (i : Nat) (e : Atom κ), elements[i]? = some e → env.acceptsAt rule frames info elements i e = false
  name : ∀ (i : Nat) (e : Atom κ), elements[i]? = some e → e.info.name = toString i
  first : ∀ e : Atom κ, elements[0]? = some e → e.info.offset = info.offset
  /-- Bytes stand back to back, and so do bits up to the last offset. -/
  next : ∀ (i : Nat) (b c : Atom κ), elements[i]? = some b → elements[i + 1]? = some c →
    c.info.offset = if inBits then satAdd b.info.offset b.bits else b.info.offset + b.size

/-- Warnings about others change nothing. -/
theorem Atom.Terminated.after {env : Env κ} {rule : κ} {frames : List (Frame κ)} {inBits : Bool}
    {info : Info κ} {new : List Warning} {elements : List (Atom κ)}
    (h : Terminated env rule frames inBits info new elements) {early : List Warning}
    (hother : ∀ w ∈ early, w.path ≠ Place.pathOnto [] info.name frames) :
    Terminated env rule frames inBits info (new ++ early) elements := by
  refine { h with accepted := fun hnone => h.accepted fun count hmem => ?_, unaccepted := fun count hmem => ?_ }
  · exact hnone count (List.mem_append_left _ hmem)
  · rcases List.mem_append.1 hmem with hmem | hmem
    · exact h.unaccepted count hmem
    · exact absurd rfl (hother _ hmem)

namespace Frame

/-! ## The elements so far -/

/-- The parts before the gap are elements that bear their indices and stand one after another, and the
next one stands at `cursor`. -/
structure Lined (inBits : Bool) (f : Frame κ) (cursor : Nat) : Prop where
  content : f.content = .group
  right : f.right = []
  name : ∀ (i : Nat) (e : Atom κ), f.left.reverse[i]? = some e → e.info.name = toString i
  inTurn : InTurn inBits f.info.offset f.left.reverse
  cursor : turnEnd inBits f.info.offset f.left.reverse = cursor
  /-- Elements of bytes end where there are offsets. -/
  ends : inBits = false → ∀ e ∈ f.left, e.info.offset + e.size < pow2 64

/-- The elements before the gap were refused one after another. -/
def Refused (env : Env κ) (rule : κ) (frames : List (Frame κ)) (f : Frame κ) : Prop :=
  ∀ (i : Nat) (e : Atom κ), f.left.reverse[i]? = some e →
    env.acceptsAt rule frames f.info f.left.reverse i e = false

variable {env : Env κ} {rule : κ} {frames : List (Frame κ)} {inBits : Bool} {f : Frame κ} {cursor : Nat}
  {e added : Atom κ} {i : Nat}

/-- An element is one of those before the gap or the new one. -/
theorem cases_push (h : (f.push added).left.reverse[i]? = some e) :
    (i < f.left.length ∧ f.left.reverse[i]? = some e) ∨ (i = f.left.length ∧ e = added) := by
  rw [push, List.reverse_cons] at h
  rcases Nat.lt_trichotomy i f.left.length with hi | hi | hi
  · rw [List.getElem?_append_left (by simpa using hi)] at h
    exact .inl ⟨hi, h⟩
  · subst hi
    rw [List.getElem?_append_right (by simp), List.length_reverse, Nat.sub_self] at h
    exact .inr ⟨rfl, (Option.some.inj h).symm⟩
  · rw [List.getElem?_eq_none (by simp; omega)] at h
    cases h

/-- The rule is asked about an element before any after it is there. -/
theorem acceptsAt_push (hi : i < f.left.length) (e added : Atom κ) :
    env.acceptsAt rule frames f.info (f.push added).left.reverse i e =
      env.acceptsAt rule frames f.info f.left.reverse i e := by
  have htake : (f.left.reverse ++ [added]).take i = f.left.reverse.take i :=
    List.take_append_of_le_length (by rw [List.length_reverse]; exact Nat.le_of_lt hi)
  rw [Env.acceptsAt, Env.acceptsAt, push, List.reverse_cons, htake]

namespace Lined

theorem start (a : Atom κ) : Lined inBits (a.fill .group []).frame a.info.offset :=
  ⟨rfl, rfl, fun i e h => by simp [Atom.frame, fill] at h, trivial, rfl,
    fun _ _ h => by simp [Atom.frame, fill] at h⟩

/-- The rule is asked about the next element in the frame that it stands in. -/
theorem acceptsAt_next (h : Lined inBits f cursor) (e : Atom κ) :
    env.acceptsAt rule frames f.info (f.push e).left.reverse f.left.length e =
      env.rules.accepts rule env.config (f.left.length + 1) ⟨e, f :: frames⟩ := by
  obtain ⟨info, content, left, right⟩ := f
  obtain rfl : content = .group := h.content
  obtain rfl : right = [] := h.right
  simp [Env.acceptsAt, Frame.push]

/-- One more element. -/
theorem push (h : Lined inBits f cursor) (hname : e.info.name = toString f.left.length)
    (hoffset : e.info.offset = cursor) (hends : inBits = false → cursor + e.size < pow2 64) :
    Lined inBits (f.push e) (satAdd cursor (e.step inBits)) := by
  refine ⟨h.content, h.right, fun i b hb => ?_, ?_, ?_, fun hbytes b hb => ?_⟩
  · rcases cases_push hb with ⟨-, hb⟩ | ⟨rfl, rfl⟩
    · exact h.name i b hb
    · exact hname
  · rw [Frame.push, List.reverse_cons, inTurn_append]
    exact ⟨h.inTurn, hoffset.trans h.cursor.symm, trivial⟩
  · rw [Frame.push, List.reverse_cons, turnEnd_append, h.cursor]
    rfl
  · rcases List.mem_cons.1 hb with rfl | hb
    · exact hoffset ▸ hends hbytes
    · exact h.ends hbytes b hb

theorem next (h : Lined inBits f cursor) {i : Nat} {b c : Atom κ} (hb : f.left.reverse[i]? = some b)
    (hc : f.left.reverse[i + 1]? = some c) :
    c.info.offset = if inBits then satAdd b.info.offset b.bits else b.info.offset + b.size := by
  have hnext := h.inTurn.next hb hc
  cases inBits with
  | true => exact hnext
  | false =>
    have hmem : b ∈ f.left := List.mem_reverse.1 (List.mem_of_getElem? hb)
    exact hnext.trans (satAdd_of_lt (h.ends rfl b hmem))

theorem first (h : Lined inBits f cursor) (he : f.left.reverse[0]? = some e) :
    e.info.offset = f.info.offset := by
  have hturn := h.inTurn
  cases hleft : f.left.reverse with
  | nil =>
    rw [hleft] at he
    cases he
  | cons b rest =>
    rw [hleft] at he hturn
    cases he
    exact hturn.1

end Lined

theorem Refused.push (h : Refused env rule frames f) (hlined : Lined inBits f cursor)
    (hrefused : env.rules.accepts rule env.config (f.left.length + 1) ⟨e, f :: frames⟩ = false) :
    Refused env rule frames (f.push e) := by
  intro i b hb
  rcases cases_push hb with ⟨hi, hb⟩ | ⟨rfl, rfl⟩
  · exact (acceptsAt_push hi b e).trans (h i b hb)
  · exact (hlined.acceptsAt_next b).trans hrefused

/-- No further element can be loaded. -/
theorem Refused.unterminated (h : Refused env rule frames f) (hlined : Lined inBits f cursor) :
    Terminated env rule frames inBits f.info
      [.unterminatedArray (Place.path ⟨f.close, frames⟩) f.left.length] f.left.reverse where
  accepted hnone := absurd (List.mem_singleton.2 rfl) (hnone f.left.length)
  unaccepted count hmem := by
    have hcount : count = f.left.length := (Warning.unterminatedArray.inj (List.mem_singleton.1 hmem)).2
    exact ⟨hcount.trans List.length_reverse.symm, h⟩
  name := hlined.name
  first _ := hlined.first
  next _ _ _ := hlined.next

/-- The next element is accepted. -/
theorem Refused.terminated (h : Refused env rule frames f) (hlined : Lined inBits f cursor)
    (hname : e.info.name = toString f.left.length) (hoffset : e.info.offset = cursor)
    (hends : inBits = false → cursor + e.size < pow2 64)
    (haccepted : env.rules.accepts rule env.config (f.left.length + 1) ⟨e, f :: frames⟩ = true) :
    Terminated env rule frames inBits f.info [] (f.push e).left.reverse := by
  have hpushed := hlined.push hname hoffset hends
  have hlength : (f.push e).left.reverse.length = f.left.length + 1 := List.length_reverse
  refine ⟨fun _ => ⟨fun i b hb hi => ?_, e, ?_, ?_⟩, nofun, hpushed.name, fun _ => hpushed.first,
    fun _ _ _ => hpushed.next⟩
  · rcases cases_push hb with ⟨hlt, hb⟩ | ⟨rfl, -⟩
    · exact (acceptsAt_push hlt b e).trans (h i b hb)
    · exact absurd hi (by omega)
  · rw [hlength, Nat.add_sub_cancel, Frame.push, List.reverse_cons]
    simp
  · rw [hlength, Nat.add_sub_cancel, hlined.acceptsAt_next, haccepted]

end Frame

/-! ## The loops -/

/-- An array of the elements, which ended in one of the two ways. -/
def Outcome.Terminates (env : Env κ) (rule : κ) (frames : List (Frame κ)) (inBits : Bool) (info : Info κ)
    (l : Ledger κ) (out : Outcome κ) (m : Ledger κ) : Prop :=
  out.error? = none → ∃ elements new, out.atom.content = .group ∧ out.atom.parts = elements
    ∧ m.warnings = new ++ l.warnings ∧ Terminated env rule frames inBits info new elements

section Loops

variable {env : Env κ} {rule : κ} {frames : List (Frame κ)} {f : Frame κ}

theorem Outcome.Terminates.failed {inBits : Bool} {info : Info κ} {l m : Ledger κ} {a : Atom κ} {e : Error} :
    Terminates env rule frames inBits info l ⟨a, some e⟩ m := by
  intro h
  cases h

/-- The warnings that an element caused are not the array's. -/
theorem Outcome.Terminates.after {inBits : Bool} {l m n : Ledger κ} {out : Outcome κ} {e : Atom κ}
    (hearly : l.WarnsAt (Place.path ⟨e, f :: frames⟩) m)
    (h : Terminates env rule frames inBits f.info m out n) :
    Terminates env rule frames inBits f.info l out n := by
  intro hok
  obtain ⟨elements, new, hcontent, hparts, hwarnings, hterminated⟩ := h hok
  obtain ⟨early, hm, hpaths⟩ := hearly
  refine ⟨elements, new ++ early, hcontent, hparts, by rw [hwarnings, hm, List.append_assoc],
    hterminated.after fun w hw => Place.path_part_ne f frames e (hpaths w hw)⟩

/-- The array is complete with the element that was accepted. -/
theorem Frame.Refused.terminates {inBits : Bool} {cursor : Nat} (h : f.Refused env rule frames)
    (hlined : f.Lined inBits cursor) {e : Atom κ} (hname : e.info.name = toString f.left.length)
    (hoffset : e.info.offset = cursor) (hends : inBits = false → cursor + e.size < pow2 64)
    (haccepted : env.rules.accepts rule env.config (f.left.length + 1) ⟨e, f :: frames⟩ = true)
    (l : Ledger κ) : Outcome.Terminates env rule frames inBits f.info l ⟨(f.plug e).ready, none⟩ l := by
  refine fun _ => ⟨(f.push e).left.reverse, [], ?_, ?_, rfl,
    h.terminated hlined hname hoffset hends haccepted⟩
  · rw [content_ready, Frame.content_plug, hlined.content]
  · rw [parts_ready, Frame.parts_plug, hlined.right, Frame.push, List.reverse_cons]

/-- The array is complete with the elements so far, and warned about. -/
theorem Frame.Refused.terminates_short {inBits : Bool} {cursor : Nat} (h : f.Refused env rule frames)
    (hlined : f.Lined inBits cursor) {l m : Ledger κ}
    (hm : m.warnings = .unterminatedArray (Place.path ⟨f.close, frames⟩) f.left.length :: l.warnings) :
    Outcome.Terminates env rule frames inBits f.info l ⟨f.close.ready, none⟩ m := by
  refine fun _ => ⟨f.left.reverse, _, ?_, ?_, hm, h.unterminated hlined⟩
  · rw [content_ready, Frame.content_close, hlined.content]
  · rw [parts_ready, Frame.parts_close, hlined.right, List.append_nil]

/-- What is known of the element that was loaded next, however that ended. -/
structure NextLoaded (frames : List (Frame κ)) (f : Frame κ) (cursor : Nat) (l : Ledger κ)
    (out : Outcome κ) (m : Ledger κ) : Prop where
  name : out.atom.info.name = toString f.left.length
  offset : out.atom.info.offset = cursor
  warns : ∃ e, l.WarnsAt (Place.path ⟨e, f :: frames⟩) m

/-- A blank atom for the next element. -/
structure NextBlank (f : Frame κ) (cursor : Nat) (l : Ledger κ) (blank : Atom κ) (m : Ledger κ) : Prop where
  isBlank : blank.IsBlank
  name : blank.info.name = toString f.left.length
  offset : blank.info.offset = cursor
  quiet : m.warnings = l.warnings

theorem nextBlank_spawn (f : Frame κ) (cursor : Nat) (layout : AtomLayout κ) (l : Ledger κ) :
    Ends (LedgerM.spawn (toString f.left.length) layout cursor) l (NextBlank f cursor l) :=
  ⟨isBlank_blank _ _ _ _, rfl, rfl, l.warnings_take⟩

/-- The next element is loaded from its blank atom. -/
theorem NextBlank.loaded {σ : Type} {ledger : σ → Ledger κ} {part : LoadPart (StateM σ) κ}
    (hpart : Making ledger part) {cursor : Nat} {l : Ledger κ} {blank : Atom κ} {s : σ}
    (h : NextBlank f cursor l blank (ledger s)) :
    Ends (part (f :: frames) blank) s fun out t => NextLoaded frames f cursor l out (ledger t) :=
  (hpart (f :: frames) blank s h.isBlank).mono fun _ _ hmade =>
    ⟨(Info.name_of_site hmade.site).trans h.name, (Info.offset_of_site hmade.site).trans h.offset, blank,
      (Ledger.WarnsAt.of_eq h.quiet).trans hmade.warns⟩

end Loops

variable (env : Env κ)

/-- Loading an open array of bytes by a rule. -/
theorem terminates_loadOpen (depth : Nat) (element : Layout κ) {rule : κ} {frames : List (Frame κ)}
    (budget : Nat) {f : Frame κ} {cursor : Nat} (hlined : f.Lined false cursor)
    (hrefused : f.Refused env rule frames) (s : LoadState κ) :
    Ends (loadOpen env (load env depth) element (some rule) frames budget f f.left.length cursor) s
      fun out t => out.Terminates env rule frames false f.info s.ledger t.ledger := by
  induction budget generalizing f cursor s with
  | zero => exact Ends.pure .failed
  | succ budget ih =>
    have hnext {out : Outcome κ} {t : LoadState κ}
        (h : OpenTurn.loadNext env depth element frames ⟨f, f.left.length, cursor, s⟩ = (out, t)) :
        NextLoaded frames f cursor s.ledger out t.ledger := by
      have hends : Ends (do
          let blank ← LoadM.ofLedger (LedgerM.spawn (toString f.left.length) (.bytes element) cursor)
          load env depth (f :: frames) blank : LoadM κ (Outcome κ)) s fun out t =>
            NextLoaded frames f cursor s.ledger out t.ledger :=
        Ends.via (fun blank t => NextBlank f cursor s.ledger blank t.ledger)
          (nextBlank_spawn f cursor (.bytes element) s.ledger)
          fun _ _ hblank => hblank.loaded (making_load env depth)
      rw [OpenTurn.loadNext] at h
      rw [Ends, h] at hends
      exact hends
    refine ends_loadOpen_succ (q := ⟨f, f.left.length, cursor, s⟩) budget (fun hend => by cases hend)
      (fun e error t _ hloaded => ?_)
      fun e t _ hloaded => ?_
    · obtain ⟨_, hwarns⟩ := (hnext hloaded).warns
      split
      · exact Ends.pure .failed
      · refine Ends.via (fun _ u => u.ledger = Ledger.release e t.ledger) rfl fun _ u hu => ?_
        refine Ends.via (fun _ v => v = u) rfl fun viewEnd? v hv => ?_
        subst hv
        split
        · refine (LoadM.ends_warn _ v).bind fun _ w hw => Ends.pure ?_
          refine Outcome.Terminates.after hwarns (hrefused.terminates_short hlined ?_)
          rw [hw, Ledger.warn, hu, Ledger.warnings_release]
        · exact Ends.pure .failed
    · have he := hnext hloaded
      obtain ⟨_, hwarns⟩ := he.warns
      split
      · exact Ends.pure .failed
      · rename_i after hspan
        have hsum : after = satAdd cursor (e.step false) ∧ cursor + e.size < pow2 64 := by
          rw [spanEnd] at hspan
          split at hspan
          · rename_i hlt
            exact ⟨(Except.ok.inj hspan).symm.trans (satAdd_of_lt hlt).symm, hlt⟩
          · cases hspan
        obtain ⟨rfl, hends⟩ := hsum
        split
        · rename_i haccepted
          exact Ends.pure (.after hwarns
            (hrefused.terminates hlined he.name he.offset (fun _ => hends) haccepted t.ledger))
        · rename_i hother
          have hpushed := hlined.push he.name he.offset fun _ => hends
          have hboth := hrefused.push hlined (Bool.eq_false_iff.2 hother)
          exact (ih hpushed hboth t).mono fun _ _ h => Outcome.Terminates.after hwarns h

/-- Loading the elements of an array of bits by a rule. -/
theorem terminates_loadBitElements (depth : Nat) (element : BitLayout κ) {rule : κ} {frames : List (Frame κ)}
    (budget : Nat) {f : Frame κ} {cursor : Nat} (hlined : f.Lined true cursor)
    (hrefused : f.Refused env rule frames) (s : BitLoadState κ) :
    Ends (loadBitElements env (loadBits env depth) element (.terminated rule) frames budget f f.left.length
      cursor) s fun out t => out.Terminates env rule frames true f.info s.base.ledger t.base.ledger := by
  induction budget generalizing f cursor s with
  | zero => exact Ends.pure .failed
  | succ budget ih =>
    rw [loadBitElements]
    refine Ends.via (fun blank t => NextBlank f cursor s.base.ledger blank (BitLoadM.ledgerOf t))
      (nextBlank_spawn f cursor (.bits element) s.base.ledger) fun blank t hblank => ?_
    refine (hblank.loaded (making_loadBits env depth)).bind fun out u hout => ?_
    obtain ⟨_, hwarns⟩ := hout.warns
    have hbytes {P : Prop} (h : true = false) : P := by cases h
    split
    · split
      · rename_i haccepted
        exact Ends.pure (.after hwarns
          (hrefused.terminates hlined hout.name hout.offset hbytes haccepted u.base.ledger))
      · rename_i hother
        have hpushed := hlined.push hout.name hout.offset hbytes
        have hboth := hrefused.push hlined (Bool.eq_false_iff.2 hother)
        exact (ih hpushed hboth u).mono fun _ _ h => Outcome.Terminates.after hwarns h
    · exact Ends.pure .failed
    · split
      · exact Ends.pure .failed
      · refine Ends.via (fun _ v => v.base.ledger = Ledger.release out.atom u.base.ledger) rfl
          fun _ v hv => ?_
        refine (BitLoadM.leaves_bounded v).bind fun bounded w hw => ?_
        split
        · refine Ends.via (fun _ x => x.base.ledger = Ledger.warn w.base.ledger
            (.unterminatedArray (Place.path ⟨f.close, frames⟩) f.left.length)) rfl fun _ x hx => Ends.pure ?_
          refine Outcome.Terminates.after hwarns (hrefused.terminates_short hlined ?_)
          have hledger : w.base.ledger = v.base.ledger := hw
          rw [hx, Ledger.warn, hledger, hv, Ledger.warnings_release]
          rfl
        · exact Ends.pure .failed

/-! ## Arrays -/

theorem refused_start (rule : κ) (frames : List (Frame κ)) (a : Atom κ) :
    (a.fill .group []).frame.Refused env rule frames := by
  intro i e h
  simp [Atom.frame, fill] at h

/-- A terminated array, of bytes or of bits, that was loaded has its first element that its rule accepts as
the last one, or a warning of its own that counts the elements, none of which its rule accepts. The elements
stand one after another. -/
theorem load_terminated (rule : κ) (depth : Nat) (frames : List (Frame κ)) (a : Atom κ) :
    (∀ (element : Layout κ) (s : LoadState κ),
      a.info.layout = .bytes (.array element (.terminated rule)) →
        Ends (load env depth frames a) s fun out t =>
          out.Terminates env rule frames false a.cleared.info s.ledger t.ledger)
    ∧ ∀ (element : BitLayout κ) (s : BitLoadState κ),
      a.info.layout = .bits (.array element (.terminated rule)) →
        Ends (loadBits env depth frames a) s fun out t =>
          out.Terminates env rule frames true a.info s.base.ledger t.base.ledger := by
  refine ⟨fun element s ha => ?_, fun element s ha => ?_⟩
  · cases depth with
    | zero => exact Ends.pure nofun
    | succ depth =>
      have hopen : a.info.layout = .bytes (.array element (.openEnded (some rule))) := ha
      rw [Ends, load_openEnded env depth frames hopen]
      have hloop := terminates_loadOpen env depth element env.config.maxElements
        (Frame.Lined.start a.cleared) (refused_start env rule frames a.cleared) (OpenTurn.first a s).state
      rw [Info.offset_of_site (site_cleared a)] at hloop
      intro hok
      obtain ⟨elements, new, hcontent, hparts, hwarnings, hterminated⟩ := hloop hok
      refine ⟨elements, new, hcontent, hparts, hwarnings.trans ?_, hterminated⟩
      rw [OpenTurn.first, Ledger.warnings_releaseAll]
  · cases depth with
    | zero => exact Ends.pure nofun
    | succ depth =>
      rw [loadBits, ha]
      exact terminates_loadBitElements env depth element env.config.maxElements (Frame.Lined.start a)
        (refused_start env rule frames a) s

/-- Three bytes end an array of bytes whose rule would accept its fifth element, and one of bits whose rule
accepts the second one, at the last bit that it needs. -/
theorem load_terminated_of_three :
    let array : Atom Unit := .blank 0 "a" (.bytes (.array (.int .u8) (.terminated ()))) 0
    let bits : Atom Unit := .blank 0 "b" (.bits (.array (.int 12 false) (.terminated ()))) 0
    let run := load ⟨{}, .endingWith 5⟩ 2 [] array threeBytes
    let bitRun := loadBits ⟨{}, .endingWith 2⟩ 2 [] bits ⟨threeBytes, .new .big, 0⟩
    run.2.ledger.warnings = [.unterminatedArray ["a"] 3]
      ∧ run.1.Terminates ⟨{}, .endingWith 5⟩ () [] false array.cleared.info threeBytes.ledger run.2.ledger
      ∧ bitRun.1.error? = none ∧ bitRun.2.base.ledger.warnings = [] ∧ bitRun.1.atom.parts.length = 2
      ∧ bitRun.1.Terminates ⟨{}, .endingWith 2⟩ () [] true bits.info threeBytes.ledger bitRun.2.base.ledger := by
  intro array bits
  refine ⟨by decide +kernel, ?_, by decide +kernel, by decide +kernel, by decide +kernel, ?_⟩
  · exact (load_terminated ⟨{}, .endingWith 5⟩ () 2 [] array).1 (.int .u8) threeBytes rfl
  · exact (load_terminated ⟨{}, .endingWith 2⟩ () 2 [] bits).2 (.int 12 false) _ rfl

/-- Zeros without end. -/
def zeros : LoadState Unit := ⟨{}, [.device { data := #[0], repeats := true }], .source 0⟩

/-- Two bytes of bits, from the last byte that has a place in bits on. The second element stands at the
last bit there is, which is the last one of the first. -/
theorem overlap_at_last_offset :
    let host : Atom Unit :=
      .blank 0 "b" (.bytes (.bits (.array (.int 8 false) (.terminated ())) .big)) (pow2 61 - 1)
    let run := load ⟨{}, .endingWith 2⟩ 3 [] host zeros
    let elements := run.1.atom.parts.flatMap Atom.parts
    run.1.error? = none ∧ run.2.ledger.warnings = []
      ∧ elements.map (fun e => (e.info.offset, e.bits)) = [(pow2 64 - 8, 8), (pow2 64 - 1, 8)]
      ∧ ¬ ∀ (i : Nat) (b c : Atom Unit), elements[i]? = some b → elements[i + 1]? = some c →
        c.info.offset = b.info.offset + b.bits := by
  intro host run elements
  have hshown : elements.map (fun e => (e.info.offset, e.bits)) = [(pow2 64 - 8, 8), (pow2 64 - 1, 8)] := by
    decide +kernel
  refine ⟨by decide +kernel, by decide +kernel, hshown, fun h => ?_⟩
  clear_value elements
  match elements with
  | [] | [_] => exact absurd (congrArg List.length hshown) (by simp)
  | b :: c :: _ =>
    simp only [List.map_cons, List.cons.injEq, Prod.mk.injEq] at hshown
    obtain ⟨⟨hb, hbits⟩, ⟨hc, -⟩, -⟩ := hshown
    have hnext := h 0 b c rfl rfl
    rw [hb, hbits, hc] at hnext
    exact absurd hnext (by decide +kernel)

end BinaryLayout
