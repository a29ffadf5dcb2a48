import BinaryLayout.Proofs.Extent.Basic
import BinaryLayout.Proofs.Extent.Bits

/-!
# Extents of what was loaded

A field of a forced extent and the elements of a block array are loaded through a window, so they
take no bytes past its end, and the bytes that they leave are read as a tail. So both come out with
exactly the bytes that were declared for them, whatever the source is.

## Main definitions

* `Outcome.Honours`: an atom that was loaded keeps to its extents, inside all windows.

## Main statements

* `honours_load`: an atom of bytes that was loaded.
-/

namespace BinaryLayout

variable {κ α : Type}

open Atom

/-- What the atom with this info was made into: one that ends inside all windows, and in which
everything keeps to its extents. -/
structure Outcome.Honours (info : Info κ) (s : LoadState κ) (out : Outcome κ) (t : LoadState κ) :
    Prop where
  limits : t.limits = s.limits
  extent : out.atom.info.extent? = info.extent?
  made : out.error? = none → out.atom.Made info
  inside : out.error? = none → s.Inside info.offset (info.offset + out.atom.size)

namespace Outcome.Honours

variable {info : Info κ} {s t u : LoadState κ} {out : Outcome κ}

theorem failed (h : t.limits = s.limits) (a : Atom κ) (e : Error)
    (ha : a.info.extent? = info.extent? := by rfl) : Outcome.Honours info s ⟨a, some e⟩ t := by
  refine ⟨h, ha, fun hnone => ?_, fun hnone => ?_⟩ <;> cases hnone

theorem done (h : t.limits = s.limits) {a : Atom κ} (ha : a.Made info)
    (hinside : s.Inside info.offset (info.offset + a.size)) : Outcome.Honours info s ⟨a, none⟩ t :=
  ⟨h, ha.extent, fun _ => ha, fun _ => hinside⟩

/-- Something was done before. -/
theorem after (hst : t.limits = s.limits) (h : out.Honours info t u) : out.Honours info s u :=
  ⟨h.limits.trans hst, h.extent, h.made, fun hnone => (h.inside hnone).of_limits hst⟩

end Outcome.Honours

/-- What blank atoms of bytes are made into. -/
def HonoursBytes (part : LoadPart (LoadM κ) κ) : Prop :=
  ∀ frames a s, a.IsBlank → a.isBits = false → Ends (part frames a) s (Outcome.Honours a.info s)

/-! ## Windows -/

namespace LoadM

variable {s : LoadState κ}

theorem limits_spawn (name : String) (layout : Layout κ) (offset : Nat) (s : LoadState κ) :
    Ends (ofLedger (LedgerM.spawn name (.bytes layout) offset)) s fun a t =>
      (a.IsBlank ∧ a.isBits = false) ∧ a.info.offset = offset ∧ a.info.extent? = none
        ∧ t.limits = s.limits :=
  ⟨⟨isBlank_blank _ _ _ _, rfl⟩, rfl, rfl, rfl⟩

/-- A computation on handles alone. -/
theorem limits_ofLedger (m : LedgerM κ α) (s : LoadState κ) :
    Ends (ofLedger m) s fun _ t => t.limits = s.limits :=
  rfl

theorem limits_innermost {r : Reader} {limit : Nat} {limits : List Nat}
    (h : r.limits = limit :: limits) : (innermost r).limits = limits := by
  cases r with
  | window inner other cursor => exact (List.cons.inj h).2
  | source | detached => cases h

/-- What is loaded through one more window ends inside it as well. -/
theorem limits_inWindow {m : LoadM κ α} {Q : α → (Nat → Nat → Prop) → Prop} (limit : Nat)
    (h : ∀ u : LoadState κ, u.limits = limit :: s.limits →
      Ends m u fun a t => t.limits = u.limits ∧ Q a u.Inside) :
    Ends (inWindow limit m) s fun a t => t.limits = s.limits
      ∧ Q a fun start stop => s.Inside start stop ∧ stop ≤ max start limit := by
  have hinside : LoadState.Inside { s with reader := .window s.reader limit 0 }
      = fun start stop => s.Inside start stop ∧ stop ≤ max start limit := by
    funext start stop
    exact propext (List.forall_mem_cons.trans and_comm)
  obtain ⟨hlimits, hpost⟩ := h { s with reader := .window s.reader limit 0 } rfl
  rw [hinside] at hpost
  exact ⟨limits_innermost hlimits, hpost⟩

end LoadM

/-- A part that is loaded through one more window. -/
theorem HonoursBytes.inWindow {part : LoadPart (LoadM κ) κ} (hpart : HonoursBytes part)
    (frames : List (Frame κ)) {a : Atom κ} (hblank : a.IsBlank) (hbits : a.isBits = false) (limit : Nat)
    (s : LoadState κ) :
    Ends (LoadM.inWindow limit (part frames a)) s fun out t => t.limits = s.limits
      ∧ (out.error? = none → out.atom.Made a.info
        ∧ s.Inside a.info.offset (a.info.offset + out.atom.size)
        ∧ a.info.offset + out.atom.size ≤ max a.info.offset limit) :=
  LoadM.limits_inWindow (Q := fun out inside => out.error? = none → out.atom.Made a.info
    ∧ inside a.info.offset (a.info.offset + out.atom.size)) limit fun u _ =>
      (hpart frames a u hblank hbits).mono fun _ _ hout =>
        ⟨hout.limits, fun herror => ⟨hout.made herror, hout.inside herror⟩⟩

/-! ## Parts one after another -/

/-- Parts were loaded up to `cursor` since `origin`. -/
structure Frame.LoadedTo (f : Frame κ) (cursor : Nat) (origin s : LoadState κ) : Prop where
  filling : f.Filling cursor
  limits : s.limits = origin.limits
  inside : origin.Inside f.info.offset cursor

namespace Frame.LoadedTo

variable {f : Frame κ} {cursor next : Nat} {origin s t : LoadState κ}

/-- Something else was done. -/
theorem later (h : f.LoadedTo cursor origin s) (hst : t.limits = s.limits) :
    f.LoadedTo cursor origin t :=
  ⟨h.filling, hst.trans h.limits, h.inside⟩

/-- One more part. -/
theorem push (h : f.LoadedTo cursor origin s) {a : Atom κ} (ha : Everywhere Atom.Honours a)
    (hruled : a.info.extent? ≠ none → f.info.layout.Forces f.left.length)
    (hinside : s.Inside cursor (cursor + a.size)) : (f.push a).LoadedTo (cursor + a.size) origin s :=
  ⟨h.filling.push ha hruled, h.limits, h.inside.trans (hinside.of_limits h.limits)⟩

/-- One more part, on which no extent is forced. -/
theorem pushed (h : f.LoadedTo cursor origin s) {info : Info κ} {out : Outcome κ}
    (hout : out.Honours info s t) (herror : out.error? = none) (hoffset : info.offset = cursor)
    (hextent : info.extent? = none) (hspan : spanEnd cursor out.atom.size = .ok next) :
    (f.push out.atom).LoadedTo next origin t := by
  subst hoffset
  rw [(spanEnd_eq hspan).1]
  refine (h.later hout.limits).push ((hout.made herror).honours hextent) (fun hforced => ?_) ?_
  · exact absurd ((hout.made herror).extent.trans hextent) hforced
  · exact (hout.inside herror).of_limits hout.limits.symm

/-- An atom that got all its parts. -/
theorem honours (h : f.LoadedTo cursor origin s) (hblock : ∀ extent,
    IsBlockArray extent f.info.layout → f.info.offset + extent = cursor) :
    Outcome.Honours f.info origin ⟨f.close.ready, none⟩ s := by
  have hsize := h.filling.spanning.size
  refine .done h.limits (h.filling.made fun extent hlayout _ => hblock extent hlayout).ready ?_
  rw [size_ready, hsize]
  exact h.inside

end Frame.LoadedTo

section Load

variable {env : Env κ}

/-! ## Atoms without parts -/

theorem honours_loadLeaf {layout : Layout κ} (frames : List (Frame κ)) {a : Atom κ}
    (hbits : a.isBits = false) (htail : a.info.tail = [])
    (hblock : ∀ extent, ¬ IsBlockArray extent a.info.layout) (s : LoadState κ) :
    Ends (loadLeaf env layout frames a) s (Outcome.Honours a.info s) := by
  rw [loadLeaf]
  refine (LoadM.confined_readLeaf env.config frames layout a.info.offset s).bind fun result t ht => ?_
  split
  · exact Ends.pure (.failed ht.1 _ _)
  · rename_i raw
    have hdone (u : LoadState κ) (hu : u.limits = s.limits) : Outcome.Honours a.info s ⟨((a.mapInfo
        fun info => { info with undecodable := layout.isUndecodable raw }).withBytes layout raw).ready,
        none⟩ u := by
      refine .done hu (Made.of_nil ?_ ?_ (fun extent h => absurd h (hblock extent)) ?_).ready ?_
      · rw [withBytes_eq, info_fill, info_mapInfo]
      · rw [withBytes_eq, info_fill, info_mapInfo]
      · rw [withBytes_eq, parts_fill]
      · rw [size_withBytes hbits htail]
        exact ht.2 raw rfl
    dsimp only
    split
    · exact (LoadM.limits_ofLedger _ t).bind fun _ u hu => Ends.pure (hdone u (hu.trans ht.1))
    · exact Ends.pure (hdone t ht.1)

/-! ## Arrays -/

variable {part : LoadPart (LoadM κ) κ} {origin s : LoadState κ}

theorem honours_loadCounted (hpart : HonoursBytes part) (element : Layout κ)
    (frames : List (Frame κ)) (count : Nat) {f : Frame κ} {cursor : Nat}
    (hblock : ∀ extent, ¬ IsBlockArray extent f.info.layout) (index : Nat)
    (hf : f.LoadedTo cursor origin s) :
    Ends (loadCounted part element frames count f index cursor) s
      (Outcome.Honours f.info origin) := by
  induction count generalizing f index cursor s with
  | zero => exact Ends.pure (hf.honours fun extent h => absurd h (hblock extent))
  | succ count ih =>
    rw [loadCounted]
    refine (LoadM.limits_spawn (toString index) element cursor s).bind fun blank t ht => ?_
    obtain ⟨⟨hempty, hbits⟩, hoffset, hextent, ht⟩ := ht
    refine (hpart _ _ _ hempty hbits).bind fun out u hu => ?_
    have hback := (hu.limits.trans ht).trans hf.limits
    dsimp only
    split
    · exact Ends.pure (.failed hback _ _)
    · rename_i herror
      split
      · exact Ends.pure (.failed hback _ _)
      · rename_i hspan
        exact ih (f := f.push out.atom) hblock _ ((hf.later ht).pushed hu herror hoffset hextent hspan)

/-- What the elements of a block array were made into. -/
structure BlockOutcome.Honours (info : Info κ) (limit : Nat) (origin : LoadState κ)
    (out : BlockOutcome κ) (t : LoadState κ) : Prop where
  limits : t.limits = origin.limits
  same : out.atom.info = info
  loaded : out.error? = none → ∃ g : Frame κ, out.atom = g.close ∧ g.info = info
    ∧ g.LoadedTo out.cursor origin t
  fits : out.error? = none → out.cursor ≤ limit

theorem BlockOutcome.Honours.failed {info : Info κ} {limit cursor : Nat} {t : LoadState κ}
    (h : t.limits = origin.limits) (a : Atom κ) (e : Error) (ha : a.info = info := by rfl) :
    BlockOutcome.Honours info limit origin ⟨a, cursor, some e⟩ t := by
  refine ⟨h, ha, fun hnone => ?_, fun hnone => ?_⟩ <;> cases hnone

theorem Frame.LoadedTo.block {f : Frame κ} {cursor limit : Nat} (h : f.LoadedTo cursor origin s)
    (hlimit : cursor ≤ limit) : BlockOutcome.Honours f.info limit origin ⟨f.close, cursor, none⟩ s :=
  ⟨h.limits, rfl, fun _ => ⟨f, rfl, rfl, h⟩, fun _ => hlimit⟩

/-- Elements end where their window does, at the latest. -/
theorem honours_loadBlockElements (hpart : HonoursBytes part) (element : Layout κ) (limit : Nat)
    (frames : List (Frame κ)) (fuel : Nat) {f : Frame κ} {cursor : Nat} (hlimit : cursor ≤ limit)
    (index : Nat) (hf : f.LoadedTo cursor origin s) :
    Ends (loadBlockElements part element limit frames fuel f index cursor) s
      (BlockOutcome.Honours f.info limit origin) := by
  induction fuel generalizing f index cursor s with
  | zero => exact Ends.pure (hf.block hlimit)
  | succ fuel ih =>
    rw [loadBlockElements]
    split
    · exact Ends.pure (hf.block hlimit)
    · split
      · exact Ends.pure (hf.block hlimit)
      · rename_i layout _
        refine (LoadM.limits_spawn (toString index) layout cursor s).bind fun blank t ht => ?_
        obtain ⟨⟨hempty, hbits⟩, hoffset, hextent, ht⟩ := ht
        refine (hpart.inWindow _ hempty hbits limit t).bind fun out u hu => ?_
        obtain ⟨hlimits, hout⟩ := hu
        have hlater := (hf.later ht).later hlimits
        split
        · split
          · exact (LoadM.limits_ofLedger _ u).bind fun _ v hv =>
              Ends.pure ((hlater.later hv).block hlimit)
          · exact Ends.pure (.failed hlater.limits _ _)
        · rename_i herror
          obtain ⟨hmade, hinside, hroom⟩ := hout herror
          rw [hoffset] at hinside hroom
          have hpush : (f.push out.atom).LoadedTo (cursor + out.atom.size) origin u := by
            refine hlater.push (hmade.honours hextent) (fun h => ?_) (hinside.of_limits hlimits.symm)
            exact absurd (hmade.extent.trans hextent) h
          dsimp only
          split
          · rename_i hzero
            rw [hzero, Nat.add_zero] at hpush
            exact Ends.pure (hpush.block hlimit)
          · split
            · exact Ends.pure (.failed hlater.limits _ _)
            · rename_i next hspan
              obtain ⟨rfl, -⟩ := spanEnd_eq hspan
              exact ih (by omega) _ hpush

/-- A block array has the bytes of its layout. -/
theorem honours_loadBlock (hpart : HonoursBytes part) (element : Layout κ) (extent : Nat)
    (frames : List (Frame κ)) {a : Atom κ} (hlayout : a.info.layout = .bytes (.array element (.block extent)))
    (ha : a.frame.LoadedTo a.info.offset s s) :
    Ends (loadBlock part element extent frames a) s (Outcome.Honours a.info s) := by
  have hextent (other : Nat) (h : IsBlockArray other a.info.layout) : other = extent := by
    obtain ⟨inner, hother⟩ := h
    rw [hlayout] at hother
    cases hother
    rfl
  rw [loadBlock]
  split
  · exact Ends.pure (.failed rfl _ _)
  · rename_i limit hspan
    obtain ⟨rfl, -⟩ := spanEnd_eq hspan
    refine (honours_loadBlockElements hpart element _ frames extent (Nat.le_add_right _ _) 0 ha).bind
      fun out t ht => ?_
    split
    · exact Ends.pure (.failed ht.limits _ _ (congrArg Info.extent? ht.same))
    · rename_i herror
      obtain ⟨g, hatom, hinfo, hg⟩ := ht.loaded herror
      have hfits := ht.fits herror
      have hinfo : g.info = a.info := hinfo
      rw [hatom]
      split
      · rename_i hfull
        rw [← hinfo]
        refine Ends.pure (hg.honours fun other hother => ?_)
        rw [hinfo] at hother ⊢
        rw [hextent other hother]
        omega
      · rename_i hleft
        refine ((LoadM.confined_readAt _ _ t).and (LoadM.length_readAt _ _ t)).bind fun result u hu => ?_
        obtain ⟨⟨hlimits, hread⟩, hlength⟩ := hu
        split
        · exact Ends.pure (.failed (hlimits.trans hg.limits) _ _ (congrArg Info.extent? hinfo))
        · rename_i tail
          have htail := hlength tail rfl
          have hinside := hg.inside.trans ((hread tail rfl).of_limits hg.limits)
          refine (LoadM.limits_ofLedger _ u).bind fun _ v hv => ?_
          have hstart : g.info.offset = a.info.offset := congrArg Info.offset hinfo
          have hmade : (g.close.withTail tail).Made a.info := by
            rw [← hinfo]
            refine hg.filling.made_withTail extent (fun other hother => ?_) (by omega)
            rw [hinfo] at hother
            exact hextent other hother
          refine Ends.pure (.done ((hv.trans hlimits).trans hg.limits) hmade.ready ?_)
          have hcontent := hg.filling.spanning.contentSize
          rw [size_ready, size_withTail, ← hstart, ← Nat.add_assoc, hcontent]
          exact hinside

theorem honours_loadOpen (hpart : HonoursBytes part) (element : Layout κ) (rule? : Option κ)
    (frames : List (Frame κ)) (budget : Nat) {f : Frame κ} {cursor : Nat}
    (hblock : ∀ extent, ¬ IsBlockArray extent f.info.layout) (index : Nat)
    (hf : f.LoadedTo cursor origin s) :
    Ends (loadOpen env part element rule? frames budget f index cursor) s
      (Outcome.Honours f.info origin) := by
  have hdone {f : Frame κ} {cursor : Nat} (hblock : ∀ extent, ¬ IsBlockArray extent f.info.layout)
      {t : LoadState κ} (ht : f.LoadedTo cursor origin t) :
      Outcome.Honours f.info origin ⟨f.close.ready, none⟩ t :=
    ht.honours fun extent h => absurd h (hblock extent)
  induction budget generalizing f index cursor s with
  | zero => exact Ends.pure (.failed hf.limits _ _)
  | succ budget ih =>
    rw [loadOpen]
    refine LoadM.goes_viewEnd.bind fun viewEnd? s' hs' => ?_
    subst hs'
    split
    · exact Ends.pure (hdone hblock hf)
    · refine (LoadM.limits_spawn (toString index) element cursor s').bind fun blank t ht => ?_
      obtain ⟨⟨hempty, hbits⟩, hoffset, hextent, ht⟩ := ht
      refine (hpart _ _ _ hempty hbits).bind fun out u hu => ?_
      have hlater := (hf.later ht).later hu.limits
      split
      · split
        · exact Ends.pure (.failed hlater.limits _ _)
        · refine (LoadM.limits_ofLedger _ u).bind fun _ v hv => ?_
          split
          · exact Ends.pure (hdone hblock (hlater.later hv))
          · refine LoadM.goes_viewEnd.bind fun viewEnd? w hw => ?_
            subst hw
            split
            · exact (LoadM.limits_ofLedger _ w).bind fun _ x hx =>
                Ends.pure (hdone hblock ((hlater.later hv).later hx))
            · exact Ends.pure (.failed (hlater.later hv).limits _ _)
      · rename_i herror
        split
        · exact Ends.pure (.failed hlater.limits _ _)
        · rename_i hspan
          have hnew := (hf.later ht).pushed hu herror hoffset hextent hspan
          split
          · exact Ends.pure (hdone (f := f.push out.atom) hblock hnew)
          · exact ih (f := f.push out.atom) hblock _ hnew

/-! ## Records and unions -/

/-- What a field was made into: it keeps to its extents, and one is forced on it only by a rule. -/
structure Outcome.HonoursField (offset : Nat) (forces : Prop) (s : LoadState κ) (out : Outcome κ)
    (t : LoadState κ) : Prop where
  limits : t.limits = s.limits
  honours : out.error? = none → Everywhere Atom.Honours out.atom
  ruled : out.error? = none → out.atom.info.extent? ≠ none → forces
  inside : out.error? = none → s.Inside offset (offset + out.atom.size)

theorem Outcome.HonoursField.failed {offset : Nat} {forces : Prop} {t : LoadState κ}
    (h : t.limits = s.limits) (a : Atom κ) (e : Error) :
    Outcome.HonoursField offset forces s ⟨a, some e⟩ t := by
  refine ⟨h, fun hnone => ?_, fun hnone => ?_, fun hnone => ?_⟩ <;> cases hnone

/-- A field of a forced extent has exactly its bytes. -/
theorem honours_loadSized (hpart : HonoursBytes part) (frames : List (Frame κ)) {a : Atom κ}
    (ha : a.IsBlank) (hbits : a.isBits = false) (extent : Nat) {forces : Prop} (hforces : forces)
    (s : LoadState κ) :
    Ends (loadSized part frames a extent) s (Outcome.HonoursField a.info.offset forces s) := by
  let sized := a.mapInfo fun info => { info with extent? := some extent }
  have hsite : sized.info.site = a.info.site := by
    cases a
    rfl
  have hsized : sized.IsBlank := by
    rw [isBlank_iff] at ha ⊢
    simpa [sized] using ha
  have hoffset : sized.info.offset = a.info.offset := Info.offset_of_site hsite
  have hextent : sized.info.extent? = some extent := by
    cases a
    rfl
  rw [loadSized]
  dsimp only
  split
  · exact Ends.pure (.failed rfl _ _)
  · rename_i limit hspan
    have hlimit : limit = a.info.offset + extent := hoffset ▸ (spanEnd_eq hspan).1
    refine (hpart.inWindow frames hsized ((isBits_of_site hsite).trans hbits) limit s).bind
      fun out t ht => ?_
    obtain ⟨hlimits, hout⟩ := ht
    split
    · rename_i hdone
      refine Ends.pure ⟨hlimits, fun herror => ?_, fun _ _ => hforces, fun herror => ?_⟩
      · obtain ⟨hmade, -, hroom⟩ := hout herror
        have hused : extent ≤ out.atom.contentSize := by simpa [herror] using hdone
        have htotal : out.atom.size = out.atom.contentSize + out.atom.info.tail.length := rfl
        refine hmade.honours_of_size hextent fun _ => ?_
        omega
      · rw [← hoffset]
        exact (hout herror).2.1
    · rename_i hshort
      rw [not_or, Nat.not_le] at hshort
      have herror : out.error? = none := by simpa using hshort.1
      obtain ⟨hmade, hinside, -⟩ := hout herror
      refine ((LoadM.confined_readAt _ _ t).and (LoadM.length_readAt _ _ t)).bind fun result u hu => ?_
      obtain ⟨⟨hread, hconfined⟩, hlength⟩ := hu
      split
      · exact Ends.pure (.failed (hread.trans hlimits) _ _)
      · rename_i tail
        have htail := hlength tail rfl
        have hsize : (out.atom.withTail tail).size = extent := by
          rw [size_withTail]
          omega
        refine Ends.pure ⟨hread.trans hlimits, fun _ => ?_, fun _ _ => hforces, fun _ => ?_⟩
        · exact (hmade.withTail hextent tail).honours_of_size hextent fun _ => hsize
        · have hrest : s.Inside (sized.info.offset + out.atom.contentSize)
              (sized.info.offset + out.atom.contentSize + tail.length) :=
            (hconfined tail rfl).of_limits hlimits
          rw [hoffset] at hinside hrest
          intro bound hbound
          have hfirst := hinside bound hbound
          have hlast := hrest bound hbound
          have htotal : out.atom.size = out.atom.contentSize + out.atom.info.tail.length := rfl
          rw [hsize]
          omega

theorem honours_loadField (hpart : HonoursBytes part) (frames : List (Frame κ)) (f : Frame κ)
    (index : Nat) (extent? : Option κ) {blank : Atom κ} (hblank : blank.IsBlank)
    (hbits : blank.isBits = false) (hnone : blank.info.extent? = none) (s : LoadState κ) :
    Ends (loadField env part frames f index extent? blank) s
      (Outcome.HonoursField blank.info.offset (extent? ≠ none) s) := by
  cases extent? with
  | none =>
    refine (hpart _ _ s hblank hbits).mono fun out t ht => ?_
    refine ⟨ht.limits, fun herror => (ht.made herror).honours hnone, fun herror hextent => ?_, ht.inside⟩
    exact absurd ((ht.made herror).extent.trans hnone) hextent
  | some rule =>
    rw [loadField]
    split
    · exact Ends.pure (.failed rfl _ _)
    · refine honours_loadSized hpart _ hblank hbits _ (fun h => ?_) s
      cases h

theorem honours_loadFields (hpart : HonoursBytes part) (frames : List (Frame κ)) {f : Frame κ}
    {cursor : Nat} {name : String} {all : List (Field κ (Layout κ))}
    (hlayout : f.info.layout = .bytes (.record name all)) (index : Nat)
    (fields : List (Field κ (Layout κ))) (hfields : fields = all.drop f.left.length)
    (hf : f.LoadedTo cursor origin s) :
    Ends (loadFields env part frames f index cursor fields) s (Outcome.Honours f.info origin) := by
  induction fields generalizing f index cursor s with
  | nil =>
    refine Ends.pure (hf.honours fun extent h => ?_)
    obtain ⟨element, harray⟩ := h
    rw [hlayout] at harray
    cases harray
  | cons field fields ih =>
    rw [loadFields]
    split
    · exact Ends.pure (.failed hf.limits _ _)
    · rename_i layout _
      refine (LoadM.limits_spawn field.name layout cursor s).bind fun blank t ht => ?_
      obtain ⟨⟨hempty, hbits⟩, hoffset, hextent, ht⟩ := ht
      refine (honours_loadField hpart frames f index field.extent? hempty hbits hextent t).bind
        fun out u hu => ?_
      have hlater := (hf.later ht).later hu.limits
      dsimp only
      split
      · exact Ends.pure (.failed hlater.limits _ _)
      · rename_i herror
        split
        · exact Ends.pure (.failed hlater.limits _ _)
        · rename_i next hspan
          have hhere : all[f.left.length]? = some field := by
            rw [← List.head?_drop, ← hfields]
            rfl
          have hinside := (hu.inside herror).of_limits hu.limits.symm
          rw [hoffset] at hinside
          have hpush := hlater.push (hu.honours herror)
            (fun hforced => ⟨name, all, field, hlayout, hhere, hu.ruled herror hforced⟩) hinside
          rw [← (spanEnd_eq hspan).1] at hpush
          refine ih (f := f.push out.atom) hlayout _ ?_ hpush
          show fields = all.drop (f.left.length + 1)
          rw [← List.tail_drop, ← hfields]
          rfl

/-- Members keep to their extents, and they take no bytes besides those of their union. -/
theorem honours_loadMembers (hpart : HonoursBytes part) {backing : Bytes} (frames : List (Frame κ))
    {f : Frame κ} (hcontent : f.content = .overlay backing) (hbits : f.info.layout.isBits = false)
    (htail : f.info.tail = []) (hright : f.right = [])
    (hblock : ∀ extent, ¬ IsBlockArray extent f.info.layout)
    (hparts : ∀ part ∈ f.left, Everywhere Atom.Honours part ∧ part.info.extent? = none)
    (members : List (String × Layout κ)) (s : LoadState κ) :
    Ends (loadMembers part backing frames f members) s fun out t =>
      (t.limits = s.limits ∧ out.atom.info.extent? = f.info.extent?)
        ∧ (out.error? = none → out.atom.Made f.info ∧ out.atom.size = backing.length) := by
  induction members generalizing f s with
  | nil =>
    have hleft {part : Atom κ} (h : part ∈ f.close.parts) : part ∈ f.left := by
      rw [Frame.parts_close, hright, List.append_nil] at h
      exact List.mem_reverse.1 h
    have hmade : f.close.Made f.info := by
      refine ⟨rfl, rfl, fun extent h => absurd h (hblock extent), fun i part hpart _ hextent => ?_,
        fun part hpart => (hparts part (hleft hpart)).1⟩
      exact absurd (hparts part (hleft (List.mem_of_getElem? hpart))).2 hextent
    refine Ends.pure ⟨⟨rfl, rfl⟩, fun _ => ⟨hmade.ready, ?_⟩⟩
    rw [size_ready, size, contentSize_of_bytes (a := f.close) hbits, Frame.content_close, hcontent,
      Frame.info_close, htail]
    rfl
  | cons member members ih =>
    obtain ⟨name, layout⟩ := member
    rw [loadMembers]
    refine (LoadM.limits_spawn name layout f.info.offset s).bind fun blank t ht => ?_
    obtain ⟨⟨hempty, hmember⟩, -, hextent, ht⟩ := ht
    have hload : Ends (LoadM.fromBytes backing f.info.offset (part (f :: frames) blank)) t
        fun out u => u.limits = t.limits ∧ (out.error? = none → out.atom.Made blank.info) :=
      ⟨rfl, (hpart _ _ ⟨t.ledger, [], .ofBytes backing f.info.offset⟩ hempty hmember).made⟩
    refine hload.bind fun out u hu => ?_
    have hback := hu.1.trans ht
    dsimp only
    split
    · refine Ends.pure ⟨⟨hback, rfl⟩, fun h => ?_⟩
      cases h
    · rename_i herror
      have hmade := hu.2 herror
      refine (ih (f := f.push out.atom) hcontent hbits htail hright hblock
        (List.forall_mem_cons.2 ⟨⟨hmade.honours hextent, hmade.extent.trans hextent⟩, hparts⟩) u).mono
        fun _ _ h => ⟨⟨h.1.1.trans hback, h.1.2⟩, h.2⟩

theorem honours_loadUnion (hpart : HonoursBytes part) (members : List (String × Layout κ))
    (size : Nat) (frames : List (Frame κ)) {a : Atom κ} (hbits : a.isBits = false)
    (htail : a.info.tail = []) (hblock : ∀ extent, ¬ IsBlockArray extent a.info.layout)
    (s : LoadState κ) :
    Ends (loadUnion part members size frames a) s (Outcome.Honours a.info s) := by
  rw [loadUnion]
  refine ((LoadM.confined_readAt _ _ s).and (LoadM.length_readAt _ _ s)).bind fun result t ht => ?_
  obtain ⟨⟨hlimits, hread⟩, -⟩ := ht
  split
  · exact Ends.pure (.failed hlimits _ _)
  · rename_i backing
    refine (honours_loadMembers hpart (f := (a.fill (.overlay backing) []).frame) frames rfl hbits htail
      rfl hblock (fun part h => ?_) members t).mono fun out u hu => ?_
    · cases h
    · refine ⟨hu.1.1.trans hlimits, hu.1.2, fun herror => (hu.2 herror).1, fun herror => ?_⟩
      rw [(hu.2 herror).2]
      exact hread backing rfl

/-! ## Hosts of bits -/

/-- A host around the root of its bits. -/
theorem made_hostedBits {a root : Atom κ} (hblock : ∀ extent, ¬ IsBlockArray extent a.info.layout)
    (hroot : Everywhere Shaped root) (hbits : root.isBits = true) (pad : Bitmap) :
    (hostedBits a root pad).Made a.info := by
  refine ⟨rfl, rfl, fun extent h => absurd h (hblock extent), fun i part hpart h => ?_, fun part hpart => ?_⟩
  · have hmem : part ∈ [root] := List.mem_of_getElem? hpart
    rw [List.mem_singleton.1 hmem, hbits] at h
    cases h
  · rw [List.mem_singleton.1 hpart]
    exact honours_of_bits root hroot hbits

theorem honours_loadRoot (depth : Nat) (order : ByteOrder) (frames : List (Frame κ)) {a root : Atom κ}
    (hblank : root.IsBlank) (hroot : root.isBits = true) (hbits : a.isBits = false)
    (htail : a.info.tail = []) (hblock : ∀ extent, ¬ IsBlockArray extent a.info.layout)
    (s : LoadState κ) :
    Ends (loadRoot env depth order frames a root) s (Outcome.Honours a.info s) := by
  rw [loadRoot]
  refine (LoadM.level_seekTo a.info.offset 1 s).bind fun result t ht => ?_
  split
  · exact Ends.pure (.failed ht.1 _ _)
  · have hread : Ends (BitLoadM.run order a.info.offset
        (loadBits env depth ((a.fill (.host .empty) []).frame :: frames) root)) t fun result u =>
          (u.limits = t.limits ∧ Everywhere Shaped result.1.atom ∧ result.1.atom.isBits = true)
            ∧ (result.1.error? = none → t.Inside a.info.offset
              (a.info.offset + bytesOfBits (result.1.atom.bitCount + result.2.width))) := by
      have hdraws := draws_loadBits env depth ((a.fill (.host .empty) []).frame :: frames) root
        ⟨t, .new order, a.info.offset⟩ (ht.2 rfl)
      have hshaped := accounted_loadBits env depth ((a.fill (.host .empty) []).frame :: frames) root
        ⟨t, .new order, a.info.offset⟩ hblank
      refine BitLoadM.ends_run ((hdraws.and hshaped).mono fun out u hu => ?_)
      obtain ⟨hdraws, haccounts⟩ := hu
      refine ⟨⟨hdraws.1.limits, haccounts.shaped, haccounts.isBits.trans hroot⟩,
        fun herror limit hlimit => ?_⟩
      obtain ⟨-, -, hinside, hcount⟩ := hdraws.2 herror
      have hstop := hinside limit hlimit
      have hlength := u.length_pending
      simp only [BitLoadState.pending_mk, BitReader.pending_new, List.length_nil] at hcount hstop
      simp only [BitReader.width_pad, bytesOfBits]
      omega
    refine hread.bind fun result u hu => ?_
    obtain ⟨out, pad⟩ := result
    obtain ⟨⟨hlimits, hshaped, hout⟩, hinside⟩ := hu
    dsimp only
    split
    · exact Ends.pure (.failed (hlimits.trans ht.1) _ _)
    · rename_i herror
      refine Ends.pure (.done (hlimits.trans ht.1) (made_hostedBits hblock hshaped hout pad).ready ?_)
      rw [size_hostedBits hbits htail]
      exact (hinside herror).of_limits ht.1

theorem honours_loadHost (depth : Nat) {layout : BitLayout κ} {order : ByteOrder}
    (frames : List (Frame κ)) {a : Atom κ} (hbits : a.isBits = false) (htail : a.info.tail = [])
    (hblock : ∀ extent, ¬ IsBlockArray extent a.info.layout) (s : LoadState κ) :
    Ends (loadHost env depth layout order frames a) s (Outcome.Honours a.info s) := by
  rw [loadHost]
  split
  · exact Ends.pure (.failed rfl _ _)
  · rename_i position _
    have hspawn : Ends (LoadM.ofLedger (LedgerM.spawn "" (.bits layout) position)) s fun root t =>
        root.IsBlank ∧ root.info.layout = .bits layout ∧ t.limits = s.limits :=
      ⟨isBlank_blank _ _ _ _, rfl, rfl⟩
    refine hspawn.bind fun root t ht => ?_
    obtain ⟨hblank, hlayout, hlimits⟩ := ht
    have hroot : root.isBits = true := by rw [isBits, hlayout]; rfl
    split
    · rename_i hzero
      have hmade : Ends (LoadM.ofLedger (allocateBits env depth
          ((a.fill (.host .empty) []).frame :: frames) root)) t fun out u => u.limits = t.limits
            ∧ Everywhere Shaped out.atom ∧ out.atom.isBits = true
            ∧ (out.error? = none → out.atom.bitCount = 0) := by
        have haccounts := accounts_allocateBits env depth ((a.fill (.host .empty) []).frame :: frames)
          (a := root) (.inl hblank.shaped) t.ledger
        exact ⟨rfl, haccounts.1.shaped, haccounts.1.isBits.trans hroot,
          keepsWidth_allocateBits env depth _ root layout 0 t.ledger hlayout hzero⟩
      refine hmade.bind fun out u hu => ?_
      obtain ⟨hback, hshaped, hout, hwidth⟩ := hu
      split
      · exact Ends.pure (.failed (hback.trans hlimits) _ _)
      · rename_i herror
        refine Ends.pure (.done (hback.trans hlimits)
          (made_hostedBits hblock hshaped hout .empty).ready ?_)
        rw [size_hostedBits hbits htail, hwidth herror]
        exact .refl s _
    · exact (honours_loadRoot depth order frames hblank hroot hbits htail hblock t).mono fun _ _ h =>
        h.after hlimits

/-! ## Loading -/

/-- An atom of bytes that was loaded keeps to its extents. -/
theorem honours_load (env : Env κ) (depth : Nat) (frames : List (Frame κ)) (a : Atom κ)
    (s : LoadState κ) : Ends (load env depth frames a) s (Outcome.Honours a.info s) := by
  induction depth generalizing frames a s with
  | zero => exact Ends.pure (.failed rfl _ _)
  | succ depth ih =>
    have hpart : HonoursBytes (load env depth) := fun frames a s _ _ => ih frames a s
    rw [load]
    split
    · exact Ends.pure (.failed rfl _ _)
    · rename_i layout hlayout
      have hclear : Ends (LoadM.ofLedger (LedgerM.clear a)) s fun b t => b = a.cleared
          ∧ t.limits = s.limits := ⟨rfl, rfl⟩
      refine hclear.bind fun b t hb => ?_
      obtain ⟨rfl, ht⟩ := hb
      have hblank := isBlank_cleared a
      have hsite := site_cleared a
      have hsame : a.cleared.info.layout = .bytes layout := (Info.layout_of_site hsite).trans hlayout
      have hbits : a.cleared.isBits = false := by rw [isBits, hsame]; rfl
      have hback (out : Outcome κ) (u : LoadState κ) (h : out.Honours a.cleared.info t u) :
          out.Honours a.info s u := by
        obtain ⟨info, content, parts⟩ := a
        obtain ⟨hlimits, hextent, hmade, hinside⟩ := h.after ht
        refine ⟨hlimits, hextent, fun herror => ?_, hinside⟩
        obtain ⟨h1, h2, h3, h4, h5⟩ := hmade herror
        exact ⟨h1, h2, h3, h4, h5⟩
      have hstart : (a.cleared.fill .group []).frame.LoadedTo a.cleared.info.offset t t :=
        ⟨.start hbits hblank.tail, rfl, .refl t _⟩
      have hplain (h : ∀ element extent, layout ≠ .array element (.block extent)) (extent : Nat) :
          ¬ IsBlockArray extent a.cleared.info.layout := by
        rintro ⟨element, harray⟩
        rw [hsame, AtomLayout.bytes.injEq] at harray
        exact h element extent harray
      cases layout
      case record name fields =>
        exact (honours_loadFields hpart frames (f := (a.cleared.fill .group []).frame) hsame 0 fields rfl
          hstart).mono hback
      case array element shape =>
        cases shape with
        | counted count =>
          exact (honours_loadCounted hpart element frames count (hplain fun _ _ h => by cases h) 0
            hstart).mono hback
        | block extent =>
          exact (honours_loadBlock hpart element extent frames (a := a.cleared.fill .group []) hsame
            hstart).mono hback
        | terminated rule =>
          exact (honours_loadOpen hpart element _ frames _ (hplain fun _ _ h => by cases h) 0
            hstart).mono hback
        | unending =>
          exact (honours_loadOpen hpart element _ frames _ (hplain fun _ _ h => by cases h) 0
            hstart).mono hback
      case union name members size =>
        exact (honours_loadUnion hpart members size frames hbits hblank.tail
          (hplain fun _ _ h => by cases h) t).mono hback
      case bits root order =>
        exact (honours_loadHost depth frames hbits hblank.tail (hplain fun _ _ h => by cases h) t).mono
          hback
      all_goals
        exact (honours_loadLeaf frames hbits hblank.tail (hplain fun _ _ h => by cases h) t).mono hback

end Load

end BinaryLayout
