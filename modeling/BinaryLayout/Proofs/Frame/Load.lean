import BinaryLayout.Load.Layout
import BinaryLayout.Proofs.Source.Content
import BinaryLayout.Proofs.Span.Bits

/-!
# Loading only reads

Whatever is loaded or allocated, and however that ends, the sources hold what they held before and
the warnings so far stay: new ones come after them.

## Main definitions

* `Aftermath`: the sources and the warnings after something was done.
* `Harmless`: a computation that only reads and warns.

## Main statements

* `harmless_load`, `harmless_allocate`: loading and allocating atoms.
-/

namespace BinaryLayout

variable {κ σ α β : Type}

/-! ## Computations that only read and warn -/

/-- A view of the open sources and the warnings so far, the newest first. -/
abbrev Record := View × List Warning

/-- The view shows what it showed, and warnings were only added. -/
structure Aftermath (before after : Record) : Prop where
  contents : after.1.rewound = before.1.rewound
  warnings : before.2 <:+ after.2

namespace Aftermath

variable {r s t : Record}

theorem refl (r : Record) : Aftermath r r := ⟨rfl, List.suffix_rfl⟩

theorem trans (hrs : Aftermath r s) (hst : Aftermath s t) : Aftermath r t :=
  ⟨hst.contents.trans hrs.contents, hrs.warnings.trans hst.warnings⟩

/-- What holds of the sources does not depend on the view of them. -/
theorem through {reader reader' : Reader} {sources sources' : Sources} {w w' : List Warning}
    (h : Aftermath ((reader, sources), w) ((reader', sources'), w')) (q : Reader) :
    Aftermath ((q, sources), w) ((q, sources'), w') :=
  ⟨Prod.ext rfl (congrArg Prod.snd h.contents :), h.warnings⟩

end Aftermath

/-- What a computation of handles leaves for others to see. -/
def Ledger.record (l : Ledger κ) : Record := ((.source 0, []), l.warnings)

/-- What a computation that loads leaves for others to see. -/
def LoadState.record (s : LoadState κ) : Record := ((s.reader, s.sources), s.ledger.warnings)

def Harmless (record : σ → Record) (m : StateM σ α) : Prop :=
  ∀ s, Ends m s fun _ t => Aftermath (record s) (record t)

namespace Harmless

variable {record : σ → Record}

theorem pure (a : α) : Harmless record (Pure.pure a : StateM σ α) := fun _ => .refl _

theorem bind {m : StateM σ α} {f : α → StateM σ β} (hm : Harmless record m)
    (hf : ∀ a, Harmless record (f a)) : Harmless record (m >>= f) :=
  fun s => (hm s).bind fun a t ht => (hf a t).mono fun _ _ hu => ht.trans hu

end Harmless

namespace LedgerM

variable {m : LedgerM κ α}

theorem harmless_spawn (name : String) (layout : AtomLayout κ) (offset : Nat) :
    Harmless Ledger.record (spawn name layout offset) := by
  intro l
  refine ⟨rfl, ?_⟩
  show l.warnings <:+ l.take.2.warnings
  rw [Ledger.take]
  split <;> exact List.suffix_rfl

theorem harmless_release (a : Atom κ) : Harmless Ledger.record (release a) := by
  intro l
  refine ⟨rfl, ?_⟩
  show l.warnings <:+ (l.release a).warnings
  simp only [Ledger.warnings_release, List.suffix_rfl]

theorem harmless_clear (a : Atom κ) : Harmless Ledger.record (clear a) := by
  intro l
  refine ⟨rfl, ?_⟩
  show l.warnings <:+ (l.releaseAll a.parts).warnings
  simp only [Ledger.warnings_releaseAll, List.suffix_rfl]

theorem harmless_warn (w : Warning) : Harmless Ledger.record (warn w : LedgerM κ Unit) :=
  fun _ => ⟨rfl, List.suffix_cons _ _⟩

/-- Bytes that were taken out of a source are no source. -/
theorem harmless_fromBytes (data : Bytes) (origin : Nat) {m : LoadM κ α}
    (hm : Harmless LoadState.record m) : Harmless Ledger.record (fromBytes data origin m) :=
  fun l => ⟨rfl, (hm ⟨l, [], .ofBytes data origin⟩).warnings⟩

end LedgerM

namespace LoadM

theorem harmless_ofLedger {m : LedgerM κ α} (hm : Harmless Ledger.record m) :
    Harmless LoadState.record (ofLedger m) :=
  fun s => ⟨rfl, (hm s.ledger).warnings⟩

theorem harmless_seekTo (offset amount : Nat) :
    Harmless LoadState.record (seekTo offset amount : LoadM κ (Except Error Unit)) :=
  fun s => ⟨View.rewound_seek (s.reader, s.sources) offset, List.suffix_rfl⟩

theorem harmless_next (amount : Nat) :
    Harmless LoadState.record (next amount : LoadM κ (Except SourceError Bytes)) :=
  fun s => ⟨View.rewound_consume (s.reader, s.sources) amount, List.suffix_rfl⟩

theorem harmless_viewEnd : Harmless LoadState.record (viewEnd : LoadM κ (Option Nat)) :=
  fun _ => .refl _

theorem harmless_readAt (offset amount : Nat) :
    Harmless LoadState.record (readAt offset amount : LoadM κ (Except Error Bytes)) := by
  rw [readAt]
  split
  · exact .pure _
  · refine (harmless_seekTo offset amount).bind fun result => ?_
    split
    · exact .pure _
    · exact (harmless_next amount).bind fun _ => .pure _

/-- What is behind a window shows what it showed. -/
theorem harmless_inWindow (limit : Nat) {m : LoadM κ α} (hm : Harmless LoadState.record m) :
    Harmless LoadState.record (inWindow limit m) := by
  intro s
  obtain ⟨hcontents, hwarnings⟩ := hm { s with reader := .window s.reader limit 0 }
  refine ⟨?_, hwarnings⟩
  show View.rewound (innermost (m { s with reader := .window s.reader limit 0 }).2.reader, _) = _
  simp only [LoadState.record, View.rewound, Prod.mk.injEq] at hcontents
  obtain ⟨hreader, hsources⟩ := hcontents
  refine Prod.ext ?_ hsources
  generalize (m { s with reader := .window s.reader limit 0 }).2.reader = reader at hreader
  cases reader with
  | source id => cases hreader
  | detached data origin cursor => cases hreader
  | window inner limit' cursor => exact (Reader.window.inj hreader).1

theorem harmless_fromBytes (data : Bytes) (origin : Nat) {m : LoadM κ α}
    (hm : Harmless LoadState.record m) : Harmless LoadState.record (fromBytes data origin m) :=
  harmless_ofLedger (LedgerM.harmless_fromBytes data origin hm)

theorem harmless_readGroups (budget : Nat) (read : Bytes) :
    Harmless LoadState.record (readGroups budget read : LoadM κ (Except Error Bytes)) := by
  induction budget generalizing read with
  | zero => exact .pure _
  | succ budget ih =>
    rw [readGroups]
    refine (harmless_next 1).bind fun result => ?_
    split
    · exact .pure _
    · split
      · exact ih _
      · exact .pure _

theorem harmless_readUnits (unit limit budget : Nat) (read : Bytes) :
    Harmless LoadState.record (readUnits unit limit budget read : LoadM κ (Except Error Bytes)) := by
  induction budget generalizing read with
  | zero => exact .pure _
  | succ budget ih =>
    rw [readUnits]
    refine (harmless_next unit).bind fun result => ?_
    split
    · exact .pure _
    · dsimp only
      split
      · exact .pure _
      · exact ih _

theorem harmless_readText (format : TextFormat) (limit offset : Nat) :
    Harmless LoadState.record (readText format limit offset : LoadM κ (Except Error Bytes)) := by
  rw [readText]
  split
  · split
    · exact .pure _
    · exact harmless_readAt _ _
  · refine (harmless_seekTo _ _).bind fun result => ?_
    split
    · exact .pure _
    · exact harmless_readUnits _ _ _ _
  · refine (harmless_readAt _ _).bind fun result => ?_
    split
    · exact .pure _
    · dsimp only
      split
      · exact .pure _
      · split
        · exact .pure _
        · exact .pure _
        · exact (harmless_readAt _ _).bind fun _ => .pure _

theorem harmless_readLeaf (config : Config) (frames : List (Frame κ)) (layout : Layout κ)
    (offset : Nat) : Harmless LoadState.record (readLeaf config frames layout offset) := by
  rw [readLeaf.eq_def]
  split
  case h_4 =>
    refine (harmless_seekTo _ _).bind fun result => ?_
    split
    · exact .pure _
    · exact harmless_readGroups _ _
  case h_5 => exact harmless_readText _ _ _
  case h_11 => exact .pure _
  all_goals exact harmless_readAt _ _

end LoadM

/-! ## Bits -/

/-- What a computation that loads bits leaves for others to see. -/
def BitLoadState.record (s : BitLoadState κ) : Record := s.base.record

namespace BitLoadM

theorem harmless_ofLoad {m : LoadM κ α} (hm : Harmless LoadState.record m) :
    Harmless BitLoadState.record (ofLoad m) :=
  fun s => hm s.base

theorem harmless_ofLedger {m : LedgerM κ α} (hm : Harmless Ledger.record m) :
    Harmless BitLoadState.record (ofLedger m) :=
  harmless_ofLoad (LoadM.harmless_ofLedger hm)

theorem harmless_get : Harmless BitLoadState.record (get : BitLoadM κ (BitLoadState κ)) :=
  fun _ => .refl _

theorem harmless_fetch : Harmless BitLoadState.record (fetch : BitLoadM κ (Except Error Unit)) := by
  refine (harmless_ofLoad (LoadM.harmless_next 1)).bind fun result => ?_
  split
  · exact Harmless.bind (fun s => .refl _) fun _ => .pure _
  · exact harmless_get.bind fun _ => .pure _

theorem harmless_read (width : Nat) :
    Harmless BitLoadState.record (read width : BitLoadM κ (Except Error Bitmap)) :=
  fun s => kept_read (fun t => Aftermath s.record t.record)
    (fun t ht => (harmless_fetch t).mono fun _ _ hu => ht.trans hu) (fun _ _ ht => ht) width (.refl _)

theorem harmless_run (order : ByteOrder) (offset : Nat) {m : BitLoadM κ α}
    (hm : Harmless BitLoadState.record m) : Harmless LoadState.record (run order offset m) :=
  fun base => hm ⟨base, .new order, offset⟩

end BitLoadM

variable (env : Env κ)

/-- Whatever atoms the part is given, it only reads and warns. -/
def HarmlessPart (record : σ → Record) (part : LoadPart (StateM σ) κ) : Prop :=
  ∀ frames a, Harmless record (part frames a)

theorem harmless_allocateBitFields {part : LoadPart (LedgerM κ) κ}
    (hpart : HarmlessPart Ledger.record part) (frames : List (Frame κ)) (f : Frame κ)
    (index cursor : Nat) (fields : List (BitField κ (BitLayout κ))) :
    Harmless Ledger.record (allocateBitFields env part frames f index cursor fields) := by
  induction fields generalizing f index cursor with
  | nil => exact .pure _
  | cons field fields ih =>
    rw [allocateBitFields]
    split
    · exact .pure _
    · refine (LedgerM.harmless_spawn _ _ _).bind fun blank => (hpart _ _).bind fun out => ?_
      dsimp only
      split
      · exact .pure _
      · exact ih _ _ _

theorem harmless_allocateBitElements {part : LoadPart (LedgerM κ) κ}
    (hpart : HarmlessPart Ledger.record part) (element : BitLayout κ) (frames : List (Frame κ))
    (count : Nat) (f : Frame κ) (index cursor : Nat) :
    Harmless Ledger.record (allocateBitElements part element frames count f index cursor) := by
  induction count generalizing f index cursor with
  | zero => exact .pure _
  | succ count ih =>
    rw [allocateBitElements]
    refine (LedgerM.harmless_spawn _ _ _).bind fun blank => (hpart _ _).bind fun out => ?_
    dsimp only
    split
    · exact .pure _
    · exact ih _ _ _

theorem harmless_allocateBits (depth : Nat) : HarmlessPart Ledger.record (allocateBits env depth) := by
  induction depth with
  | zero => exact fun _ _ => .pure _
  | succ depth ih =>
    intro frames a
    rw [allocateBits]
    split
    · exact .pure _
    · refine (LedgerM.harmless_clear a).bind fun b => ?_
      split
      · exact .pure _
      · exact harmless_allocateBitFields env ih _ _ _ _ _
      · exact harmless_allocateBitElements ih _ _ _ _ _ _

theorem harmless_loadBitFields {part : LoadPart (BitLoadM κ) κ}
    (hpart : HarmlessPart BitLoadState.record part) (frames : List (Frame κ)) (f : Frame κ)
    (index cursor : Nat) (fields : List (BitField κ (BitLayout κ))) :
    Harmless BitLoadState.record (loadBitFields env part frames f index cursor fields) := by
  induction fields generalizing f index cursor with
  | nil => exact .pure _
  | cons field fields ih =>
    rw [loadBitFields]
    split
    · exact .pure _
    · refine (BitLoadM.harmless_ofLedger (LedgerM.harmless_spawn _ _ _)).bind fun blank =>
        (hpart _ _).bind fun out => ?_
      dsimp only
      split
      · exact .pure _
      · exact ih _ _ _

theorem harmless_loadBitElements {part : LoadPart (BitLoadM κ) κ}
    (hpart : HarmlessPart BitLoadState.record part) (element : BitLayout κ) (shape : BitShape κ)
    (frames : List (Frame κ)) (budget : Nat) (f : Frame κ) (index cursor : Nat) :
    Harmless BitLoadState.record
      (loadBitElements env part element shape frames budget f index cursor) := by
  induction budget generalizing f index cursor with
  | zero =>
    rw [loadBitElements]
    split <;> exact .pure _
  | succ budget ih =>
    rw [loadBitElements]
    split
    · exact .pure _
    · refine (BitLoadM.harmless_ofLedger (LedgerM.harmless_spawn _ _ _)).bind fun blank =>
        (hpart _ _).bind fun out => ?_
      split
      · split
        · exact .pure _
        · exact ih _ _ _
      · exact .pure _
      · split
        · exact .pure _
        · refine (BitLoadM.harmless_ofLedger (LedgerM.harmless_release _)).bind fun _ => ?_
          refine ((BitLoadM.harmless_ofLoad LoadM.harmless_viewEnd).bind fun _ => .pure _).bind
            fun bounded => ?_
          split
          · exact (BitLoadM.harmless_ofLedger (LedgerM.harmless_warn _)).bind fun _ => .pure _
          · exact .pure _

theorem harmless_loadBits (depth : Nat) : HarmlessPart BitLoadState.record (loadBits env depth) := by
  induction depth with
  | zero => exact fun _ _ => .pure _
  | succ depth ih =>
    intro frames a
    rw [loadBits]
    split
    · exact .pure _
    · refine (BitLoadM.harmless_read _).bind fun result => ?_
      split <;> exact .pure _
    · exact harmless_loadBitFields env ih _ _ _ _ _
    · exact harmless_loadBitElements env ih _ _ _ _ _ _ _

/-! ## Loading -/

theorem harmless_loadLeaf (layout : Layout κ) (frames : List (Frame κ)) (a : Atom κ) :
    Harmless LoadState.record (loadLeaf env layout frames a) := by
  rw [loadLeaf]
  refine (LoadM.harmless_readLeaf _ _ _ _).bind fun result => ?_
  split
  · exact .pure _
  · split
    · exact (LoadM.harmless_ofLedger (LedgerM.harmless_warn _)).bind fun _ => .pure _
    · exact .pure _

theorem harmless_loadCounted {part : LoadPart (LoadM κ) κ}
    (hpart : HarmlessPart LoadState.record part) (element : Layout κ) (frames : List (Frame κ))
    (count : Nat) (f : Frame κ) (index cursor : Nat) :
    Harmless LoadState.record (loadCounted part element frames count f index cursor) := by
  induction count generalizing f index cursor with
  | zero => exact .pure _
  | succ count ih =>
    rw [loadCounted]
    refine (LoadM.harmless_ofLedger (LedgerM.harmless_spawn _ _ _)).bind fun blank =>
      (hpart _ _).bind fun out => ?_
    dsimp only
    split
    · exact .pure _
    · split
      · exact .pure _
      · exact ih _ _ _

theorem harmless_loadBlockElements {part : LoadPart (LoadM κ) κ}
    (hpart : HarmlessPart LoadState.record part) (element : Layout κ) (limit : Nat)
    (frames : List (Frame κ)) (fuel : Nat) (f : Frame κ) (index cursor : Nat) :
    Harmless LoadState.record (loadBlockElements part element limit frames fuel f index cursor) := by
  induction fuel generalizing f index cursor with
  | zero => exact .pure _
  | succ fuel ih =>
    rw [loadBlockElements]
    split
    · exact .pure _
    · split
      · exact .pure _
      · refine (LoadM.harmless_ofLedger (LedgerM.harmless_spawn _ _ _)).bind fun blank =>
          (LoadM.harmless_inWindow limit (hpart _ _)).bind fun out => ?_
        split
        · split
          · exact (LoadM.harmless_ofLedger (LedgerM.harmless_release _)).bind fun _ => .pure _
          · exact .pure _
        · dsimp only
          split
          · exact .pure _
          · split
            · exact .pure _
            · exact ih _ _ _

theorem harmless_loadBlock {part : LoadPart (LoadM κ) κ}
    (hpart : HarmlessPart LoadState.record part) (element : Layout κ) (extent : Nat)
    (frames : List (Frame κ)) (a : Atom κ) :
    Harmless LoadState.record (loadBlock part element extent frames a) := by
  rw [loadBlock]
  split
  · exact .pure _
  · refine (harmless_loadBlockElements hpart _ _ _ _ _ _ _).bind fun out => ?_
    split
    · exact .pure _
    · split
      · exact .pure _
      · refine (LoadM.harmless_readAt _ _).bind fun result => ?_
        split
        · exact .pure _
        · exact (LoadM.harmless_ofLedger (LedgerM.harmless_warn _)).bind fun _ => .pure _

theorem harmless_loadOpen {part : LoadPart (LoadM κ) κ}
    (hpart : HarmlessPart LoadState.record part) (element : Layout κ) (rule? : Option κ)
    (frames : List (Frame κ)) (budget : Nat) (f : Frame κ) (index cursor : Nat) :
    Harmless LoadState.record
      (loadOpen env part element rule? frames budget f index cursor) := by
  induction budget generalizing f index cursor with
  | zero => exact .pure _
  | succ budget ih =>
    rw [loadOpen]
    refine LoadM.harmless_viewEnd.bind fun viewEnd? => ?_
    split
    · exact .pure _
    · refine (LoadM.harmless_ofLedger (LedgerM.harmless_spawn _ _ _)).bind fun blank =>
        (hpart _ _).bind fun out => ?_
      split
      · split
        · exact .pure _
        · refine (LoadM.harmless_ofLedger (LedgerM.harmless_release _)).bind fun _ => ?_
          split
          · exact .pure _
          · refine LoadM.harmless_viewEnd.bind fun viewEnd? => ?_
            split
            · exact (LoadM.harmless_ofLedger (LedgerM.harmless_warn _)).bind fun _ => .pure _
            · exact .pure _
      · split
        · exact .pure _
        · split
          · exact .pure _
          · exact ih _ _ _

theorem harmless_loadSized {part : LoadPart (LoadM κ) κ}
    (hpart : HarmlessPart LoadState.record part) (frames : List (Frame κ)) (a : Atom κ)
    (extent : Nat) : Harmless LoadState.record (loadSized part frames a extent) := by
  rw [loadSized]
  dsimp only
  split
  · exact .pure _
  · refine (LoadM.harmless_inWindow _ (hpart _ _)).bind fun out => ?_
    split
    · exact .pure _
    · refine (LoadM.harmless_readAt _ _).bind fun result => ?_
      split <;> exact .pure _

theorem harmless_loadField {part : LoadPart (LoadM κ) κ}
    (hpart : HarmlessPart LoadState.record part) (frames : List (Frame κ)) (f : Frame κ)
    (index : Nat) (extent? : Option κ) (blank : Atom κ) :
    Harmless LoadState.record (loadField env part frames f index extent? blank) := by
  cases extent? with
  | none => exact hpart _ _
  | some rule =>
    rw [loadField]
    split
    · exact .pure _
    · exact harmless_loadSized hpart _ _ _

theorem harmless_loadFields {part : LoadPart (LoadM κ) κ}
    (hpart : HarmlessPart LoadState.record part) (frames : List (Frame κ)) (f : Frame κ)
    (index cursor : Nat) (fields : List (Field κ (Layout κ))) :
    Harmless LoadState.record (loadFields env part frames f index cursor fields) := by
  induction fields generalizing f index cursor with
  | nil => exact .pure _
  | cons field fields ih =>
    rw [loadFields]
    split
    · exact .pure _
    · refine (LoadM.harmless_ofLedger (LedgerM.harmless_spawn _ _ _)).bind fun blank =>
        (harmless_loadField env hpart _ _ _ _ _).bind fun out => ?_
      dsimp only
      split
      · exact .pure _
      · split
        · exact .pure _
        · exact ih _ _ _

theorem harmless_loadMembers {part : LoadPart (LoadM κ) κ}
    (hpart : HarmlessPart LoadState.record part) (backing : Bytes) (frames : List (Frame κ))
    (f : Frame κ) (members : List (String × Layout κ)) :
    Harmless LoadState.record (loadMembers part backing frames f members) := by
  induction members generalizing f with
  | nil => exact .pure _
  | cons member members ih =>
    obtain ⟨name, layout⟩ := member
    rw [loadMembers]
    refine (LoadM.harmless_ofLedger (LedgerM.harmless_spawn _ _ _)).bind fun blank =>
      (LoadM.harmless_fromBytes _ _ (hpart _ _)).bind fun out => ?_
    dsimp only
    split
    · exact .pure _
    · exact ih _

theorem harmless_loadUnion {part : LoadPart (LoadM κ) κ}
    (hpart : HarmlessPart LoadState.record part) (members : List (String × Layout κ)) (size : Nat)
    (frames : List (Frame κ)) (a : Atom κ) :
    Harmless LoadState.record (loadUnion part members size frames a) := by
  rw [loadUnion]
  refine (LoadM.harmless_readAt _ _).bind fun result => ?_
  split
  · exact .pure _
  · exact harmless_loadMembers hpart _ _ _ _

theorem harmless_loadHost (depth : Nat) (layout : BitLayout κ) (order : ByteOrder)
    (frames : List (Frame κ)) (a : Atom κ) :
    Harmless LoadState.record (loadHost env depth layout order frames a) := by
  rw [loadHost]
  split
  · exact .pure _
  · refine (LoadM.harmless_ofLedger (LedgerM.harmless_spawn _ _ _)).bind fun root => ?_
    split
    · refine (LoadM.harmless_ofLedger (harmless_allocateBits env depth _ root)).bind fun out => ?_
      split <;> exact .pure _
    · rw [loadRoot]
      refine (LoadM.harmless_seekTo _ _).bind fun result => ?_
      split
      · exact .pure _
      · refine (BitLoadM.harmless_run _ _ (harmless_loadBits env depth _ root)).bind fun result => ?_
        split
        split <;> exact .pure _

/-- Loading an atom of bytes only reads and warns. -/
theorem harmless_load (depth : Nat) : HarmlessPart LoadState.record (load env depth) := by
  induction depth with
  | zero => exact fun _ _ => .pure _
  | succ depth ih =>
    intro frames a
    rw [load]
    split
    · exact .pure _
    · refine (LoadM.harmless_ofLedger (LedgerM.harmless_clear a)).bind fun b => ?_
      split
      · exact harmless_loadFields env ih _ _ _ _ _
      · exact harmless_loadCounted ih _ _ _ _ _ _
      · exact harmless_loadBlock ih _ _ _ _
      · exact harmless_loadOpen env ih _ _ _ _ _ _ _
      · exact harmless_loadOpen env ih _ _ _ _ _ _ _
      · exact harmless_loadUnion ih _ _ _ _
      · exact harmless_loadHost env depth _ _ _ _
      · exact harmless_loadLeaf env _ _ _

/-! ## Allocating -/

theorem harmless_allocateFields {part : LoadPart (LedgerM κ) κ}
    (hpart : HarmlessPart Ledger.record part) (frames : List (Frame κ)) (f : Frame κ)
    (index cursor : Nat) (fields : List (Field κ (Layout κ))) :
    Harmless Ledger.record (allocateFields env part frames f index cursor fields) := by
  induction fields generalizing f index cursor with
  | nil => exact .pure _
  | cons field fields ih =>
    rw [allocateFields]
    split
    · exact .pure _
    · refine (LedgerM.harmless_spawn _ _ _).bind fun blank => (hpart _ _).bind fun out => ?_
      split
      · exact .pure _
      · exact ih _ _ _
      · split
        · exact .pure _
        · exact ih _ _ _

theorem harmless_allocateElements {part : LoadPart (LedgerM κ) κ}
    (hpart : HarmlessPart Ledger.record part) (element : Layout κ) (frames : List (Frame κ))
    (count : Nat) (f : Frame κ) (index cursor : Nat) :
    Harmless Ledger.record (allocateElements part element frames count f index cursor) := by
  induction count generalizing f index cursor with
  | zero => exact .pure _
  | succ count ih =>
    rw [allocateElements]
    refine (LedgerM.harmless_spawn _ _ _).bind fun blank => (hpart _ _).bind fun out => ?_
    dsimp only
    split
    · exact .pure _
    · exact ih _ _ _

/-- Allocating an atom only warns. -/
theorem harmless_allocate (depth : Nat) : HarmlessPart Ledger.record (allocate env depth) := by
  induction depth with
  | zero => exact fun _ _ => .pure _
  | succ depth ih =>
    intro frames a
    rw [allocate]
    split
    · exact harmless_allocateBits env _ _ _
    · refine (LedgerM.harmless_clear a).bind fun b => ?_
      split
      · exact harmless_allocateFields env ih _ _ _ _ _
      · refine (harmless_allocateElements ih _ _ _ _ _ _).bind fun out => ?_
        split <;> exact .pure _
      · exact LedgerM.harmless_fromBytes _ _ (harmless_loadMembers (harmless_load env depth) _ _ _ _)
      · rw [allocateHost]
        split
        · exact .pure _
        · refine (LedgerM.harmless_spawn _ _ _).bind fun root =>
            (harmless_allocateBits env depth _ root).bind fun out => ?_
          dsimp only
          split <;> exact .pure _
      · exact .pure _

end BinaryLayout
