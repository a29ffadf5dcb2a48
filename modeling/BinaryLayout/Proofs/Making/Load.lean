import BinaryLayout.Proofs.Making.Basic
import BinaryLayout.Proofs.Placement.Bits

/-!
# Loading and allocating are ways of making atoms

Each loop of the loader and of the allocator takes the steps in which atoms are made, whatever its parts are
made by as long as they are made in these steps too; an induction on the depth of layouts puts the loops
together. This is the only place where the loops are gone through for the sake of the atoms and the handles
that come out. What the atoms look like is then a matter of the steps.

## Main definitions

* `Frame.Gets`: the frame of an atom of some layout that gets fields or elements.

## Main statements

* `making_loadBits`, `making_allocateBits`: atoms of bits.
* `making_load`: atoms of bytes.
* `makesOver_load`, `makesOver_allocate`, `makesOver_allocateBits`: the same of atoms that held something before.
-/

namespace BinaryLayout

variable {κ : Type}

open Atom

/-! ## Labels of parts -/

namespace AtomLayout

section Fields

variable {env : Env κ} {container : Place κ} {index : Nat} {name : String}

/-- The layout of a field that is given, or that a rule decides. -/
theorem declares_field {fields : List (Field κ (Layout κ))} {field : Field κ (Layout κ)} {layout : Layout κ}
    (hfield : fields[index]? = some field)
    (hresolve : env.resolve container index field.layout = .ok layout) :
    (AtomLayout.bytes (.record name fields)).Declares index (field.name, .bytes layout) := by
  refine ⟨field, hfield, rfl, fun given hgiven => ?_⟩
  rw [hgiven, Env.resolve] at hresolve
  cases hresolve
  rfl

theorem declares_bitField {fields : List (BitField κ (BitLayout κ))} {field : BitField κ (BitLayout κ)}
    {layout : BitLayout κ} (hfield : fields[index]? = some field)
    (hresolve : env.resolveBits container index field.layout = .ok layout) :
    (AtomLayout.bits (.record name fields)).Declares index (field.name, .bits layout) := by
  refine ⟨field, hfield, rfl, fun given hgiven => ?_⟩
  rw [hgiven, Env.resolveBits] at hresolve
  cases hresolve
  rfl

end Fields

/-- The next element of a block array, which may be cut short. -/
theorem declares_nextInBlock {element layout : Layout κ} {remaining : Nat}
    (h : nextInBlock element remaining = some layout) (shape : Shape κ) (i : Nat) :
    (AtomLayout.bytes (.array element shape)).Declares i (toString i, .bytes layout) := by
  refine ⟨rfl, ?_⟩
  rw [nextInBlock] at h
  split at h
  · cases h
    exact .inl rfl
  · cases h
  · split at h
    · cases h
      exact .inl rfl
    · split at h
      · rename_i hblock
        cases h
        exact .inr ⟨hblock, _, rfl⟩
      · cases h

end AtomLayout

/-! ## Parts one after another -/

/-- The frame of an atom of the layout that gets one field or element after another. -/
structure Frame.Gets (layout : AtomLayout κ) (f : Frame κ) : Prop where
  layout : f.info.layout = layout
  content : f.content = .group

namespace Frame.Gets

variable {f : Frame κ} {layout : AtomLayout κ} {cursor next : Nat} {a : Atom κ}

theorem push (h : f.Gets layout) (a : Atom κ) : (f.push a).Gets layout := ⟨h.layout, h.content⟩

/-- The next part stands behind a part of bits. -/
theorem after_bits {layout : BitLayout κ} (h : f.Gets (.bits layout)) :
    f.after cursor a = satAdd cursor a.bits := by
  rw [Frame.after, h.content, h.layout]
  rfl

theorem after_bytes {layout : Layout κ} (h : f.Gets (.bytes layout)) :
    f.after cursor a = satAdd cursor a.size := by
  rw [Frame.after, h.content, h.layout]
  rfl

theorem after_span {layout : Layout κ} (h : f.Gets (.bytes layout)) (hspan : spanEnd cursor a.size = .ok next) :
    f.after cursor a = next :=
  h.after_bytes.trans (spanEnd_eq hspan).2

/-- The next element of an array of bits. -/
theorem declares_bit {element : BitLayout κ} {shape : BitShape κ} {index : Nat}
    (h : f.Gets (.bits (.array element shape))) :
    f.info.layout.Declares index (toString index, .bits element) :=
  h.layout ▸ ⟨rfl, rfl⟩

theorem isBits_bit {layout element : BitLayout κ} (h : f.Gets (.bits layout)) :
    (AtomLayout.bits element).isBits = f.info.layout.isBits := by
  rw [h.layout]
  rfl

/-- The next element of an array. -/
theorem declares_element {element : Layout κ} {shape : Shape κ} {index : Nat}
    (h : f.Gets (.bytes (.array element shape))) :
    f.info.layout.Declares index (toString index, .bytes element) :=
  h.layout ▸ ⟨rfl, .inl rfl⟩

theorem isBits_byte {layout element : Layout κ} (h : f.Gets (.bytes layout)) :
    (AtomLayout.bytes element).isBits = f.info.layout.isBits := by
  rw [h.layout]
  rfl

end Frame.Gets

namespace Makes

variable {frames : List (Frame κ)} {f : Frame κ} {index cursor : Nat} {l : Ledger κ}

/-- An array may end after any element. -/
theorem finish {layout : AtomLayout κ} (hf : f.Gets layout) (hcount : layout.partCount? = none)
    (frames : List (Frame κ)) (index cursor : Nat) (l : Ledger κ) :
    Makes frames (.parts f index cursor) l ⟨f.close, none⟩ l :=
  .complete frames cursor l fun count h => by
    rw [hf.layout, hcount] at h
    cases h

end Makes

/-! ## New atoms -/

theorem LedgerM.gives_spawn (name : String) (layout : AtomLayout κ) (offset : Nat) (l : Ledger κ) :
    Ends (LedgerM.spawn name layout offset) l fun a m =>
      a = .blank l.take.1 name layout offset ∧ m = l.take.2 :=
  ⟨rfl, rfl⟩

theorem LoadM.gives_spawn (name : String) (layout : AtomLayout κ) (offset : Nat) (s : LoadState κ) :
    Ends (LoadM.ofLedger (LedgerM.spawn name layout offset)) s fun a t =>
      a = .blank s.ledger.take.1 name layout offset ∧ t.ledger = s.ledger.take.2 :=
  ⟨rfl, rfl⟩

theorem BitLoadM.gives_spawn (name : String) (layout : AtomLayout κ) (offset : Nat) (s : BitLoadState κ) :
    Ends (BitLoadM.ofLedger (LedgerM.spawn name layout offset)) s fun a t =>
      a = .blank (ledgerOf s).take.1 name layout offset ∧ ledgerOf t = (ledgerOf s).take.2 :=
  ⟨rfl, rfl⟩

section Bits

variable {env : Env κ} {f : Frame κ}

/-! ## Default bits -/

theorem makes_allocateBitFields {part : LoadPart (LedgerM κ) κ} (hpart : Making id part)
    (frames : List (Frame κ)) {name : String} {all : List (BitField κ (BitLayout κ))}
    (hf : f.Gets (.bits (.record name all))) (index cursor : Nat) (fields : List (BitField κ (BitLayout κ)))
    (hfields : all.drop index = fields) (hcount : index + fields.length = all.length) (l : Ledger κ) :
    Ends (allocateBitFields env part frames f index cursor fields) l fun out m =>
      Makes frames (.parts f index cursor) l out m := by
  induction fields generalizing f index cursor l with
  | nil =>
    refine Ends.pure (Makes.ready (.complete frames cursor l fun count h => ?_))
    rw [hf.layout] at h
    cases h
    exact hcount
  | cons field fields ih =>
    obtain ⟨hfield, hrest⟩ := next_of_drop hfields
    rw [allocateBitFields]
    split
    · exact Ends.pure (.stopped ..)
    · rename_i layout hresolve
      have hdeclares := hf.layout ▸ AtomLayout.declares_bitField hfield hresolve
      refine (LedgerM.gives_spawn field.name (.bits layout) cursor l).bind fun blank m hblank => ?_
      obtain ⟨rfl, rfl⟩ := hblank
      refine (hpart (f :: frames) _ _ (isBlank_blank ..)).bind fun out n hout => ?_
      dsimp only
      split
      · exact Ends.pure (hout.stop hdeclares hf.isBits_bit _)
      · rename_i herror
        rw [← hf.after_bits]
        exact (ih (hf.push out.atom) (index + 1) _ hrest (by rw [← hcount, List.length_cons]; omega) n).mono
          fun _ _ h => .next hdeclares hf.isBits_bit hout h fun _ => herror

theorem makes_allocateBitElements {part : LoadPart (LedgerM κ) κ} (hpart : Making id part)
    {element : BitLayout κ} {shape : BitShape κ} (frames : List (Frame κ)) (count : Nat)
    (hf : f.Gets (.bits (.array element shape))) (index cursor : Nat) (l : Ledger κ) :
    Ends (allocateBitElements part element frames count f index cursor) l fun out m =>
      Makes frames (.parts f index cursor) l out m := by
  induction count generalizing f index cursor l with
  | zero => exact Ends.pure (Makes.finish hf rfl frames index cursor l).ready
  | succ count ih =>
    rw [allocateBitElements]
    refine (LedgerM.gives_spawn (toString index) (.bits element) cursor l).bind fun blank m hblank => ?_
    obtain ⟨rfl, rfl⟩ := hblank
    refine (hpart (f :: frames) _ _ (isBlank_blank ..)).bind fun out n hout => ?_
    dsimp only
    split
    · exact Ends.pure (hout.stop hf.declares_bit hf.isBits_bit _)
    · rename_i herror
      rw [← hf.after_bits]
      exact (ih (hf.push out.atom) (index + 1) _ n).mono fun _ _ h =>
        .next hf.declares_bit hf.isBits_bit hout h fun _ => herror

/-- Default bits, whatever the atom held before. -/
theorem makesOver_allocateBits (env : Env κ) (depth : Nat) (frames : List (Frame κ)) (a : Atom κ)
    (l : Ledger κ) :
    Ends (allocateBits env depth frames a) l (MakesOver (0 < depth ∧ a.isBits = true) frames a l) := by
  induction depth generalizing frames a l with
  | zero => exact Ends.pure (.refused (fun h => absurd h.1 (Nat.lt_irrefl 0)) _)
  | succ depth ih =>
    have hpart : Making id (allocateBits env depth) :=
      fun frames a l ha => (ih frames a l).mono fun _ _ h => h.of_blank ha
    rw [allocateBits]
    split
    · rename_i layout hlayout
      refine Ends.pure (.refused (fun h => ?_) _)
      rw [isBits, hlayout] at h
      cases h.2
    · rename_i layout hlayout
      have hbits : a.isBits = true := by
        rw [isBits, hlayout]
        rfl
      rw [← Info.layout_of_site (site_cleared a)] at hlayout
      refine Ends.via (fun b m => b = a.cleared ∧ m = l.releaseAll a.parts) ⟨rfl, rfl⟩ fun b m hb => ?_
      obtain ⟨rfl, rfl⟩ := hb
      refine Ends.mono (?_ : Ends _ _ (Makes frames (.atom a.cleared) (l.releaseAll a.parts)))
        fun _ _ h => .inl ⟨⟨Nat.succ_pos depth, hbits⟩, h⟩
      cases layout with
      | int bits signed => exact Ends.pure (Makes.bits hlayout _).ready
      | record name fields =>
        exact (makes_allocateBitFields hpart frames (f := (a.cleared.fill .group []).frame) ⟨hlayout, rfl⟩ 0 _
          fields rfl (Nat.zero_add _) _).mono fun _ _ => .compound (hlayout ▸ rfl) (.inl rfl)
      | array element shape =>
        exact (makes_allocateBitElements hpart frames _ (f := (a.cleared.fill .group []).frame) ⟨hlayout, rfl⟩
          0 _ _).mono fun _ _ => .compound (hlayout ▸ rfl) (.inl rfl)

theorem making_allocateBits (env : Env κ) (depth : Nat) : Making id (allocateBits env depth) :=
  fun frames a l ha => (makesOver_allocateBits env depth frames a l).mono fun _ _ h => h.of_blank ha

/-! ## Bits from a view -/

theorem makes_loadBitFields {part : LoadPart (BitLoadM κ) κ} (hpart : Making BitLoadM.ledgerOf part)
    (frames : List (Frame κ)) {name : String} {all : List (BitField κ (BitLayout κ))}
    (hf : f.Gets (.bits (.record name all))) (index cursor : Nat) (fields : List (BitField κ (BitLayout κ)))
    (hfields : all.drop index = fields) (hcount : index + fields.length = all.length) (s : BitLoadState κ) :
    Ends (loadBitFields env part frames f index cursor fields) s fun out t =>
      Makes frames (.parts f index cursor) (BitLoadM.ledgerOf s) out (BitLoadM.ledgerOf t) := by
  induction fields generalizing f index cursor s with
  | nil =>
    refine Ends.pure (Makes.ready (.complete frames cursor _ fun count h => ?_))
    rw [hf.layout] at h
    cases h
    exact hcount
  | cons field fields ih =>
    obtain ⟨hfield, hrest⟩ := next_of_drop hfields
    rw [loadBitFields]
    split
    · exact Ends.pure (.stopped ..)
    · rename_i layout hresolve
      have hdeclares := hf.layout ▸ AtomLayout.declares_bitField hfield hresolve
      refine (BitLoadM.gives_spawn field.name (.bits layout) cursor s).bind fun blank t ht => ?_
      obtain ⟨rfl, ht⟩ := ht
      refine (hpart (f :: frames) _ _ (isBlank_blank ..)).bind fun out u hout => ?_
      rw [ht] at hout
      dsimp only
      split
      · exact Ends.pure (hout.stop hdeclares hf.isBits_bit _)
      · rename_i herror
        rw [← hf.after_bits]
        exact (ih (hf.push out.atom) (index + 1) _ hrest (by rw [← hcount, List.length_cons]; omega) u).mono
          fun _ _ h => .next hdeclares hf.isBits_bit hout h fun _ => herror

theorem makes_loadBitElements {part : LoadPart (BitLoadM κ) κ} (hpart : Making BitLoadM.ledgerOf part)
    {element : BitLayout κ} {shape : BitShape κ} (frames : List (Frame κ)) (budget : Nat)
    (hf : f.Gets (.bits (.array element shape))) (index cursor : Nat) (s : BitLoadState κ) :
    Ends (loadBitElements env part element shape frames budget f index cursor) s fun out t =>
      Makes frames (.parts f index cursor) (BitLoadM.ledgerOf s) out (BitLoadM.ledgerOf t) := by
  induction budget generalizing f index cursor s with
  | zero =>
    rw [loadBitElements]
    split
    · exact Ends.pure (Makes.finish hf rfl frames index cursor _).ready
    · exact Ends.pure (.stopped ..)
  | succ budget ih =>
    rw [loadBitElements]
    split
    · exact Ends.pure (Makes.finish hf rfl frames index cursor _).ready
    · refine (BitLoadM.gives_spawn (toString index) (.bits element) cursor s).bind fun blank t ht => ?_
      obtain ⟨rfl, ht⟩ := ht
      refine (hpart (f :: frames) _ _ (isBlank_blank ..)).bind fun out u hout => ?_
      rw [ht] at hout
      have hnext {next : Outcome κ} {m : Ledger κ} (hdone : next.error? = none → out.error? = none)
          (h : Makes frames (.parts (f.push out.atom) (index + 1) (satAdd cursor out.atom.bits))
            (BitLoadM.ledgerOf u) next m) :
          Makes frames (.parts f index cursor) (BitLoadM.ledgerOf s) next m := by
        rw [← hf.after_bits] at h
        exact .next hf.declares_bit hf.isBits_bit hout h hdone
      split
      · rename_i herror _
        split
        · exact Ends.pure (hnext (fun _ => herror) (Makes.finish (hf.push out.atom) rfl ..)).ready
        · exact (ih (hf.push out.atom) (index + 1) _ u).mono fun _ _ => hnext fun _ => herror
      · exact Ends.pure (hout.stop hf.declares_bit hf.isBits_bit _)
      · split
        · exact Ends.pure (hout.stop hf.declares_bit hf.isBits_bit _)
        · -- The element that could not be completed is given up.
          refine (BitLoadM.ends_release out.atom u).bind fun _ v hv => ?_
          refine (BitLoadM.leaves_bounded v).bind fun bounded w hw => ?_
          split
          · refine (BitLoadM.ends_warn _ w).bind fun _ x hx => Ends.pure ?_
            rw [hx, hw, hv]
            exact .dropped hf.isBits_bit hout (.warned rfl (Makes.finish hf rfl ..).ready)
          · refine Ends.pure ?_
            rw [hw, hv]
            exact .dropped hf.isBits_bit hout (.stopped ..)

/-- Atoms of bits. -/
theorem making_loadBits (env : Env κ) (depth : Nat) : Making BitLoadM.ledgerOf (loadBits env depth) := by
  induction depth with
  | zero => exact fun frames a _ _ => Ends.pure (.refused frames a _ _)
  | succ depth ih =>
    intro frames a s _
    rw [loadBits]
    split
    · exact Ends.pure (.refused frames a _ _)
    · rename_i bits signed hlayout
      refine (BitLoadM.leaves_ledger_read bits s).bind fun result t ht => ?_
      rw [← ht]
      split
      · exact Ends.pure (.refused frames a _ _)
      · exact Ends.pure (Makes.bits hlayout _).ready
    · rename_i name fields hlayout
      exact (makes_loadBitFields ih frames (f := (a.fill .group []).frame) ⟨hlayout, rfl⟩ 0 _ fields rfl
        (Nat.zero_add _) s).mono fun _ _ h => .compound (hlayout ▸ rfl) (.inl rfl) h
    · rename_i element shape hlayout
      exact (makes_loadBitElements ih frames _ (f := (a.fill .group []).frame) ⟨hlayout, rfl⟩ 0 _ s).mono
        fun _ _ h => .compound (hlayout ▸ rfl) (.inl rfl) h

end Bits

section Bytes

variable {env : Env κ} {f : Frame κ} {part : LoadPart (LoadM κ) κ}

/-! ## Atoms without parts -/

/-- A read at an offset gives as many bytes as were asked for. -/
theorem LoadM.length_readAt (offset amount : Nat) (s : LoadState κ) :
    Ends (readAt offset amount) s fun result _ => ∀ bytes, result = .ok bytes → bytes.length = amount := by
  rw [readAt]
  split
  · rename_i hnone
    exact Ends.pure fun bytes h => by cases h; exact hnone.symm
  · refine (Ends.trivial _ s).bind fun result t _ => ?_
    split
    · exact Ends.pure fun _ h => by cases h
    · refine Ends.via (fun result _ => result = (t.reader.consume t.sources amount).1) rfl
        fun result u hu => Ends.pure fun bytes h => ?_
      subst hu
      cases hread : t.reader.consume t.sources amount with
      | mk read left =>
        rw [hread] at h
        cases read with
        | error e => cases h
        | ok read =>
          cases h
          exact Reader.length_consume hread

/-- The bytes of an atom without parts. A pointer has those of its number. -/
theorem LoadM.stores_readLeaf (config : Config) (frames : List (Frame κ)) {layout : Layout κ}
    (hadmits : ∀ raw, (AtomLayout.bytes layout).admits (layout.stored raw) = true) (offset : Nat)
    (s : LoadState κ) :
    Ends (readLeaf config frames layout offset) s fun result t => t.ledger = s.ledger
      ∧ ∀ raw, result = .ok raw → layout.Stores raw (layout.isUndecodable raw) := by
  refine (leaves_readLeaf config frames layout offset s).and ?_
  cases layout with
  | pointer format target policy =>
    refine (length_readAt offset format.width s).mono fun result _ h raw hraw => ⟨hadmits raw, .inl rfl, ?_⟩
    intro format' _ _ heq
    cases heq
    exact h raw hraw
  | int | float | fixed | varint | text | block | constant | padding | align | record | array | union
  | bits => exact fun raw _ => ⟨hadmits raw, .inl rfl, fun _ _ _ heq => by cases heq⟩

/-- The warning that bytes call for is about their atom. -/
theorem Layout.path_of_warning? {layout : Layout κ} {path : Path} {raw : Bytes} {w : Warning}
    (h : layout.warning? path raw = some w) : w.path = path := by
  unfold Layout.warning? at h
  split at h
  · split at h
    · cases h
    · cases h
      rfl
  · split at h
    · cases h
    · cases h
      rfl
  · cases h

theorem makes_loadLeaf {layout : Layout κ}
    (hadmits : ∀ raw, (AtomLayout.bytes layout).admits (layout.stored raw) = true) (frames : List (Frame κ))
    {a : Atom κ} (hlayout : a.info.layout = .bytes layout) (s : LoadState κ) :
    Ends (loadLeaf env layout frames a) s fun out t => Makes frames (.atom a) s.ledger out t.ledger := by
  rw [loadLeaf]
  refine (LoadM.stores_readLeaf env.config frames hadmits a.info.offset s).bind fun result t ht => ?_
  obtain ⟨hledger, hstores⟩ := ht
  rw [← hledger]
  split
  · exact Ends.pure (.refused frames a _ _)
  · rename_i raw
    have hdone : Makes frames (.atom a) t.ledger _ t.ledger := (Makes.leaf hlayout (hstores raw rfl)).ready
    dsimp only
    split
    · rename_i w hwarning
      refine (LoadM.ends_warn w t).bind fun _ u hu => Ends.pure ?_
      rw [hu]
      exact .warned ((Layout.path_of_warning? hwarning).trans (Place.path_of_site hdone.site frames).symm) hdone
    · exact Ends.pure hdone

/-! ## Arrays -/

theorem makes_loadCounted (hpart : Making LoadState.ledger part) {element : Layout κ} {shape : Shape κ}
    (frames : List (Frame κ)) (count : Nat) (hf : f.Gets (.bytes (.array element shape))) (index cursor : Nat)
    (s : LoadState κ) :
    Ends (loadCounted part element frames count f index cursor) s fun out t =>
      Makes frames (.parts f index cursor) s.ledger out t.ledger := by
  induction count generalizing f index cursor s with
  | zero => exact Ends.pure (Makes.finish hf rfl frames index cursor _).ready
  | succ count ih =>
    rw [loadCounted]
    refine (LoadM.gives_spawn (toString index) (.bytes element) cursor s).bind fun blank t ht => ?_
    obtain ⟨rfl, ht⟩ := ht
    refine (hpart (f :: frames) _ t (isBlank_blank ..)).bind fun out u hout => ?_
    rw [ht] at hout
    dsimp only
    split
    · exact Ends.pure (hout.stop hf.declares_element hf.isBits_byte _)
    · rename_i herror
      split
      · exact Ends.pure (hout.stop hf.declares_element hf.isBits_byte _)
      · rename_i next hspan
        rw [← hf.after_span hspan]
        exact (ih (hf.push out.atom) (index + 1) _ u).mono fun _ _ h =>
          .next hf.declares_element hf.isBits_byte hout h fun _ => herror

theorem makes_loadBlockElements (hpart : Making LoadState.ledger part) {element : Layout κ} {shape : Shape κ}
    (limit : Nat) (frames : List (Frame κ)) (fuel : Nat) (hf : f.Gets (.bytes (.array element shape)))
    (index cursor : Nat) (s : LoadState κ) :
    Ends (loadBlockElements part element limit frames fuel f index cursor) s fun out t =>
      Makes frames (.parts f index cursor) s.ledger ⟨out.atom, out.error?⟩ t.ledger := by
  induction fuel generalizing f index cursor s with
  | zero => exact Ends.pure (.finish hf rfl frames index cursor _)
  | succ fuel ih =>
    rw [loadBlockElements]
    split
    · exact Ends.pure (.finish hf rfl frames index cursor _)
    · split
      · exact Ends.pure (.finish hf rfl frames index cursor _)
      · rename_i layout hlayout
        have hdeclares := hf.layout ▸ AtomLayout.declares_nextInBlock hlayout shape index
        refine (LoadM.gives_spawn (toString index) (.bytes layout) cursor s).bind fun blank t ht => ?_
        obtain ⟨rfl, ht⟩ := ht
        refine (LoadM.ends_inWindow limit (hpart (f :: frames) _ _ (isBlank_blank ..))).bind
          fun out u hout => ?_
        rw [ht] at hout
        split
        · split
          · refine (LoadM.ends_release out.atom u).bind fun _ v hv => Ends.pure ?_
            rw [hv]
            exact .dropped hf.isBits_byte hout (.finish hf rfl ..)
          · exact Ends.pure (hout.stop hdeclares hf.isBits_byte _)
        · rename_i herror
          have hnext {next : Outcome κ} {m : Ledger κ}
              (h : Makes frames (.parts (f.push out.atom) (index + 1) (f.after cursor out.atom)) u.ledger next m) :
              Makes frames (.parts f index cursor) s.ledger next m :=
            .next hdeclares hf.isBits_byte hout h fun _ => herror
          dsimp only
          split
          · exact Ends.pure (hnext (.finish (hf.push out.atom) rfl ..))
          · split
            · exact Ends.pure (hout.stop hdeclares hf.isBits_byte _)
            · rename_i next hspan
              refine (ih (hf.push out.atom) (index + 1) next u).mono fun _ _ h => hnext ?_
              rwa [hf.after_span hspan]

theorem makes_loadBlock (hpart : Making LoadState.ledger part) {element : Layout κ} {shape : Shape κ}
    (extent : Nat) (frames : List (Frame κ)) {a : Atom κ} (hf : a.frame.Gets (.bytes (.array element shape)))
    (s : LoadState κ) :
    Ends (loadBlock part element extent frames a) s fun out t =>
      Makes frames (.parts a.frame 0 a.info.offset) s.ledger out t.ledger := by
  rw [loadBlock]
  split
  · rename_i e _
    have hstopped := Makes.stopped frames a.frame 0 a.info.offset e s.ledger
    rw [close_frame] at hstopped
    exact Ends.pure hstopped
  · refine (makes_loadBlockElements hpart _ frames extent hf 0 a.info.offset s).bind fun out t hout => ?_
    split
    · rename_i e herror
      rw [herror] at hout
      exact Ends.pure hout
    · rename_i herror
      rw [herror] at hout
      split
      · exact Ends.pure hout.ready
      · refine (LoadM.leaves_readAt _ _ t).bind fun result u hu => ?_
        rw [← hu] at hout
        split
        · exact Ends.pure (hout.failed _)
        · rename_i tail
          refine (LoadM.ends_warn _ u).bind fun _ v hv => Ends.pure ?_
          have hbits : out.atom.isBits = false := by
            rw [isBits_of_site hout.site]
            exact congrArg AtomLayout.isBits hf.layout
          rw [hv]
          exact .warned (Place.path_of_site (site_ready _).symm frames) (hout.withTail hbits tail).ready

theorem makes_loadOpen (hpart : Making LoadState.ledger part) {element : Layout κ} {shape : Shape κ}
    (rule? : Option κ) (frames : List (Frame κ)) (budget : Nat) (hf : f.Gets (.bytes (.array element shape)))
    (index cursor : Nat) (s : LoadState κ) :
    Ends (loadOpen env part element rule? frames budget f index cursor) s fun out t =>
      Makes frames (.parts f index cursor) s.ledger out t.ledger := by
  induction budget generalizing f index cursor s with
  | zero => exact Ends.pure (.stopped ..)
  | succ budget ih =>
    rw [loadOpen]
    refine (LoadM.leaves_viewEnd s).bind fun viewEnd? t ht => ?_
    rw [← ht]
    split
    · exact Ends.pure (Makes.finish hf rfl frames index cursor _).ready
    · refine (LoadM.gives_spawn (toString index) (.bytes element) cursor t).bind fun blank u hu => ?_
      obtain ⟨rfl, hu⟩ := hu
      refine (hpart (f :: frames) _ u (isBlank_blank ..)).bind fun out v hout => ?_
      rw [hu] at hout
      split
      · split
        · exact Ends.pure (hout.stop hf.declares_element hf.isBits_byte _)
        · -- The element that ran out of bytes is given up.
          have hdrop {next : Outcome κ} {m : Ledger κ}
              (h : Makes frames (.parts f index cursor) (v.ledger.release out.atom) next m) :
              Makes frames (.parts f index cursor) t.ledger next m :=
            .dropped hf.isBits_byte hout h
          refine (LoadM.ends_release out.atom v).bind fun _ w hw => ?_
          split
          · refine Ends.pure (hdrop ?_)
            rw [hw]
            exact (Makes.finish hf rfl ..).ready
          · refine (LoadM.leaves_viewEnd w).bind fun viewEnd? x hx => ?_
            split
            · refine (LoadM.ends_warn _ x).bind fun _ y hy => Ends.pure (hdrop ?_)
              rw [hy, hx, hw]
              exact .warned rfl (Makes.finish hf rfl ..).ready
            · refine Ends.pure (hdrop ?_)
              rw [hx, hw]
              exact .stopped ..
      · rename_i herror
        split
        · exact Ends.pure (hout.stop hf.declares_element hf.isBits_byte _)
        · rename_i next hspan
          have hnext {next : Outcome κ} {m : Ledger κ}
              (h : Makes frames (.parts (f.push out.atom) (index + 1) (f.after cursor out.atom)) v.ledger next m) :
              Makes frames (.parts f index cursor) t.ledger next m :=
            .next hf.declares_element hf.isBits_byte hout h fun _ => herror
          split
          · exact Ends.pure (hnext (Makes.finish (hf.push out.atom) rfl ..)).ready
          · refine (ih (hf.push out.atom) (index + 1) next v).mono fun _ _ h => hnext ?_
            rwa [hf.after_span hspan]

/-! ## Records and unions -/

theorem makes_loadSized (hpart : Making LoadState.ledger part) (frames : List (Frame κ)) {a : Atom κ}
    (ha : a.IsBlank) (hbits : a.isBits = false) (extent : Nat) (s : LoadState κ) :
    Ends (loadSized part frames a extent) s fun out t => Makes frames (.atom a) s.ledger out t.ledger := by
  let sized := a.mapInfo fun info => { info with extent? := some extent }
  have hsized : sized.IsBlank := ha.sized extent
  rw [loadSized]
  dsimp only
  split
  · exact Ends.pure (.sized extent (.refused frames sized _ _))
  · refine (LoadM.ends_inWindow _ (hpart frames sized _ hsized)).bind fun out t hout => ?_
    obtain ⟨b, _ | e⟩ := out
    · split
      · exact Ends.pure (.sized extent hout)
      · refine (LoadM.leaves_readAt _ _ t).bind fun result u hu => ?_
        rw [← hu] at hout
        split
        · exact Ends.pure (.sized extent (hout.failed _))
        · have hbits' : b.isBits = false := by
            rw [isBits_of_site hout.site, Stage.top, isBits, info_mapInfo]
            exact hbits
          exact Ends.pure (.sized extent (hout.withTail hbits' _))
    · exact Ends.pure (.sized extent hout)

theorem makes_loadField (hpart : Making LoadState.ledger part) (frames : List (Frame κ)) (f : Frame κ)
    (index : Nat) (extent? : Option κ) {blank : Atom κ} (hblank : blank.IsBlank) (hbits : blank.isBits = false)
    (s : LoadState κ) :
    Ends (loadField env part frames f index extent? blank) s fun out t =>
      Makes (f :: frames) (.atom blank) s.ledger out t.ledger := by
  cases extent? with
  | none => exact hpart (f :: frames) blank s hblank
  | some rule =>
    rw [loadField]
    split
    · exact Ends.pure (.refused (f :: frames) blank _ _)
    · exact makes_loadSized hpart (f :: frames) hblank hbits _ s

theorem makes_loadFields (hpart : Making LoadState.ledger part) (frames : List (Frame κ)) {name : String}
    {all : List (Field κ (Layout κ))} (hf : f.Gets (.bytes (.record name all))) (index cursor : Nat)
    (fields : List (Field κ (Layout κ))) (hfields : all.drop index = fields)
    (hcount : index + fields.length = all.length) (s : LoadState κ) :
    Ends (loadFields env part frames f index cursor fields) s fun out t =>
      Makes frames (.parts f index cursor) s.ledger out t.ledger := by
  induction fields generalizing f index cursor s with
  | nil =>
    refine Ends.pure (Makes.ready (.complete frames cursor _ fun count h => ?_))
    rw [hf.layout] at h
    cases h
    exact hcount
  | cons field fields ih =>
    obtain ⟨hfield, hrest⟩ := next_of_drop hfields
    rw [loadFields]
    split
    · exact Ends.pure (.stopped ..)
    · rename_i layout hresolve
      have hdeclares := hf.layout ▸ AtomLayout.declares_field hfield hresolve
      refine (LoadM.gives_spawn field.name (.bytes layout) cursor s).bind fun blank t ht => ?_
      obtain ⟨rfl, ht⟩ := ht
      refine (makes_loadField hpart frames f index field.extent? (isBlank_blank ..) rfl t).bind
        fun out u hout => ?_
      rw [ht] at hout
      dsimp only
      split
      · exact Ends.pure (hout.stop hdeclares hf.isBits_byte _)
      · rename_i herror
        split
        · exact Ends.pure (hout.stop hdeclares hf.isBits_byte _)
        · rename_i next hspan
          rw [← hf.after_span hspan]
          exact (ih (hf.push out.atom) (index + 1) _ hrest (by rw [← hcount, List.length_cons]; omega) u).mono
            fun _ _ h => .next hdeclares hf.isBits_byte hout h fun _ => herror

theorem makes_loadMembers (hpart : Making LoadState.ledger part) {backing : Bytes} (frames : List (Frame κ))
    {name : String} {all : List (String × Layout κ)} {size : Nat} (hcontent : f.content = .overlay backing)
    (hlayout : f.info.layout = .bytes (.union name all size)) (index : Nat) (members : List (String × Layout κ))
    (hmembers : all.drop index = members) (hcount : index + members.length = all.length) (s : LoadState κ) :
    Ends (loadMembers part backing frames f members) s fun out t =>
      Makes frames (.parts f index f.info.offset) s.ledger out t.ledger := by
  induction members generalizing f index s with
  | nil =>
    refine Ends.pure (Makes.ready (.complete frames _ _ fun count h => ?_))
    rw [hlayout] at h
    cases h
    exact hcount
  | cons member members ih =>
    obtain ⟨hmember, hrest⟩ := next_of_drop hmembers
    obtain ⟨memberName, layout⟩ := member
    have hdeclares : f.info.layout.Declares index (memberName, .bytes layout) := hlayout ▸ ⟨layout, hmember, rfl⟩
    have hbits : (AtomLayout.bytes layout).isBits = f.info.layout.isBits := by rw [hlayout]; rfl
    rw [loadMembers]
    refine (LoadM.gives_spawn memberName (.bytes layout) f.info.offset s).bind fun blank t ht => ?_
    obtain ⟨rfl, ht⟩ := ht
    refine (LoadM.ends_fromBytes (hpart (f :: frames) _ _ (isBlank_blank ..))).bind fun out u hout => ?_
    rw [ht] at hout
    dsimp only
    split
    · exact Ends.pure (hout.stop hdeclares hbits _)
    · rename_i herror
      refine (ih (f := f.push out.atom) hcontent hlayout (index + 1) hrest
        (by rw [← hcount, List.length_cons]; omega) u).mono fun _ _ h => ?_
      have hafter : f.after f.info.offset out.atom = (f.push out.atom).info.offset := by
        rw [Frame.after, hcontent]
        rfl
      rw [← hafter] at h
      exact .next hdeclares hbits hout h fun _ => herror

theorem makes_loadUnion (hpart : Making LoadState.ledger part) (frames : List (Frame κ)) {name : String}
    {members : List (String × Layout κ)} {size : Nat} {a : Atom κ}
    (hlayout : a.info.layout = .bytes (.union name members size)) (s : LoadState κ) :
    Ends (loadUnion part members size frames a) s fun out t =>
      Makes frames (.atom a) s.ledger out t.ledger := by
  rw [loadUnion]
  refine (LoadM.leaves_readAt _ _ s).bind fun result t ht => ?_
  rw [← ht]
  split
  · exact Ends.pure (.refused frames a _ _)
  · rename_i backing
    exact (makes_loadMembers hpart frames (f := (a.fill (.overlay backing) []).frame) rfl hlayout 0 members rfl
      (Nat.zero_add _) t).mono fun _ _ h => .compound (hlayout ▸ rfl) (.inr ⟨backing, rfl⟩) h

/-! ## Hosts of bits -/

theorem makes_loadHost (depth : Nat) {layout : BitLayout κ} {order : ByteOrder} (frames : List (Frame κ))
    {a : Atom κ} (hlayout : a.info.layout = .bytes (.bits layout order)) (s : LoadState κ) :
    Ends (loadHost env depth layout order frames a) s fun out t =>
      Makes frames (.atom a) s.ledger out t.ledger := by
  rw [loadHost]
  split
  · exact Ends.pure (.refused frames a _ _)
  · rename_i position hposition
    refine (LoadM.gives_spawn "" (.bits layout) position s).bind fun root t ht => ?_
    obtain ⟨rfl, ht⟩ := ht
    have hhost (out : Outcome κ) (pad : Bitmap) {u : LoadState κ} (hpad : pad.Fits out.atom.bitCount)
        (h : Makes ((a.fill (.host .empty) []).frame :: frames)
          (.atom (.blank s.ledger.take.1 "" (.bits layout) position)) t.ledger out u.ledger) :
        Makes frames (.atom a) s.ledger ⟨hostedBits a out.atom pad, out.error?⟩ u.ledger := by
      rw [ht] at h
      exact .host hlayout hposition hpad h
    split
    · have hroot : Ends (LoadM.ofLedger (allocateBits env depth ((a.fill (.host .empty) []).frame :: frames)
          (.blank s.ledger.take.1 "" (.bits layout) position))) t fun out u =>
            Makes ((a.fill (.host .empty) []).frame :: frames)
              (.atom (.blank s.ledger.take.1 "" (.bits layout) position)) t.ledger out u.ledger :=
        making_allocateBits env depth _ _ t.ledger (isBlank_blank ..)
      refine hroot.bind fun out u hout => ?_
      have hmade := hhost out .empty (.inl rfl) hout
      split
      · rename_i e herror
        rw [herror] at hmade
        exact Ends.pure hmade
      · rename_i herror
        rw [herror] at hmade
        exact Ends.pure hmade.ready
    · rw [loadRoot]
      refine (LoadM.leaves_seekTo _ _ t).bind fun result u hu => ?_
      split
      · rename_i e
        refine Ends.pure (hhost ⟨_, some e⟩ .empty (.inl rfl) ?_)
        rw [hu]
        exact .refused ..
      · have hroot : Ends (BitLoadM.run order a.info.offset (loadBits env depth
            ((a.fill (.host .empty) []).frame :: frames) (.blank s.ledger.take.1 "" (.bits layout) position))) u
            fun result v => (result.1.error? = none → result.2.Fits result.1.atom.bitCount)
              ∧ Makes ((a.fill (.host .empty) []).frame :: frames)
                (.atom (.blank s.ledger.take.1 "" (.bits layout) position)) u.ledger result.1 v.ledger := by
          refine ⟨fun herror => ?_, making_loadBits env depth _ _ ⟨u, .new order, a.info.offset⟩ (isBlank_blank ..)⟩
          have haligned := (settles_loadBits env depth ((a.fill (.host .empty) []).frame :: frames) _ 0
            ⟨u, .new order, a.info.offset⟩ (.inr (by simp))).aligned herror
          rw [Nat.zero_add] at haligned
          exact haligned.fits
        refine hroot.bind fun result v hv => ?_
        obtain ⟨out, pad⟩ := result
        obtain ⟨hpad, hout⟩ := hv
        rw [hu] at hout
        dsimp only
        split
        · rename_i e herror
          have hmade := hhost out .empty (.inl rfl) hout
          rw [herror] at hmade
          exact Ends.pure hmade
        · rename_i herror
          have hmade := hhost out pad (hpad herror) hout
          rw [herror] at hmade
          exact Ends.pure hmade.ready

/-! ## Loading -/

/-- An atom that is loaded, whatever it held before. -/
theorem makesOver_load (env : Env κ) (depth : Nat) (frames : List (Frame κ)) (a : Atom κ) (s : LoadState κ) :
    Ends (load env depth frames a) s fun out t =>
      MakesOver (0 < depth ∧ a.isBits = false) frames a s.ledger out t.ledger := by
  induction depth generalizing frames a s with
  | zero => exact Ends.pure (.refused (fun h => absurd h.1 (Nat.lt_irrefl 0)) _)
  | succ depth ih =>
    have hpart : Making LoadState.ledger (load env depth) :=
      fun frames a s ha => (ih frames a s).mono fun _ _ h => h.of_blank ha
    rw [load]
    split
    · rename_i layout hlayout
      refine Ends.pure (.refused (fun h => ?_) _)
      rw [isBits, hlayout] at h
      cases h.2
    · rename_i layout hlayout
      have hbits : a.isBits = false := by
        rw [isBits, hlayout]
        rfl
      rw [← Info.layout_of_site (site_cleared a)] at hlayout
      refine Ends.via (fun b t => b = a.cleared ∧ t.ledger = s.ledger.releaseAll a.parts) ⟨rfl, rfl⟩
        fun b t hb => ?_
      obtain ⟨rfl, ht⟩ := hb
      refine Ends.mono (?_ : Ends _ _ fun out u => Makes frames (.atom a.cleared) t.ledger out u.ledger)
        fun out u h => .inl ⟨⟨Nat.succ_pos depth, hbits⟩, ht ▸ h⟩
      have hgroup {out : Outcome κ} {u : LoadState κ}
          (hadmits : a.cleared.info.layout.admits .group = true)
          (h : Makes frames (.parts (a.cleared.fill .group []).frame 0 a.cleared.info.offset) t.ledger out u.ledger) :
          Makes frames (.atom a.cleared) t.ledger out u.ledger :=
        .compound hadmits (.inl rfl) h
      cases layout
      case record name fields =>
        exact (makes_loadFields hpart frames (f := (a.cleared.fill .group []).frame) ⟨hlayout, rfl⟩ 0 _ fields rfl
          (Nat.zero_add _) t).mono fun _ _ => hgroup (hlayout ▸ rfl)
      case array element shape =>
        have hf : (a.cleared.fill .group []).frame.Gets (.bytes (.array element shape)) := ⟨hlayout, rfl⟩
        have hadmits : a.cleared.info.layout.admits .group = true := hlayout ▸ rfl
        cases shape with
        | counted count => exact (makes_loadCounted hpart frames count hf 0 _ t).mono fun _ _ => hgroup hadmits
        | block extent => exact (makes_loadBlock hpart extent frames hf t).mono fun _ _ => hgroup hadmits
        | terminated rule => exact (makes_loadOpen hpart _ frames _ hf 0 _ t).mono fun _ _ => hgroup hadmits
        | unending => exact (makes_loadOpen hpart _ frames _ hf 0 _ t).mono fun _ _ => hgroup hadmits
      case union name members size => exact makes_loadUnion hpart frames hlayout t
      case bits root order => exact makes_loadHost depth frames hlayout t
      all_goals exact makes_loadLeaf (fun _ => rfl) frames hlayout t

theorem making_load (env : Env κ) (depth : Nat) : Making LoadState.ledger (load env depth) :=
  fun frames a s ha => (makesOver_load env depth frames a s).mono fun _ _ h => h.of_blank ha

end Bytes

section Allocate

variable {env : Env κ} {f : Frame κ} {part : LoadPart (LedgerM κ) κ}

/-! ## Default content -/

theorem makes_allocateFields (hpart : Making id part) (frames : List (Frame κ)) {name : String}
    {all : List (Field κ (Layout κ))} (hf : f.Gets (.bytes (.record name all))) (index cursor : Nat)
    (fields : List (Field κ (Layout κ))) (hfields : all.drop index = fields)
    (hcount : index + fields.length = all.length) (l : Ledger κ) :
    Ends (allocateFields env part frames f index cursor fields) l fun out m =>
      Makes frames (.parts f index cursor) l out m := by
  induction fields generalizing f index cursor l with
  | nil =>
    refine Ends.pure (Makes.ready (.complete frames cursor l fun count h => ?_))
    rw [hf.layout] at h
    cases h
    exact hcount
  | cons field fields ih =>
    obtain ⟨hfield, hrest⟩ := next_of_drop hfields
    have hcount : index + 1 + fields.length = all.length := by rw [← hcount, List.length_cons]; omega
    rw [allocateFields]
    split
    · exact Ends.pure (.stopped ..)
    · rename_i layout hresolve
      have hdeclares := hf.layout ▸ AtomLayout.declares_field hfield hresolve
      refine (LedgerM.gives_spawn field.name (.bytes layout) cursor l).bind fun blank m hblank => ?_
      obtain ⟨rfl, rfl⟩ := hblank
      refine (hpart (f :: frames) _ _ (isBlank_blank ..)).bind fun out n hout => ?_
      have hnext (b : Atom κ)
          (hmade : Makes (f :: frames) (.atom (.blank l.take.1 field.name (.bytes layout) cursor)) l.take.2
            ⟨b, none⟩ n) :
          Ends (allocateFields env part frames (f.push b) (index + 1) (satAdd cursor b.size) fields) n
            fun out m => Makes frames (.parts f index cursor) l out m := by
        rw [← hf.after_bytes]
        exact (ih (hf.push b) (index + 1) _ hrest hcount n).mono fun _ _ h =>
          .next hdeclares hf.isBits_byte hmade h fun _ => rfl
      obtain ⟨b, error?⟩ := out
      dsimp only
      split
      · exact Ends.pure (hout.stop hdeclares hf.isBits_byte _)
      · exact hnext b hout
      · split
        · exact Ends.pure (hout.stop hdeclares hf.isBits_byte _)
        · exact hnext _ (hout.forceExtent (isBits_of_site hout.site) _ _)

theorem makes_allocateElements (hpart : Making id part) {element : Layout κ} {shape : Shape κ}
    (frames : List (Frame κ)) (count : Nat) (hf : f.Gets (.bytes (.array element shape))) (index cursor : Nat)
    (l : Ledger κ) :
    Ends (allocateElements part element frames count f index cursor) l fun out m =>
      Makes frames (.parts f index cursor) l out m := by
  induction count generalizing f index cursor l with
  | zero => exact Ends.pure (Makes.finish hf rfl frames index cursor l).ready
  | succ count ih =>
    rw [allocateElements]
    refine (LedgerM.gives_spawn (toString index) (.bytes element) cursor l).bind fun blank m hblank => ?_
    obtain ⟨rfl, rfl⟩ := hblank
    refine (hpart (f :: frames) _ _ (isBlank_blank ..)).bind fun out n hout => ?_
    dsimp only
    split
    · exact Ends.pure (hout.stop hf.declares_element hf.isBits_byte _)
    · rename_i herror
      rw [← hf.after_bytes]
      exact (ih (hf.push out.atom) (index + 1) _ n).mono fun _ _ h =>
        .next hf.declares_element hf.isBits_byte hout h fun _ => herror

theorem makes_allocateHost (depth : Nat) {layout : BitLayout κ} {order : ByteOrder} (frames : List (Frame κ))
    {a : Atom κ} (hlayout : a.info.layout = .bytes (.bits layout order)) (l : Ledger κ) :
    Ends (allocateHost env depth layout frames a) l (Makes frames (.atom a) l) := by
  rw [allocateHost]
  split
  · exact Ends.pure (.refused frames a _ _)
  · rename_i position hposition
    refine (LedgerM.gives_spawn "" (.bits layout) position l).bind fun root m hroot => ?_
    obtain ⟨rfl, rfl⟩ := hroot
    refine (making_allocateBits env depth _ _ _ (isBlank_blank ..)).bind fun out n hout => ?_
    obtain ⟨b, error?⟩ := out
    cases error? with
    | some e => exact Ends.pure (.host hlayout hposition (.inl rfl) hout)
    | none =>
      -- The host gets the unused bits that its root needs.
      obtain ⟨pad, hpad, hfixed⟩ := exists_fixPad a.info .empty [b]
      have hmade : Makes frames (.atom a) l ⟨hostedBits a b pad, none⟩ n :=
        .host hlayout hposition (show pad.Fits (b.bitCount + 0) from hpad) hout
      have hsame : (hostedBits a b .empty).fixPad = hostedBits a b pad := hfixed
      dsimp only
      rw [hsame]
      exact Ends.pure hmade.ready

/-- Default bytes are stored as bytes that were read are, and nothing is noted about them. -/
theorem makes_allocateLeaf {layout : Layout κ}
    (hadmits : ∀ raw, (AtomLayout.bytes layout).admits (layout.stored raw) = true) (frames : List (Frame κ))
    {a : Atom κ} (ha : a.IsBlank) (hlayout : a.info.layout = .bytes layout) (l : Ledger κ) :
    Makes frames (.atom a) l (allocateLeaf env layout frames a) l := by
  rw [allocateLeaf]
  split
  · exact .refused frames a _ _
  · rename_i raw hraw
    have hstores : layout.Stores raw false := by
      refine ⟨hadmits raw, .inr ⟨rfl, _, _, _, hraw⟩, fun format target policy heq => ?_⟩
      subst heq
      cases hraw
      exact List.length_replicate
    have hunmarked : (a.mapInfo fun info => { info with undecodable := false }) = a := by
      rw [← ha]
      cases a
      rfl
    have hmade : Makes frames (.atom a) l _ l := (Makes.leaf hlayout hstores).ready
    rwa [hunmarked] at hmade

/-- Default content, whatever the atom held before. -/
theorem makesOver_allocate (env : Env κ) (depth : Nat) (frames : List (Frame κ)) (a : Atom κ) (l : Ledger κ) :
    Ends (allocate env depth frames a) l (MakesOver (0 < depth) frames a l) := by
  induction depth generalizing frames a l with
  | zero => exact Ends.pure (.refused (Nat.lt_irrefl 0) _)
  | succ depth ih =>
    have hpart : Making id (allocate env depth) :=
      fun frames a l ha => (ih frames a l).mono fun _ _ h => h.of_blank ha
    rw [allocate]
    split
    · rename_i layout hlayout
      have hbits : a.isBits = true := by
        rw [isBits, hlayout]
        rfl
      exact (makesOver_allocateBits env (depth + 1) frames a l).mono fun _ _ h =>
        h.imp (And.imp_left And.left) (And.imp_left fun hno h => hno ⟨h, hbits⟩)
    · rename_i layout hlayout
      rw [← Info.layout_of_site (site_cleared a)] at hlayout
      refine Ends.via (fun b m => b = a.cleared ∧ m = l.releaseAll a.parts) ⟨rfl, rfl⟩ fun b m hb => ?_
      obtain ⟨rfl, rfl⟩ := hb
      refine Ends.mono (?_ : Ends _ _ (Makes frames (.atom a.cleared) (l.releaseAll a.parts)))
        fun _ _ h => .inl ⟨Nat.succ_pos depth, h⟩
      cases layout
      case record name fields =>
        exact (makes_allocateFields hpart frames (f := (a.cleared.fill .group []).frame) ⟨hlayout, rfl⟩ 0 _ fields
          rfl (Nat.zero_add _) _).mono fun _ _ => .compound (hlayout ▸ rfl) (.inl rfl)
      case array element shape =>
        refine (makes_allocateElements hpart frames _ (f := (a.cleared.fill .group []).frame) ⟨hlayout, rfl⟩ 0 _
          _).bind fun out n hout => ?_
        have hmade : Makes frames (.atom a.cleared) (l.releaseAll a.parts) out n :=
          .compound (hlayout ▸ rfl) (.inl rfl) hout
        obtain ⟨b, error?⟩ := out
        cases error? with
        | some e => exact Ends.pure hmade
        | none =>
          have hbits : b.isBits = false := by
            rw [isBits_of_site hmade.site, Stage.top, isBits, hlayout]
            rfl
          exact Ends.pure (hmade.withTail hbits _)
      case union name members size =>
        exact LedgerM.ends_fromBytes ((makes_loadMembers (making_load env depth) frames
          (f := (a.cleared.fill (.overlay (List.replicate size 0)) []).frame) rfl hlayout 0 members rfl
          (Nat.zero_add _) _).mono fun _ _ => .compound (hlayout ▸ rfl) (.inr ⟨_, rfl⟩))
      case bits root order => exact makes_allocateHost depth frames hlayout _
      all_goals exact Ends.pure (makes_allocateLeaf (fun _ => rfl) frames (isBlank_cleared a) hlayout _)

end Allocate

end BinaryLayout
