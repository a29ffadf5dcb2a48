import BinaryLayout.Proofs.Extent.Allocate
import BinaryLayout.Proofs.Prediction.Bits

/-!
# Sizes as predicted

The size of a layout is predicted by one recursion over the layout. Loading and default content realise it
by two others, each with its own way to deal with what block arrays leave, with the unused bits of hosts
and with fields that do not fit. They agree: an atom that was loaded or made under a layout of known size
has that size, wherever it is, whatever surrounds it and whatever the source is; and so has every atom in
it on which no other extent is forced.

## Main definitions

* `Outcome.Predicts`: what an atom of bytes was made into.

## Main statements

* `predicts_load`: an atom that was loaded under a layout of known size.
* `predicted_load`: everything in an atom that was loaded.
-/

namespace BinaryLayout

variable {κ : Type}

open Atom

/-- What an atom of bytes was made into where one with this info stood: its parts are as predicted, and it
has the size that is known, unless another one is forced on it. -/
def Outcome.Predicts (info : Info κ) (known? : Option Nat) (out : Outcome κ) : Prop :=
  out.error? = none → out.atom.Gathers info
    ∧ (info.extent? = none → ∀ size, known? = some size → out.atom.size = size)

namespace Outcome.Predicts

variable {info : Info κ} {known? : Option Nat} {out : Outcome κ}

theorem failed (a : Atom κ) (e : Error) : Outcome.Predicts info known? ⟨a, some e⟩ :=
  Error.of_absent

/-- An atom whose layout predicts nothing. -/
theorem unknown (h : out.error? = none → out.atom.Gathers info) : out.Predicts info none :=
  fun herror => ⟨h herror, fun _ _ => nofun⟩

/-- Everything in an atom that was made is as predicted. -/
theorem everywhere {layout : Layout κ} (h : out.Predicts info layout.staticSize)
    (hlayout : info.layout = .bytes layout) (herror : out.error? = none) :
    Everywhere Predicted out.atom :=
  (h herror).1.predicted hlayout (h herror).2

end Outcome.Predicts

/-- A complete atom that ends at `cursor`. -/
theorem Frame.Gathers.predicts {f : Frame κ} (hf : f.Gathers) {cursor : Nat} (hspanning : f.Spanning cursor)
    {known? : Option Nat} (hknown : ∀ size, known? = some size → f.info.offset + size = cursor) :
    Outcome.Predicts f.info known? ⟨f.close.ready, none⟩ := by
  refine fun _ => ⟨hf.close.ready, fun _ size hsize => ?_⟩
  have hclosed := hspanning.size
  have hcursor := hknown size hsize
  rw [size_ready]
  omega

/-- What blank atoms of bytes are made into. -/
def Predicting (part : LoadPart (LoadM κ) κ) : Prop :=
  ∀ layout frames a s, a.IsBlank → a.info.layout = .bytes layout →
    Ends (part frames a) s fun out _ => out.Predicts a.info layout.staticSize

section Load

variable {env : Env κ}

/-! ## Atoms without parts -/

/-- The bytes of an atom without parts are as many as its layout is known to have. -/
theorem LoadM.length_readLeaf (config : Config) (frames : List (Frame κ)) {layout : Layout κ} (offset : Nat)
    {size : Nat} (hsize : layout.staticSize = some size) (s : LoadState κ) :
    Ends (readLeaf config frames layout offset) s fun result _ =>
      ∀ raw, result = .ok raw → raw.length = size := by
  cases layout
  case text format =>
    rw [Layout.staticSize, TextFormat.staticSize] at hsize
    rw [readLeaf, readText]
    split at hsize
    · rename_i count hcount
      rw [hcount]
      dsimp only
      split
      · exact Ends.pure fun _ h => by cases h
      · rename_i amount hamount
        rw [word?_of_unitBytes hamount, Option.some.injEq] at hsize
        rw [← hsize]
        exact length_readAt _ _ s
    · cases hsize
  case varint | align => cases hsize
  case record | array | union | bits => exact Ends.pure fun _ h => by cases h
  all_goals
    cases hsize
    exact length_readAt _ _ s

theorem predicts_loadLeaf {layout : Layout κ} (frames : List (Frame κ)) {a : Atom κ}
    (hbits : a.isBits = false) (htail : a.info.tail = []) (s : LoadState κ) :
    Ends (loadLeaf env layout frames a) s fun out _ => out.Predicts a.info layout.staticSize := by
  rw [loadLeaf]
  have hread : Ends (LoadM.readLeaf env.config frames layout a.info.offset) s fun result _ =>
      ∀ size, layout.staticSize = some size → ∀ raw, result = .ok raw → raw.length = size :=
    fun size hsize => LoadM.length_readLeaf env.config frames a.info.offset hsize s
  refine hread.bind fun result t ht => ?_
  split
  · exact Ends.pure (.failed _ _)
  · rename_i raw
    have hdone : Outcome.Predicts a.info layout.staticSize ⟨((a.mapInfo fun info =>
        { info with undecodable := layout.isUndecodable raw }).withBytes layout raw).ready, none⟩ := by
      refine fun _ => ⟨Gathers.ready (.of_nil ?_ ?_ ?_), fun _ size hsize => ?_⟩
      · rw [withBytes_eq, info_fill, info_mapInfo]
      · rw [withBytes_eq, info_fill, info_mapInfo]
      · rw [withBytes_eq, parts_fill]
      · rw [size_withBytes hbits htail]
        exact ht size hsize raw rfl
    dsimp only
    split
    · exact (Ends.trivial _ t).bind fun _ _ _ => Ends.pure hdone
    · exact Ends.pure hdone

/-! ## Arrays -/

variable {part : LoadPart (LoadM κ) κ}

namespace LoadM

variable {s : LoadState κ}

/-- No extent is forced on a new atom. -/
theorem unforced_spawn (name : String) (layout : Layout κ) (offset : Nat) (s : LoadState κ) :
    Ends (ofLedger (LedgerM.spawn name (.bytes layout) offset)) s fun a _ =>
      a.IsBlank ∧ a.info.layout = .bytes layout ∧ a.info.extent? = none :=
  ⟨isBlank_blank _ _ _ _, rfl, rfl⟩

end LoadM

theorem predicts_loadCounted (hpart : Predicting part) (element : Layout κ) (frames : List (Frame κ))
    (count : Nat) {f : Frame κ} (hf : f.Gathers) {cursor : Nat} (hspanning : f.Spanning cursor)
    (index : Nat) {known? : Option Nat} (hknown : ∀ size, known? = some size →
      ∃ each, element.staticSize = some each ∧ f.info.offset + size = cursor + each * count)
    (s : LoadState κ) :
    Ends (loadCounted part element frames count f index cursor) s fun out _ =>
      out.Predicts f.info known? := by
  induction count generalizing f index cursor s with
  | zero =>
    refine Ends.pure (hf.predicts hspanning fun size hsize => ?_)
    obtain ⟨each, -, hsum⟩ := hknown size hsize
    exact hsum
  | succ count ih =>
    rw [loadCounted]
    refine (LoadM.unforced_spawn (toString index) element cursor s).bind fun blank t ht => ?_
    obtain ⟨hblank, hlayout, hextent⟩ := ht
    refine (hpart element _ _ t hblank hlayout).bind fun out u hout => ?_
    dsimp only
    split
    · exact Ends.pure (.failed _ _)
    · rename_i herror
      split
      · exact Ends.pure (.failed _ _)
      · rename_i next hspan
        refine ih (f := f.push out.atom) (hf.push (hout.everywhere hlayout herror))
          (hspanning.pushed hspan) (index + 1) (fun size hsize => ?_) u
        obtain ⟨each, heach, hsum⟩ := hknown size hsize
        refine ⟨each, heach, ?_⟩
        have hsize := (hout herror).2 hextent each heach
        show f.info.offset + size = next + each * count
        rw [hsum, (spanEnd_eq hspan).1, hsize, Nat.mul_succ]
        omega

/-- The elements of a block array are as predicted, also one that was cut short. -/
theorem gathers_loadBlockElements (hpart : Predicting part) (element : Layout κ) (limit : Nat)
    (frames : List (Frame κ)) (fuel : Nat) {f : Frame κ} (hf : f.Gathers) (index cursor : Nat)
    (s : LoadState κ) :
    Ends (loadBlockElements part element limit frames fuel f index cursor) s fun out _ =>
      out.error? = none → out.atom.Gathers f.info := by
  induction fuel generalizing f index cursor s with
  | zero => exact Ends.pure fun _ => hf.close
  | succ fuel ih =>
    rw [loadBlockElements]
    split
    · exact Ends.pure fun _ => hf.close
    · split
      · exact Ends.pure fun _ => hf.close
      · rename_i layout _
        refine (LoadM.unforced_spawn (toString index) layout cursor s).bind fun blank t ht => ?_
        obtain ⟨hblank, hlayout, -⟩ := ht
        have hwindow : Ends (LoadM.inWindow limit (part (f :: frames) blank)) t fun out _ =>
            out.Predicts blank.info layout.staticSize :=
          hpart layout _ _ { t with reader := .window t.reader limit 0 } hblank hlayout
        refine hwindow.bind fun out u hout => ?_
        split
        · split
          · exact (Ends.trivial _ u).bind fun _ _ _ => Ends.pure fun _ => hf.close
          · exact Ends.pure Error.of_absent
        · rename_i herror
          have hpush := hf.push (hout.everywhere hlayout herror)
          dsimp only
          split
          · exact Ends.pure fun _ => hpush.close
          · split
            · exact Ends.pure Error.of_absent
            · exact ih (f := f.push out.atom) hpush _ _ u

/-- A block array has the bytes of its layout. -/
theorem predicts_loadBlock (hpart : Predicting part) (hhonours : HonoursBytes part) (element : Layout κ)
    (extent : Nat) (frames : List (Frame κ)) {a : Atom κ}
    (hlayout : a.info.layout = .bytes (.array element (.block extent)))
    (hbits : a.isBits = false) (htail : a.info.tail = []) (s : LoadState κ) :
    Ends (loadBlock part element extent frames (a.fill .group [])) s fun out _ =>
      out.Predicts a.info (some extent) := by
  have hinfo : (a.fill .group []).info = a.info := info_fill _ _ _
  have hmade : Ends (loadBlock part element extent frames (a.fill .group [])) s fun out _ =>
      out.error? = none → out.atom.Made a.info := by
    rw [← hinfo]
    refine (honours_loadBlock hhonours element extent frames (hinfo ▸ hlayout)
      (s := s) ⟨?_, rfl, .refl s _⟩).mono fun _ _ h => h.made
    rw [hinfo]
    exact .start hbits htail
  suffices hgathers : Ends (loadBlock part element extent frames (a.fill .group [])) s fun out _ =>
      out.error? = none → out.atom.Gathers a.info from
    (hgathers.and hmade).mono fun out _ h herror => ⟨h.1 herror, fun hnone size hsize => by
      cases hsize
      exact (h.2 herror).block extent ⟨element, hlayout⟩ hnone⟩
  rw [loadBlock]
  split
  · exact Ends.pure Error.of_absent
  · rename_i limit _
    refine (gathers_loadBlockElements hpart element limit frames extent (Frame.Gathers.start a .group) 0 _
      s).bind fun out t hout => ?_
    split
    · exact Ends.pure Error.of_absent
    · rename_i herror
      have hatom : out.atom.Gathers a.info := hinfo ▸ hout herror
      split
      · exact Ends.pure fun _ => hatom.ready
      · refine (Ends.trivial _ t).bind fun result u _ => ?_
        split
        · exact Ends.pure Error.of_absent
        · exact (Ends.trivial _ u).bind fun _ _ _ => Ends.pure fun _ => (hatom.withTail _).ready

theorem gathers_loadOpen (hpart : Predicting part) (element : Layout κ) (rule? : Option κ)
    (frames : List (Frame κ)) (budget : Nat) {f : Frame κ} (hf : f.Gathers) (index cursor : Nat)
    (s : LoadState κ) :
    Ends (loadOpen env part element rule? frames budget f index cursor) s fun out _ =>
      out.error? = none → out.atom.Gathers f.info := by
  induction budget generalizing f index cursor s with
  | zero => exact Ends.pure Error.of_absent
  | succ budget ih =>
    rw [loadOpen]
    refine (Ends.trivial _ s).bind fun viewEnd? r _ => ?_
    split
    · exact Ends.pure fun _ => hf.close.ready
    · refine (LoadM.unforced_spawn (toString index) element cursor r).bind fun blank t ht => ?_
      obtain ⟨hblank, hlayout, -⟩ := ht
      refine (hpart element _ _ t hblank hlayout).bind fun out u hout => ?_
      split
      · split
        · exact Ends.pure Error.of_absent
        · refine (Ends.trivial _ u).bind fun _ v _ => ?_
          split
          · exact Ends.pure fun _ => hf.close.ready
          · refine (Ends.trivial _ v).bind fun viewEnd? w _ => ?_
            split
            · exact (Ends.trivial _ w).bind fun _ _ _ => Ends.pure fun _ => hf.close.ready
            · exact Ends.pure Error.of_absent
      · rename_i herror
        have hpush := hf.push (hout.everywhere hlayout herror)
        split
        · exact Ends.pure Error.of_absent
        · split
          · exact Ends.pure fun _ => hpush.close.ready
          · exact ih (f := f.push out.atom) hpush _ _ u

/-! ## Records and unions -/

/-- Nothing is predicted of the extent that is forced on a field. -/
theorem predicted_loadSized (hpart : Predicting part) {layout : Layout κ} (frames : List (Frame κ))
    {a : Atom κ} (hblank : a.IsBlank) (hlayout : a.info.layout = .bytes layout) (extent : Nat)
    (s : LoadState κ) :
    Ends (loadSized part frames a extent) s fun out _ =>
      out.error? = none → Everywhere Predicted out.atom := by
  let sized := a.mapInfo fun info => { info with extent? := some extent }
  have hsame : sized.info.layout = .bytes layout := by
    rw [← hlayout]
    cases a
    rfl
  have hempty : sized.IsBlank := by
    rw [isBlank_iff] at hblank ⊢
    simpa [sized] using hblank
  have hforced : sized.info.extent? ≠ none := by
    cases a
    exact Option.some_ne_none extent
  rw [loadSized]
  dsimp only
  split
  · exact Ends.pure Error.of_absent
  · rename_i limit _
    have hwindow : Ends (LoadM.inWindow limit (part frames sized)) s fun out _ =>
        out.Predicts sized.info layout.staticSize :=
      hpart layout _ _ { s with reader := .window s.reader limit 0 } hempty hsame
    refine hwindow.bind fun out t hout => ?_
    split
    · exact Ends.pure (hout.everywhere hsame)
    · rename_i hshort
      have herror : out.error? = none := by simpa using (not_or.1 hshort).1
      refine (Ends.trivial _ t).bind fun result u _ => ?_
      split
      · exact Ends.pure Error.of_absent
      · exact Ends.pure fun _ =>
          ((hout herror).1.withTail _).predicted hsame fun hnone => absurd hnone hforced

theorem predicted_loadField (hpart : Predicting part) {layout : Layout κ} (frames : List (Frame κ))
    (f : Frame κ) (index : Nat) (extent? : Option κ) {blank : Atom κ} (hblank : blank.IsBlank)
    (hlayout : blank.info.layout = .bytes layout) (hnone : blank.info.extent? = none) (s : LoadState κ) :
    Ends (loadField env part frames f index extent? blank) s fun out _ => out.error? = none →
      Everywhere Predicted out.atom
        ∧ (extent? = none → ∀ size, layout.staticSize = some size → out.atom.size = size) := by
  cases extent? with
  | none =>
    exact (hpart layout _ _ s hblank hlayout).mono fun out _ hout herror =>
      ⟨hout.everywhere hlayout herror, fun _ => (hout herror).2 hnone⟩
  | some rule =>
    rw [loadField]
    split
    · exact Ends.pure Error.of_absent
    · exact (predicted_loadSized hpart _ hblank hlayout _ s).mono fun out _ hout herror =>
        ⟨hout herror, fun hnone => absurd hnone (Option.some_ne_none rule)⟩

/-- A field of known size is given without an extent. -/
theorem extent?_of_staticSizeOfFields {total size : Nat} {field : Field κ (Layout κ)}
    {fields : List (Field κ (Layout κ))}
    (h : staticSizeOfFields total (field :: fields) = some size) : field.extent? = none := by
  obtain ⟨name, layout | rule, extent?, update?⟩ := field
  · cases extent? with
    | none => rfl
    | some rule =>
      rw [staticSizeOfFields] at h
      cases h
  · rw [staticSizeOfFields] at h
    cases h

theorem predicts_loadFields (hpart : Predicting part) (frames : List (Frame κ)) {f : Frame κ}
    (hf : f.Gathers) {cursor : Nat} (hspanning : f.Spanning cursor) (index total : Nat)
    (fields : List (Field κ (Layout κ))) {known? : Option Nat} (hknown : ∀ size, known? = some size →
      f.info.offset + total = cursor ∧ staticSizeOfFields total fields = some size) (s : LoadState κ) :
    Ends (loadFields env part frames f index cursor fields) s fun out _ =>
      out.Predicts f.info known? := by
  induction fields generalizing f index cursor total s with
  | nil =>
    refine Ends.pure (hf.predicts hspanning fun size hsize => ?_)
    obtain ⟨hplace, htotal⟩ := hknown size hsize
    cases htotal
    exact hplace
  | cons field fields ih =>
    rw [loadFields]
    split
    · exact Ends.pure (.failed _ _)
    · rename_i layout hresolve
      refine (LoadM.unforced_spawn field.name layout cursor s).bind fun blank t ht => ?_
      obtain ⟨hblank, hlayout, hextent⟩ := ht
      refine (predicted_loadField hpart frames f index field.extent? hblank hlayout hextent t).bind
        fun out u hout => ?_
      dsimp only
      split
      · exact Ends.pure (.failed _ _)
      · rename_i herror
        obtain ⟨hpredicted, hsize⟩ := hout herror
        split
        · exact Ends.pure (.failed _ _)
        · rename_i next hspan
          refine ih (f := f.push out.atom) (hf.push hpredicted) (hspanning.pushed hspan) _
            (total + out.atom.size) (fun size hstatic => ?_) u
          obtain ⟨hplace, htotal⟩ := hknown size hstatic
          obtain ⟨given, each, hgiven, heach, hmore⟩ := staticSizeOfFields_cons htotal
          rw [hgiven] at hresolve
          cases hresolve
          rw [hsize (extent?_of_staticSizeOfFields htotal) each heach, (spanEnd_eq hspan).1,
            hsize (extent?_of_staticSizeOfFields htotal) each heach, ← hplace, Nat.add_assoc]
          exact ⟨rfl, hmore⟩

theorem gathers_loadMembers (hpart : Predicting part) (backing : Bytes) (frames : List (Frame κ))
    {f : Frame κ} (hf : f.Gathers) (members : List (String × Layout κ)) (s : LoadState κ) :
    Ends (loadMembers part backing frames f members) s fun out _ =>
      out.error? = none → out.atom.Gathers f.info := by
  induction members generalizing f s with
  | nil => exact Ends.pure fun _ => hf.close.ready
  | cons member members ih =>
    obtain ⟨name, layout⟩ := member
    rw [loadMembers]
    refine (LoadM.unforced_spawn name layout f.info.offset s).bind fun blank t ht => ?_
    obtain ⟨hblank, hlayout, -⟩ := ht
    have hmember : Ends (LoadM.fromBytes backing f.info.offset (part (f :: frames) blank)) t fun out _ =>
        out.Predicts blank.info layout.staticSize :=
      hpart layout _ _ ⟨t.ledger, [], .ofBytes backing f.info.offset⟩ hblank hlayout
    refine hmember.bind fun out u hout => ?_
    dsimp only
    split
    · exact Ends.pure Error.of_absent
    · exact ih (f := f.push out.atom) (hf.push (hout.everywhere hlayout ‹_›)) u

/-- The members of a union share its bytes, which are as many as it has. -/
theorem predicts_loadMembers (hpart : Predicting part) (hhonours : HonoursBytes part) {backing : Bytes}
    (frames : List (Frame κ)) {a : Atom κ} (hbits : a.isBits = false) (htail : a.info.tail = [])
    (hblock : ∀ extent, ¬ IsBlockArray extent a.info.layout) (members : List (String × Layout κ))
    (s : LoadState κ) :
    Ends (loadMembers part backing frames (a.fill (.overlay backing) []).frame members) s fun out _ =>
      out.Predicts a.info (some backing.length) := by
  have hgathers := gathers_loadMembers hpart backing frames (Frame.Gathers.start a (.overlay backing))
    members s
  have hsize := honours_loadMembers hhonours (f := (a.fill (.overlay backing) []).frame) frames rfl hbits
    htail rfl hblock (fun part h => by cases h) members s
  refine (hgathers.and hsize).mono fun out _ h herror => ⟨h.1 herror, fun _ size hknown => ?_⟩
  cases hknown
  exact (h.2.2 herror).2

theorem predicts_loadUnion (hpart : Predicting part) (hhonours : HonoursBytes part)
    (members : List (String × Layout κ)) (size : Nat) (frames : List (Frame κ)) {a : Atom κ}
    (hbits : a.isBits = false) (htail : a.info.tail = [])
    (hblock : ∀ extent, ¬ IsBlockArray extent a.info.layout) (s : LoadState κ) :
    Ends (loadUnion part members size frames a) s fun out _ => out.Predicts a.info (some size) := by
  rw [loadUnion]
  refine (LoadM.length_readAt _ _ s).bind fun result t ht => ?_
  split
  · exact Ends.pure (.failed _ _)
  · rename_i backing
    rw [← ht backing rfl]
    exact predicts_loadMembers hpart hhonours frames hbits htail hblock members t

/-! ## Hosts of bits -/

/-- A host around the root of its bits. -/
theorem gathers_hostedBits (a : Atom κ) {root : Atom κ} (hroot : Everywhere Predicted root) (pad : Bitmap) :
    (hostedBits a root pad).Gathers a.info := by
  refine ⟨rfl, rfl, fun part hpart => ?_⟩
  have hmem : part ∈ [root] := hpart
  rw [List.mem_singleton.1 hmem]
  exact hroot

/-- A host with the unused bits of its last byte. -/
theorem predicts_hostedBits {layout : BitLayout κ} {a root : Atom κ} (hbits : a.isBits = false)
    (htail : a.info.tail = []) (hroot : Everywhere Predicted root) (pad : Bitmap)
    (hsize : ∀ width, layout.staticBits = some width →
      bytesOfBits (root.bitCount + pad.width) = bytesOfBits width) :
    Outcome.Predicts a.info (layout.staticBits.map bytesOfBits) ⟨(hostedBits a root pad).ready, none⟩ := by
  refine fun _ => ⟨(gathers_hostedBits a hroot pad).ready, fun _ size hknown => ?_⟩
  rw [Option.map_eq_some_iff] at hknown
  obtain ⟨width, hwidth, rfl⟩ := hknown
  rw [size_hostedBits hbits htail]
  exact hsize width hwidth

theorem predicts_loadRoot (depth : Nat) (order : ByteOrder) (frames : List (Frame κ)) {a root : Atom κ}
    {layout : BitLayout κ} (hlayout : root.info.layout = .bits layout) (hbits : a.isBits = false)
    (htail : a.info.tail = []) (s : LoadState κ) :
    Ends (loadRoot env depth order frames a root) s fun out _ =>
      out.Predicts a.info (layout.staticBits.map bytesOfBits) := by
  rw [loadRoot]
  refine (Ends.trivial _ s).bind fun result t _ => ?_
  split
  · exact Ends.pure (.failed _ _)
  · have hread : Ends (BitLoadM.run order a.info.offset
        (loadBits env depth ((a.fill (.host .empty) []).frame :: frames) root)) t fun result _ =>
          result.1.error? = none → Everywhere Predicted result.1.atom ∧ ∀ width,
            layout.staticBits = some width →
              bytesOfBits (result.1.atom.bitCount + result.2.width) = bytesOfBits width := by
      have hmade := predicted_loadBits env depth layout ((a.fill (.host .empty) []).frame :: frames) root
        ⟨t, .new order, a.info.offset⟩ hlayout
      have hsettles := settles_loadBits env depth ((a.fill (.host .empty) []).frame :: frames) root 0
        ⟨t, .new order, a.info.offset⟩ (.inr ⟨by simp, by simp⟩)
      refine BitLoadM.ends_run ((hmade.and hsettles).mono fun out u hu herror => ?_)
      obtain ⟨hgathers, hwidth⟩ := hu.1 herror
      refine ⟨hgathers.predicted_bits hlayout fun width h => (hwidth width h).1, fun width h => ?_⟩
      -- The bits handed out and those left over are whole bytes, and fewer than eight are left over.
      obtain ⟨hcount, hhands⟩ := hwidth width h
      have hfit := (hu.2.aligned herror).fits
      have hlength := u.length_pending
      simp only [Bitmap.Fits, BitReader.width_pad] at hfit
      simp only [BitLoadState.Hands, BitLoadState.pending_mk, BitReader.pending_new, List.length_nil] at hhands
      simp only [BitReader.width_pad, bytesOfBits, hcount]
      omega
    refine hread.bind fun result u hu => ?_
    obtain ⟨out, pad⟩ := result
    dsimp only
    split
    · exact Ends.pure (.failed _ _)
    · rename_i herror
      obtain ⟨hroot, hsize⟩ := hu herror
      exact Ends.pure (predicts_hostedBits hbits htail hroot pad hsize)

theorem predicts_loadHost (depth : Nat) {layout : BitLayout κ} {order : ByteOrder}
    (frames : List (Frame κ)) {a : Atom κ} (hbits : a.isBits = false) (htail : a.info.tail = [])
    (s : LoadState κ) :
    Ends (loadHost env depth layout order frames a) s fun out _ =>
      out.Predicts a.info (layout.staticBits.map bytesOfBits) := by
  rw [loadHost]
  split
  · exact Ends.pure (.failed _ _)
  · rename_i position _
    have hspawn : Ends (LoadM.ofLedger (LedgerM.spawn "" (.bits layout) position)) s fun root _ =>
        root.info.layout = .bits layout := rfl
    refine hspawn.bind fun root t hlayout => ?_
    split
    · rename_i hzero
      have hmade : Ends (LoadM.ofLedger (allocateBits env depth
          ((a.fill (.host .empty) []).frame :: frames) root)) t fun out _ => out.error? = none →
            Everywhere Predicted out.atom ∧ out.atom.bitCount = 0 := fun herror => by
        obtain ⟨hgathers, hwidth⟩ := predicted_allocateBits env depth layout _ root t.ledger hlayout herror
        exact ⟨hgathers.predicted_bits hlayout hwidth, hwidth 0 hzero⟩
      refine hmade.bind fun out u hu => ?_
      split
      · exact Ends.pure (.failed _ _)
      · rename_i herror
        obtain ⟨hroot, hcount⟩ := hu herror
        refine Ends.pure (predicts_hostedBits hbits htail hroot .empty fun width hwidth => ?_)
        rw [hzero] at hwidth
        cases hwidth
        rw [hcount]
        rfl
    · exact predicts_loadRoot depth order frames hlayout hbits htail t

/-! ## Loading -/

/-- An atom that was loaded under a layout of known size. -/
theorem predicts_load (env : Env κ) (depth : Nat) (frames : List (Frame κ)) {a : Atom κ} {layout : Layout κ}
    (hlayout : a.info.layout = .bytes layout) (s : LoadState κ) :
    Ends (load env depth frames a) s fun out _ => out.Predicts a.info layout.staticSize := by
  induction depth generalizing frames a layout s with
  | zero => exact Ends.pure (.failed _ _)
  | succ depth ih =>
    have hpart : Predicting (load env depth) := fun layout frames a s _ h => ih frames h s
    have hhonours : HonoursBytes (load env depth) := fun frames a s _ _ =>
      honours_load env depth frames a s
    rw [load, hlayout]
    have hclear : Ends (LoadM.ofLedger (LedgerM.clear a)) s fun b _ => b = a.cleared := rfl
    refine hclear.bind fun b t hb => ?_
    subst hb
    have hblank := isBlank_cleared a
    have hsame : a.cleared.info.layout = .bytes layout :=
      (Info.layout_of_site (site_cleared a)).trans hlayout
    have hbits : a.cleared.isBits = false := by rw [isBits, hsame]; rfl
    have hback (out : Outcome κ) {known? : Option Nat} (h : out.Predicts a.cleared.info known?) :
        out.Predicts a.info known? := by
      obtain ⟨info, content, parts⟩ := a
      intro herror
      obtain ⟨⟨h1, h2, h3⟩, hsize⟩ := h herror
      exact ⟨⟨h1, h2, h3⟩, hsize⟩
    have hstart := Frame.Gathers.start a.cleared .group
    have hspanning : (a.cleared.fill .group []).frame.Spanning a.cleared.info.offset :=
      .start hbits hblank.tail
    cases layout
    case record name fields =>
      exact (predicts_loadFields (f := (a.cleared.fill .group []).frame) hpart frames hstart hspanning 0 0
        fields (fun size hsize => ⟨rfl, hsize⟩) t).mono fun _ _ => hback _
    case array element shape =>
      cases shape with
      | counted count =>
        refine (predicts_loadCounted (f := (a.cleared.fill .group []).frame) hpart element frames count
          hstart hspanning 0 (fun size hsize => ?_) t).mono fun _ _ => hback _
        rw [Layout.staticSize, Option.bind_eq_some_iff] at hsize
        obtain ⟨each, heach, hproduct⟩ := hsize
        exact ⟨each, heach, congrArg (a.cleared.info.offset + ·) (eq_of_word? hproduct)⟩
      | block extent =>
        exact (predicts_loadBlock hpart hhonours element extent frames hsame hbits hblank.tail t).mono
          fun _ _ => hback _
      | terminated rule | unending =>
        exact (gathers_loadOpen hpart element _ frames _ hstart 0 _ t).mono fun _ _ h => hback _ (.unknown h)
    case union name members size =>
      refine (predicts_loadUnion hpart hhonours members size frames hbits hblank.tail
        (fun extent h => ?_) t).mono fun _ _ => hback _
      obtain ⟨element, harray⟩ := h
      rw [hsame] at harray
      cases harray
    case bits root order =>
      exact (predicts_loadHost depth frames hbits hblank.tail t).mono fun _ _ => hback _
    all_goals exact (predicts_loadLeaf frames hbits hblank.tail t).mono fun _ _ => hback _

/-- Every atom of bytes in what was loaded has the size that is known of its layout, unless an extent is
forced on it, and every atom of bits has the width that is known. -/
theorem predicted_load (env : Env κ) (depth : Nat) (frames : List (Frame κ)) (a : Atom κ)
    (s : LoadState κ) :
    Ends (load env depth frames a) s fun out _ => out.error? = none →
      out.atom.Gathers a.info ∧ Everywhere Predicted out.atom := by
  cases hlayout : a.info.layout with
  | bytes layout =>
    exact (predicts_load env depth frames hlayout s).mono fun out _ hout herror =>
      ⟨(hout herror).1, hout.everywhere hlayout herror⟩
  | bits layout =>
    cases depth with
    | zero => exact Ends.pure Error.of_absent
    | succ depth =>
      rw [load, hlayout]
      exact Ends.pure Error.of_absent

end Load

end BinaryLayout
