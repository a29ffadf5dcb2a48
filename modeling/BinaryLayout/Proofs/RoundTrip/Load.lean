import BinaryLayout.Proofs.Document.Rules
import BinaryLayout.Proofs.Layout.Uses
import BinaryLayout.Proofs.RoundTrip.Bits

/-!
# Loading and writing back

An atom that was loaded without an error stands for the bytes that the view shows at its offset. The
parts of a record or an array are put one after another, and so are their bytes; a tail takes the
bytes that the content of a sized field or of a block array leaves; and an element that was dropped
leaves no bytes behind, because the next read says where it starts.

So an outermost atom that was loaded from bytes in memory is written back as the bytes it was loaded
from, one for one. The layout may be any: records whose fields are computed or sized, arrays of all
shapes with what they leave over, unions, pointers, texts, padding and hosts with unused bits. Only
an array of bits that a rule ends may lose bits, namely those of an element that it dropped.

## Main definitions

* `Atom.Mirrors`: an atom whose bytes are those at an offset of the data.
* `Frame.Copying`: the bytes of the parts so far.

## Main statements

* `mirrors_load`: an atom of bytes that was loaded.
* `mirrors_fromBytes`: an atom that was loaded from certain bytes.
* `Document.serialize_loadNew`: what was loaded is written back unchanged.
-/

namespace BinaryLayout

variable {κ : Type} {data : Bytes}

open Atom

/-! ## Bytes of atoms -/

/-- The bytes of the atom are those of the data from `offset` on. -/
def Atom.Mirrors (data : Bytes) (offset : Nat) (a : Atom κ) : Prop :=
  ∀ order, serialize order a <+: data.drop offset

/-- An atom that was made stands for the bytes at its offset. -/
def Outcome.Mirrors (data : Bytes) (offset : Nat) (out : Outcome κ) : Prop :=
  out.error? = none → out.atom.Mirrors data offset

theorem Atom.Mirrors.ready {offset : Nat} {a : Atom κ} (h : a.Mirrors data offset) :
    a.ready.Mirrors data offset := by
  obtain ⟨info, content, parts⟩ := a
  cases content <;> exact h

/-- An atom of bytes without a tail. -/
theorem Atom.mirrors_of_content {offset : Nat} {a : Atom κ} (hbits : a.isBits = false)
    (htail : a.info.tail = []) (h : ∀ order, a.contentBytes order <+: data.drop offset) :
    a.Mirrors data offset := by
  intro order
  rw [serialize_of_bytes order hbits, htail, List.append_nil]
  exact h order

/-- An atom of bytes that gets as its tail what follows its content. -/
theorem Atom.mirrors_withTail {offset used : Nat} {a : Atom κ} (hbits : a.isBits = false)
    (h : ∀ order, a.contentBytes order <+: data.drop offset)
    (hused : ∀ order, (a.contentBytes order).length = used) {tail : Bytes}
    (htail : tail <+: data.drop (offset + used)) : (a.withTail tail).Mirrors data offset := by
  intro order
  have hsame : (a.withTail tail).contentBytes order = a.contentBytes order := by
    cases a
    rfl
  have hkind : (a.withTail tail).isBits = false := by
    cases a
    exact hbits
  rw [serialize_of_bytes order hkind, hsame, withTail, info_mapInfo]
  rw [← hused order] at htail
  exact prefix_append_drop (h order) htail

/-- The content of an atom of bytes comes before its tail. -/
theorem Atom.Mirrors.content {offset : Nat} {a : Atom κ} (h : a.Mirrors data offset)
    (hbits : a.isBits = false) (order : ByteOrder) : a.contentBytes order <+: data.drop offset := by
  have hall := h order
  rw [serialize_of_bytes order hbits] at hall
  exact (List.prefix_append _ _).trans hall

/-! ## Parts one after another -/

/-- The parts before the gap are loaded, there are none after it, and their bytes are those of the
data from the frame's offset to `cursor`. -/
structure Frame.Copying (data : Bytes) (f : Frame κ) (cursor : Nat) : Prop where
  content : f.content = .group
  right : f.right = []
  bits : f.info.layout.isBits = false
  tail : f.info.tail = []
  bytes : ∀ order, serializeAll order f.left.reverse <+: data.drop f.info.offset
  cursor : ∀ order, f.info.offset + (serializeAll order f.left.reverse).length = cursor

namespace Frame.Copying

variable {f : Frame κ} {cursor : Nat}

/-- A frame without parts. -/
theorem start {a : Atom κ} (hbits : a.isBits = false) (htail : a.info.tail = []) :
    (a.fill .group []).frame.Copying data a.info.offset :=
  ⟨rfl, rfl, hbits, htail, fun _ => List.nil_prefix, fun _ => rfl⟩

/-- One more part, loaded at the cursor. -/
theorem push (hf : f.Copying data cursor) {a : Atom κ} (ha : a.Mirrors data cursor)
    (hlaid : Everywhere LaidOut a) : (f.push a).Copying data (cursor + a.size) := by
  have hmore (order : ByteOrder) : serializeAll order (f.push a).left.reverse
      = serializeAll order f.left.reverse ++ serialize order a := by
    rw [Frame.push, List.reverse_cons, serializeAll_append, serializeAll, serializeAll,
      List.append_nil]
  refine ⟨hf.content, hf.right, hf.bits, hf.tail, fun order => ?_, fun order => ?_⟩
  · rw [hmore]
    have hnext := ha order
    rw [← hf.cursor order] at hnext
    exact prefix_append_drop (hf.bytes order) hnext
  · rw [hmore, List.length_append, length_serialize order a hlaid, ← Nat.add_assoc]
    exact congrArg (· + a.size) (hf.cursor order)

theorem contentBytes (hf : f.Copying data cursor) (order : ByteOrder) :
    f.close.contentBytes order = serializeAll order f.left.reverse := by
  rw [Atom.contentBytes, content_close, hf.content, parts_close, hf.right, List.append_nil]

theorem close (hf : f.Copying data cursor) : f.close.Mirrors data f.info.offset :=
  mirrors_of_content hf.bits hf.tail fun order => by
    rw [hf.contentBytes order]
    exact hf.bytes order

/-- A complete atom. -/
theorem mirrors (hf : f.Copying data cursor) :
    Outcome.Mirrors data f.info.offset ⟨f.close.ready, none⟩ :=
  fun _ => hf.close.ready

end Frame.Copying

section Load

variable {env : Env κ}

/-- What blank atoms of bytes are made into, under layouts whose bits are counted. -/
def MirrorsBytes (rules : Rules κ) (data : Bytes) (part : LoadPart (LoadM κ) κ) : Prop :=
  ∀ frames a layout, a.IsBlank → a.info.layout = .bytes layout → layout.BitsCounted rules →
    Reads data (part frames a) fun out => out.Mirrors data a.info.offset ∧ out.Laid a.info

/-- A new atom of bytes. -/
theorem Reads.spawn (name : String) (layout : AtomLayout κ) (offset : Nat) :
    Reads data (LoadM.ofLedger (LedgerM.spawn name layout offset)) fun a =>
      a.IsBlank ∧ a.info.layout = layout ∧ a.info.offset = offset :=
  Reads.ofLedger fun l => (Ends.spawn name layout offset l).mono fun _ _ h =>
    ⟨h.1, h.2.1, h.2.2.1⟩

/-- An emptied atom. -/
theorem Reads.clear (a : Atom κ) :
    Reads data (LoadM.ofLedger (LedgerM.clear a)) fun b => b.IsBlank ∧ b.info.site = a.info.site :=
  Reads.ofLedger fun l => (Ends.clear a l).mono fun _ _ h => ⟨h.1, h.2.site⟩

/-- What loading a part gives to the frame that it is put into. -/
theorem Frame.Copying.pushed {f : Frame κ} {cursor next : Nat} (hf : f.Copying data cursor)
    {out : Outcome κ} {blank : Atom κ}
    (h : out.Mirrors data blank.info.offset ∧ out.Laid blank.info) (herror : out.error? = none)
    (hoffset : blank.info.offset = cursor) (hspan : spanEnd cursor out.atom.size = .ok next) :
    (f.push out.atom).Copying data next := by
  have hmirrors := h.1 herror
  rw [hoffset] at hmirrors
  rw [(spanEnd_eq hspan).1]
  exact hf.push hmirrors (h.2 herror).1

/-! ## Atoms without parts -/

theorem mirrors_loadLeaf {layout : Layout κ} (frames : List (Frame κ)) {a : Atom κ}
    (hbits : a.isBits = false) (htail : a.info.tail = []) :
    Reads data (loadLeaf env layout frames a) fun out => out.Mirrors data a.info.offset := by
  rw [loadLeaf]
  refine (LoadM.reads_readLeaf env.config frames layout a.info.offset).bind fun result hraw => ?_
  split
  · exact Reads.pure fun h => by cases h
  · rename_i raw
    have hdone : Outcome.Mirrors data a.info.offset ⟨(((a.mapInfo fun info =>
        { info with undecodable := layout.isUndecodable raw }).withBytes layout raw)).ready, none⟩ := by
      refine fun _ => Mirrors.ready ?_
      obtain ⟨info, content, parts⟩ := a
      refine mirrors_of_content ?_ ?_ fun order => ?_
      · rw [withBytes_eq]
        exact hbits
      · rw [withBytes_eq]
        exact htail
      · rw [withBytes_eq, contentBytes, content_fill]
        cases layout <;> exact hraw raw rfl
    dsimp only
    split
    · exact (Reads.ofLedger_trivial _).bind fun _ _ => Reads.pure hdone
    · exact Reads.pure hdone

/-! ## Arrays -/

variable {part : LoadPart (LoadM κ) κ}

theorem mirrors_loadCounted (hpart : MirrorsBytes env.rules data part) {element : Layout κ}
    (helement : element.BitsCounted env.rules) (frames : List (Frame κ)) (count : Nat) {f : Frame κ}
    {cursor : Nat} (hf : f.Copying data cursor) (index : Nat) :
    Reads data (loadCounted part element frames count f index cursor) fun out =>
      out.Mirrors data f.info.offset := by
  induction count generalizing f index cursor with
  | zero => exact Reads.pure hf.mirrors
  | succ count ih =>
    rw [loadCounted]
    refine (Reads.spawn (toString index) (.bytes element) cursor).bind fun blank hblank => ?_
    obtain ⟨hempty, hlayout, hoffset⟩ := hblank
    refine (hpart _ _ _ hempty hlayout helement).bind fun out hout => ?_
    dsimp only
    split
    · exact Reads.pure fun h => by cases h
    · rename_i herror
      split
      · exact Reads.pure fun h => by cases h
      · rename_i hspan
        exact ih (hf.pushed hout herror hoffset hspan) _

theorem copying_loadBlockElements (hpart : MirrorsBytes env.rules data part) {element : Layout κ}
    (helement : element.BitsCounted env.rules) (limit : Nat) (frames : List (Frame κ)) (fuel : Nat)
    {f : Frame κ} {cursor : Nat} (hf : f.Copying data cursor) (index : Nat) :
    Reads data (loadBlockElements part element limit frames fuel f index cursor) fun out =>
      out.error? = none → ∃ g : Frame κ, out.atom = g.close ∧ g.info = f.info
        ∧ g.Copying data out.cursor := by
  induction fuel generalizing f index cursor with
  | zero => exact Reads.pure fun _ => ⟨f, rfl, rfl, hf⟩
  | succ fuel ih =>
    rw [loadBlockElements]
    split
    · exact Reads.pure fun _ => ⟨f, rfl, rfl, hf⟩
    · split
      · exact Reads.pure fun _ => ⟨f, rfl, rfl, hf⟩
      · rename_i layout hnext
        refine (Reads.spawn (toString index) (.bytes layout) cursor).bind fun blank hblank => ?_
        obtain ⟨hempty, hlayout, hoffset⟩ := hblank
        have hwindow := (hpart (f :: frames) _ _ hempty hlayout (helement.nextInBlock hnext)).inWindow
          limit
        refine hwindow.bind fun out hout => ?_
        split
        · split
          · exact (Reads.ofLedger_trivial _).bind fun _ _ => Reads.pure fun _ => ⟨f, rfl, rfl, hf⟩
          · exact Reads.pure fun h => by cases h
        · rename_i herror
          dsimp only
          split
          · rename_i hzero
            have hmirrors := hout.1 herror
            rw [hoffset] at hmirrors
            have hnew := hf.push hmirrors (hout.2 herror).1
            rw [hzero, Nat.add_zero] at hnew
            exact Reads.pure fun _ => ⟨_, rfl, rfl, hnew⟩
          · split
            · exact Reads.pure fun h => by cases h
            · rename_i hspan
              exact ih (hf.pushed hout herror hoffset hspan) _

theorem mirrors_loadBlock (hpart : MirrorsBytes env.rules data part) {element : Layout κ}
    (helement : element.BitsCounted env.rules) (extent : Nat) (frames : List (Frame κ)) {a : Atom κ}
    (ha : a.frame.Copying data a.info.offset) :
    Reads data (loadBlock part element extent frames a) fun out =>
      out.Mirrors data a.info.offset := by
  rw [loadBlock]
  split
  · exact Reads.pure fun h => by cases h
  · refine (copying_loadBlockElements hpart helement _ frames extent ha 0).bind fun out hout => ?_
    split
    · exact Reads.pure fun h => by cases h
    · rename_i herror
      obtain ⟨g, hatom, hinfo, hg⟩ := hout herror
      have hoffset : g.info.offset = a.info.offset := congrArg Info.offset hinfo
      rw [← hoffset, hatom]
      split
      · exact Reads.pure hg.mirrors
      · refine (LoadM.reads_readAt _ _).bind fun result htail => ?_
        split
        · exact Reads.pure fun h => by cases h
        · rename_i tail
          have hrest := htail tail rfl
          have hused (order : ByteOrder) :
              (g.close.contentBytes order).length = out.cursor - g.info.offset := by
            rw [hg.contentBytes order, ← hg.cursor order, Nat.add_sub_cancel_left]
          have hcursor : g.info.offset + (out.cursor - g.info.offset) = out.cursor := by
            rw [← hused .big, hg.contentBytes .big, hg.cursor .big]
          rw [← hcursor] at hrest
          have hwhole := mirrors_withTail (a := g.close) hg.bits (hg.close.content hg.bits) hused hrest
          exact (Reads.ofLedger_trivial _).bind fun _ _ => Reads.pure fun _ => hwhole.ready

theorem mirrors_loadOpen (hpart : MirrorsBytes env.rules data part) {element : Layout κ}
    (helement : element.BitsCounted env.rules) (rule? : Option κ) (frames : List (Frame κ))
    (budget : Nat) {f : Frame κ} {cursor : Nat} (hf : f.Copying data cursor) (index : Nat) :
    Reads data (loadOpen env part element rule? frames budget f index cursor) fun out =>
      out.Mirrors data f.info.offset := by
  induction budget generalizing f index cursor with
  | zero => exact Reads.pure fun h => by cases h
  | succ budget ih =>
    rw [loadOpen]
    refine Reads.viewEnd.bind fun viewEnd? _ => ?_
    split
    · exact Reads.pure hf.mirrors
    · refine (Reads.spawn (toString index) (.bytes element) cursor).bind fun blank hblank => ?_
      obtain ⟨hempty, hlayout, hoffset⟩ := hblank
      refine (hpart _ _ _ hempty hlayout helement).bind fun out hout => ?_
      split
      · split
        · exact Reads.pure fun h => by cases h
        · refine (Reads.ofLedger_trivial _).bind fun _ _ => ?_
          split
          · exact Reads.pure hf.mirrors
          · refine Reads.viewEnd.bind fun viewEnd? _ => ?_
            split
            · exact (Reads.ofLedger_trivial _).bind fun _ _ => Reads.pure hf.mirrors
            · exact Reads.pure fun h => by cases h
      · rename_i herror
        split
        · exact Reads.pure fun h => by cases h
        · rename_i hspan
          have hnew := hf.pushed hout herror hoffset hspan
          split
          · exact Reads.pure hnew.mirrors
          · exact ih hnew _

/-! ## Records and unions -/

theorem mirrors_loadSized (hpart : MirrorsBytes env.rules data part) (frames : List (Frame κ))
    {a : Atom κ} (ha : a.IsBlank) {layout : Layout κ} (hlayout : a.info.layout = .bytes layout)
    (hcounted : layout.BitsCounted env.rules) (extent : Nat) :
    Reads data (loadSized part frames a extent) fun out => out.Mirrors data a.info.offset := by
  let sized := a.mapInfo fun info => { info with extent? := some extent }
  have hinfo : sized.info.site = a.info.site ∧ sized.info.offset = a.info.offset := by
    cases a
    exact ⟨rfl, rfl⟩
  have hsame : sized.info.layout = .bytes layout := (Info.layout_of_site hinfo.1).trans hlayout
  have hsized : sized.IsBlank := by
    rw [isBlank_iff] at ha ⊢
    simpa [sized] using ha
  rw [loadSized]
  dsimp only
  split
  · exact Reads.pure fun h => by cases h
  · rename_i limit _
    refine ((hpart frames sized layout hsized hsame hcounted).inWindow limit).bind fun out hout => ?_
    rw [hinfo.2] at hout
    split
    · exact Reads.pure hout.1
    · rename_i hshort
      rw [not_or] at hshort
      have herror : out.error? = none := by simpa using hshort.1
      obtain ⟨hlaid, hsite⟩ := hout.2 herror
      have hbits : out.atom.isBits = false := by
        rw [isBits_of_site hsite, isBits, hsame]
        rfl
      have hused (order : ByteOrder) :
          (out.atom.contentBytes order).length = out.atom.contentSize :=
        length_contentBytes hlaid.here hbits
          (length_serializeAll order _ (everywhereIn_iff.2 fun _ => hlaid.part))
      refine (LoadM.reads_readAt _ _).bind fun result htail => ?_
      split
      · exact Reads.pure fun h => by cases h
      · rename_i tail
        rw [hinfo.2] at htail
        exact Reads.pure fun _ =>
          mirrors_withTail hbits ((hout.1 herror).content hbits) hused (htail tail rfl)

theorem mirrors_loadFields (hpart : MirrorsBytes env.rules data part) (hmakes : Making LoadState.ledger part)
    (frames : List (Frame κ)) {f : Frame κ} {cursor : Nat} (hf : f.Copying data cursor) (index : Nat)
    (fields : List (Field κ (Layout κ)))
    (hfields : ∀ field ∈ fields, ∀ layout, field.layout.Offers env.rules.layout layout →
      layout.BitsCounted env.rules) :
    Reads data (loadFields env part frames f index cursor fields) fun out =>
      out.Mirrors data f.info.offset := by
  induction fields generalizing f index cursor with
  | nil => exact Reads.pure hf.mirrors
  | cons field fields ih =>
    rw [List.forall_mem_cons] at hfields
    rw [loadFields]
    split
    · exact Reads.pure fun h => by cases h
    · rename_i layout hresolve
      have hcounted := hfields.1 layout (Env.offers_of_resolve hresolve)
      refine (Reads.spawn field.name (.bytes layout) cursor).bind fun blank hblank => ?_
      obtain ⟨hempty, hlayout, hoffset⟩ := hblank
      have hfield : Reads data (loadField env part frames f index field.extent? blank) fun out =>
          out.Mirrors data blank.info.offset ∧ out.Laid blank.info := by
        cases field.extent? with
        | none => exact hpart _ _ _ hempty hlayout hcounted
        | some rule =>
          rw [loadField]
          split
          · exact Reads.pure ⟨(fun h => by cases h), fun h => by cases h⟩
          · rename_i extent _
            exact (mirrors_loadSized hpart _ hempty hlayout hcounted extent).andEnds
              fun s => (makes_loadSized hmakes _ hempty (by rw [isBits, hlayout]; rfl) extent s).mono
                fun _ _ h => (h.inOrder hempty).complete
      refine hfield.bind fun out hout => ?_
      dsimp only
      split
      · exact Reads.pure fun h => by cases h
      · rename_i herror
        split
        · exact Reads.pure fun h => by cases h
        · rename_i hspan
          exact ih (hf.pushed hout herror hoffset hspan) _ hfields.2

/-- Members do not matter to the bytes of a union. -/
theorem mirrors_loadMembers {backing : Bytes} (frames : List (Frame κ)) {f : Frame κ}
    (hcontent : f.content = .overlay backing) (hbits : f.info.layout.isBits = false)
    (htail : f.info.tail = []) (hbacking : backing <+: data.drop f.info.offset)
    (members : List (String × Layout κ)) :
    Reads data (loadMembers part backing frames f members) fun out =>
      out.Mirrors data f.info.offset := by
  induction members generalizing f with
  | nil =>
    have hclose : f.close.Mirrors data f.info.offset :=
      mirrors_of_content hbits htail fun order => by
        rw [contentBytes, Frame.content_close, hcontent]
        exact hbacking
    exact Reads.pure fun _ => hclose.ready
  | cons member members ih =>
    obtain ⟨name, layout⟩ := member
    rw [loadMembers]
    refine (Reads.ofLedger_trivial _).bind fun blank _ => ?_
    refine (Reads.ofLedger_trivial _).bind fun out _ => ?_
    dsimp only
    split
    · exact Reads.pure fun h => by cases h
    · exact ih (f := f.push out.atom) hcontent hbits htail hbacking

theorem mirrors_loadUnion (members : List (String × Layout κ)) (size : Nat)
    (frames : List (Frame κ)) {a : Atom κ} (hbits : a.isBits = false) (htail : a.info.tail = []) :
    Reads data (loadUnion part members size frames a) fun out =>
      out.Mirrors data a.info.offset := by
  rw [loadUnion]
  refine (LoadM.reads_readAt _ _).bind fun result hbacking => ?_
  split
  · exact Reads.pure fun h => by cases h
  · rename_i backing
    exact mirrors_loadMembers (f := (a.fill (.overlay backing) []).frame) frames rfl hbits htail
      (hbacking backing rfl) members

/-! ## Hosts of bits -/

theorem contentBytes_hostedBits {a root : Atom κ} {layout : BitLayout κ} {order : ByteOrder}
    (hlayout : a.info.layout = .bytes (.bits layout order)) (pad : Bitmap) (standard : ByteOrder) :
    (hostedBits a root pad).contentBytes standard =
      BitStream.pack order (BitStream.close order (root.stream order) pad) := by
  rw [hostedBits, contentBytes, content_fill, info_fill, hlayout, parts_fill]
  show BitStream.pack order (BitStream.close order (root.stream order ++ []) pad) = _
  rw [List.append_nil]

theorem mirrors_hostedBits {a root : Atom κ} {layout : BitLayout κ} {order : ByteOrder}
    (hlayout : a.info.layout = .bytes (.bits layout order)) (htail : a.info.tail = []) {pad : Bitmap}
    (h : BitStream.pack order (BitStream.close order (root.stream order) pad)
      <+: data.drop a.info.offset) :
    Outcome.Mirrors data a.info.offset ⟨(hostedBits a root pad).ready, none⟩ := by
  have hbits : (hostedBits a root pad).isBits = false := by
    rw [isBits, hostedBits, info_fill, hlayout]
    rfl
  refine fun _ => Mirrors.ready (mirrors_of_content hbits htail fun standard => ?_)
  rw [contentBytes_hostedBits hlayout]
  exact h

theorem mirrors_loadRoot (depth : Nat) {layout : BitLayout κ} {order : ByteOrder}
    (frames : List (Frame κ)) {a root : Atom κ} (ha : a.info.layout = .bytes (.bits layout order))
    (htail : a.info.tail = []) (hroot : root.info.layout = .bits layout)
    (hcounted : layout.Counted env.rules) :
    Reads data (loadRoot env depth order frames a root) fun out =>
      out.Mirrors data a.info.offset := by
  intro s hs
  rw [loadRoot]
  refine (LoadM.shows_seekTo a.info.offset 1 hs).bind fun result t ht => ?_
  split
  · exact Ends.pure ⟨ht.1, fun h => by cases h⟩
  · have hstart : BitLoadState.Follows data order a.info.offset []
        ⟨t, .new order, a.info.offset⟩ :=
      ⟨ht.1, rfl, by simp, [], List.nil_prefix, ht.2 rfl, by simp⟩
    have hread : Ends (BitLoadM.run order a.info.offset
        (loadBits env depth ((a.fill (.host .empty) []).frame :: frames) root)) t
        fun result u => u.Shows data ∧ (result.1.error? = none →
          BitStream.pack order (BitStream.close order (result.1.atom.stream order) result.2)
            <+: data.drop a.info.offset) := by
      have hrun := follows_loadBits env data order a.info.offset depth
        ((a.fill (.host .empty) []).frame :: frames) root layout [] _ hroot hcounted hstart
      exact ⟨hrun.1, fun herror => (hrun.2 herror).pack_close⟩
    refine hread.bind fun result u hu => ?_
    obtain ⟨out, pad⟩ := result
    dsimp only
    split
    · exact Ends.pure ⟨hu.1, fun h => by cases h⟩
    · rename_i herror
      exact Ends.pure ⟨hu.1, mirrors_hostedBits ha htail (hu.2 herror)⟩

/-- A host whose root is known to have no bits reads nothing. -/
theorem mirrors_loadHost (depth : Nat) {layout : BitLayout κ} {order : ByteOrder}
    (frames : List (Frame κ)) {a : Atom κ} (ha : a.info.layout = .bytes (.bits layout order))
    (htail : a.info.tail = []) (hcounted : layout.Counted env.rules) :
    Reads data (loadHost env depth layout order frames a) fun out =>
      out.Mirrors data a.info.offset := by
  rw [loadHost]
  split
  · exact Reads.pure fun h => by cases h
  · rename_i position _
    refine (Reads.spawn "" (.bits layout) position).bind fun root hroot => ?_
    obtain ⟨-, hlayout, -⟩ := hroot
    split
    · rename_i hzero
      refine (Reads.ofLedger (keepsWidth_allocateBits env depth _ root layout 0 · hlayout hzero)).bind
        fun out hout => ?_
      split
      · exact Reads.pure fun h => by cases h
      · rename_i herror
        refine Reads.pure (mirrors_hostedBits ha htail ?_)
        have hnil : out.atom.stream order = [] :=
          List.eq_nil_of_length_eq_zero ((length_stream order out.atom).trans (hout herror))
        rw [hnil]
        exact List.nil_prefix
    · exact mirrors_loadRoot depth frames ha htail hlayout hcounted

/-! ## Loading -/

/-- An atom of bytes that was loaded stands for the bytes at its offset, whatever it held before. -/
theorem mirrors_load (env : Env κ) (data : Bytes) (depth : Nat) (frames : List (Frame κ))
    {a : Atom κ} {layout : Layout κ} (hlayout : a.info.layout = .bytes layout)
    (hcounted : layout.BitsCounted env.rules) :
    Reads data (load env depth frames a) fun out => out.Mirrors data a.info.offset := by
  induction depth generalizing frames a layout with
  | zero => exact Reads.pure nofun
  | succ depth ih =>
    have hpart : MirrorsBytes env.rules data (load env depth) := fun frames a layout _ h hcounted =>
      (ih frames h hcounted).andEnds (laid_load env depth frames a)
    rw [load, hlayout]
    refine (Reads.clear a).bind fun b hb => ?_
    obtain ⟨hblank, hsite⟩ := hb
    have hsame : b.info.layout = .bytes layout := (Info.layout_of_site hsite).trans hlayout
    have hbits : b.isBits = false := by rw [isBits, hsame]; rfl
    have hstart : (b.fill .group []).frame.Copying data b.info.offset :=
      Frame.Copying.start hbits hblank.tail
    rw [← Info.offset_of_site hsite]
    cases layout
    case record name fields =>
      exact mirrors_loadFields hpart (making_load env depth) frames hstart 0 fields
        (Layout.bitsCounted_record.1 hcounted)
    case array element shape =>
      have helement := Layout.bitsCounted_array.1 hcounted
      cases shape with
      | counted count => exact mirrors_loadCounted hpart helement frames count hstart 0
      | block extent => exact mirrors_loadBlock hpart helement extent frames hstart
      | terminated rule => exact mirrors_loadOpen hpart helement _ frames _ hstart 0
      | unending => exact mirrors_loadOpen hpart helement _ frames _ hstart 0
    case union name members size => exact mirrors_loadUnion members size frames hbits hblank.tail
    case bits root order => exact mirrors_loadHost depth frames hsame hblank.tail (Layout.bitsCounted_bits.1 hcounted)
    all_goals exact mirrors_loadLeaf frames hbits hblank.tail

/-- What is loaded from bytes that were taken out of their source begins these bytes. -/
theorem mirrors_fromBytes (env : Env κ) (depth : Nat) (frames : List (Frame κ)) {a : Atom κ}
    {layout : Layout κ} (hlayout : a.info.layout = .bytes layout) (hcounted : layout.BitsCounted env.rules)
    (bytes : Bytes) (l : Ledger κ) :
    Ends (LedgerM.fromBytes bytes a.info.offset (load env depth frames a)) l fun out _ =>
      out.error? = none → ∀ order, serialize order out.atom <+: bytes := by
  -- The bytes stand at the offset of the atom in some data.
  have hdrop : (List.replicate a.info.offset 0 ++ bytes).drop a.info.offset = bytes :=
    List.drop_left' List.length_replicate
  have hshows : LoadState.Shows (List.replicate a.info.offset 0 ++ bytes)
      ⟨l, [], .ofBytes bytes a.info.offset⟩ := by
    show bytes <+: _
    exact hdrop.symm ▸ List.prefix_refl bytes
  intro hok order
  have hmirrors := (mirrors_load env _ depth frames hlayout hcounted _ hshows).2 hok order
  rwa [hdrop] at hmirrors

end Load

/-! ## Outermost atoms -/

namespace Document

variable {d : Document κ}

/-- An outermost atom that was loaded from bytes in memory is written back as these bytes, from its
offset on and as many as its size. -/
theorem serialize_loadNew {t : Document κ} {data : Array UInt8} {writable : Bool} {cursor : Nat}
    (hsource : d.sources.source? d.source = some (.memory data writable cursor)) {layout : Layout κ}
    (hcounted : layout.BitsCounted d.env.rules) {name : String} {offset id : Nat}
    (hrun : (loadNew layout name offset).run d = (.ok id, t)) :
    ∃ p, t.find? id = some p ∧ p.frames = [] ∧ p.atom.info.layout = .bytes layout
      ∧ p.atom.info.offset = offset ∧ ∀ order, (p.serialize order).length = p.atom.size
        ∧ p.serialize order = (data.extract offset (offset + p.atom.size)).toList := by
  obtain ⟨out, s, others, hload, herror, rfl, hroots, -⟩ :=
    (yields_loadNew_next d layout name offset).of_ok hrun
  have hlaid := laid_load d.env Layout.nestingLimit [] (d.next layout name offset) d.loadingNext
  have hmirrors := (mirrors_load d.env data.toList Layout.nestingLimit []
    (a := d.next layout name offset) rfl hcounted d.loadingNext ⟨writable, cursor, hsource⟩).2
  rw [Ends, hload] at hlaid
  rw [hload] at hmirrors
  obtain ⟨hwhole, hsite⟩ := hlaid herror
  refine ⟨⟨out.atom, []⟩, find?_of_roots hroots, rfl, Info.layout_of_site hsite,
    Info.offset_of_site hsite, fun order => ?_⟩
  have hlength := length_serialize (Place.bitOrder ⟨out.atom, []⟩ order) out.atom hwhole
  refine ⟨hlength, ?_⟩
  have hprefix := hmirrors herror (Place.bitOrder ⟨out.atom, []⟩ order)
  rw [List.prefix_iff_eq_take, hlength] at hprefix
  rw [Array.toList_extract, List.extract_eq_take_drop, Nat.add_sub_cancel_left]
  exact hprefix

/-- A host with three unused bits, and an array that leaves a byte over. -/
theorem serialize_loadNew_of_leftover :
    let d : Document Empty :=
      { env := ⟨{}, ⟨nofun, nofun, nofun, nofun, nofun, nofun, nofun, nofun⟩⟩
        sources := [.memory #[1, 0xA7, 2, 3, 4, 5, 6, 7] false 0]
        source := 0 }
    let pair : Layout Empty := .record "pair" [⟨"a", .given (.block 1), none, none⟩,
      ⟨"b", .given (.block 1), none, none⟩]
    let layout : Layout Empty := .record "r" [⟨"flags", .given (.bits (.int 5 false) .big), none, none⟩,
      ⟨"pairs", .given (.array pair (.block 5)), none, none⟩]
    let run := (loadNew layout "x" 1).run d
    layout.BitsCounted d.env.rules ∧ run.1.toOption = some 0 ∧ ∃ p, run.2.find? 0 = some p
      ∧ ∀ order, p.serialize order = [0xA7, 2, 3, 4, 5, 6] := by
  intro d pair layout run
  have hpair : pair.BitsCounted d.env.rules := by
    refine Layout.bitsCounted_record.2 ?_
    simp only [List.forall_mem_cons, List.not_mem_nil, Choice.Offers, forall_eq]
    exact ⟨Layout.bitsCounted_block 1, Layout.bitsCounted_block 1, nofun⟩
  have hcounted : layout.BitsCounted d.env.rules := by
    refine Layout.bitsCounted_record.2 ?_
    simp only [List.forall_mem_cons, List.not_mem_nil, Choice.Offers, forall_eq]
    exact ⟨Layout.bitsCounted_bits.2 (BitLayout.counted_int 5 false),
      Layout.bitsCounted_array.2 hpair, nofun⟩
  have hsource : d.sources.source? d.source
      = some (.memory #[1, 0xA7, 2, 3, 4, 5, 6, 7] false 0) := rfl
  have hok : run.1.toOption = some 0 := by decide +kernel
  have hrun : (loadNew layout "x" 1).run d = (.ok 0, run.2) := run_of_toOption hok
  obtain ⟨p, hfind, -, -, -, hp⟩ := serialize_loadNew hsource hcounted hrun
  have hsize : (run.2.find? 0).map (fun p => p.atom.size) = some 6 := by decide +kernel
  have hsix : p.atom.size = 6 := by
    rw [hfind] at hsize
    exact Option.some.inj hsize
  have hbytes (order : ByteOrder) : p.serialize order = [0xA7, 2, 3, 4, 5, 6] := by
    rw [(hp order).2, hsix]
    rfl
  exact ⟨hcounted, hok, p, hfind, hbytes⟩

end Document

end BinaryLayout
