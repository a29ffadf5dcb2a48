import BinaryLayout.Proofs.Ending.Load
import BinaryLayout.Proofs.Extent.Load

/-!
# Extents of default content

Default content is made without a window, so how many bytes it takes has to be known from the layout:
the elements of a new block array are as many as fit, which is found from their size beforehand, and
default content has the size that is known of its layout. A field of a forced extent is filled up, or
cut, to its extent after it was made.

## Main definitions

* `Outcome.Defaults`: default content that keeps to its extents and has the size known beforehand.

## Main statements

* `Atom.honours_forceExtent`: an extent that is forced on a field.
* `length_defaultBytes`: the bytes of a new atom without parts.
* `honours_allocate`: default content for an atom of bytes.
-/

namespace BinaryLayout

variable {κ : Type}

open Atom

/-! ## Forced extents -/

theorem Atom.contentSize_forceExtent (config : Config) (extent : Nat) (a : Atom κ) :
    (a.forceExtent config extent).contentSize = a.contentSize := by
  obtain ⟨info, content, parts⟩ := a
  cases content <;> simp [forceExtent, mapInfo, contentSize, bitCount]

/-- A content that fits into a forced extent is filled up to it. -/
theorem Atom.size_forceExtent {config : Config} {extent : Nat} {a : Atom κ}
    (h : a.contentSize ≤ extent) : (a.forceExtent config extent).size = extent := by
  rw [size, contentSize_forceExtent, forceExtent, info_mapInfo]
  simp only [List.length_append, List.length_take, List.length_replicate]
  omega

/-- An atom on which an extent is forced keeps to it. -/
theorem Atom.honours_forceExtent {a : Atom κ} (hparts : ∀ part ∈ a.parts, Everywhere Honours part)
    (hruled : ∀ i part, a.parts[i]? = some part → part.isBits = false → part.info.extent? ≠ none →
      a.content = .group ∧ a.info.layout.Forces i) (config : Config) (extent : Nat) :
    Everywhere Honours (a.forceExtent config extent) := by
  have hextent : (a.forceExtent config extent).info.extent? = some extent := by
    rw [forceExtent, info_mapInfo]
  have hsame : (a.forceExtent config extent).parts = a.parts := by rw [forceExtent, parts_mapInfo]
  have hlayout : (a.forceExtent config extent).info.layout = a.info.layout := by
    rw [forceExtent, info_mapInfo]
  have hcontent : (a.forceExtent config extent).content = a.content := by
    rw [forceExtent, content_mapInfo]
  refine everywhere_iff.2 ⟨⟨fun _ other hother hfits => ?_, fun _ _ hnone => ?_, ?_⟩, ?_⟩
  · rw [hextent] at hother
    cases hother
    rw [contentSize_forceExtent] at hfits
    exact size_forceExtent hfits
  · rw [hextent] at hnone
    cases hnone
  · rw [hsame, hlayout, hcontent]
    exact hruled
  · rw [hsame]
    exact hparts

/-! ## Atoms without parts -/

/-- The bytes of a new atom without parts are as many as its layout is known to have. -/
theorem length_defaultBytes {config : Config} {frames : List (Frame κ)} {layout : Layout κ}
    {offset : Nat} {raw : Bytes} (h : layout.defaultBytes config frames offset = .ok raw) {size : Nat}
    (hsize : layout.staticSize = some size) : raw.length = size := by
  cases layout
  case text format =>
    rw [Layout.staticSize, TextFormat.staticSize] at hsize
    rw [Layout.defaultBytes, TextFormat.defaultBytes] at h
    split at hsize
    · rename_i count hcount
      rw [hcount] at h
      dsimp only at h
      cases hunits : unitBytes count format.encoding.unit with
      | error e =>
        rw [hunits] at h
        cases h
      | ok amount =>
        rw [hunits] at h
        cases h
        rw [word?_of_unitBytes hunits, Option.some.injEq] at hsize
        rw [List.length_replicate, hsize]
    · cases hsize
  case varint signed => cases hsize
  case align alignment => cases hsize
  case record | array | union | bits => cases h
  case constant bytes =>
    cases h
    cases hsize
    rfl
  all_goals
    cases h
    cases hsize
    exact List.length_replicate

/-- What default content was made of an atom with this info: it keeps to its extents, and it has the
size that is known beforehand. -/
def Outcome.Defaults (info : Info κ) (known? : Option Nat) (out : Outcome κ) : Prop :=
  out.error? = none → out.atom.Made info ∧ ∀ size, known? = some size → out.atom.size = size

theorem Outcome.Defaults.failed {info : Info κ} {known? : Option Nat} (a : Atom κ) (e : Error) :
    Outcome.Defaults info known? ⟨a, some e⟩ := by
  intro h
  cases h

/-- What blank atoms of bytes are made into. -/
def DefaultsBytes (part : LoadPart (LedgerM κ) κ) : Prop :=
  ∀ frames a layout l, a.IsBlank → a.info.layout = .bytes layout →
    Ends (part frames a) l fun out _ => out.Defaults a.info layout.staticSize

section Allocate

variable {env : Env κ}

theorem honours_allocateLeaf {layout : Layout κ} (frames : List (Frame κ)) {a : Atom κ}
    (hbits : a.isBits = false) (htail : a.info.tail = [])
    (hblock : ∀ extent, ¬ IsBlockArray extent a.info.layout) :
    (allocateLeaf env layout frames a).Defaults a.info layout.staticSize := by
  rw [allocateLeaf]
  split
  · exact .failed _ _
  · rename_i raw hraw
    have hsize : ((a.withBytes layout raw).ready).size = raw.length := by
      obtain ⟨info, content, parts⟩ := a
      exact size_withBytes (a := .node info content parts) hbits htail layout raw info.undecodable
    refine fun _ => ⟨(Made.of_nil ?_ ?_ (fun extent h => absurd h (hblock extent)) ?_).ready,
      fun size hstatic => ?_⟩
    · rw [withBytes_eq, info_fill]
    · rw [withBytes_eq, info_fill]
    · rw [withBytes_eq, parts_fill]
    · exact hsize.trans (length_defaultBytes hraw hstatic)

/-! ## Parts one after another -/

variable {part : LoadPart (LedgerM κ) κ}

theorem Frame.Filling.defaults {f : Frame κ} {cursor : Nat} (hf : f.Filling cursor)
    (hblock : ∀ extent, ¬ IsBlockArray extent f.info.layout) {known? : Option Nat}
    (hknown : ∀ size, known? = some size → f.info.offset + size = cursor) :
    Outcome.Defaults f.info known? ⟨f.close.ready, none⟩ := by
  refine fun _ => ⟨(hf.made fun extent h => absurd h (hblock extent)).ready, fun size hsize => ?_⟩
  have hclosed := hf.spanning.size
  have hcursor := hknown size hsize
  rw [size_ready]
  omega

theorem honours_allocateFields (hpart : DefaultsBytes part) (frames : List (Frame κ)) {f : Frame κ}
    {place : Nat} {name : String} {all : List (Field κ (Layout κ))}
    (hlayout : f.info.layout = .bytes (.record name all)) (index cursor total : Nat)
    (fields : List (Field κ (Layout κ))) (hfields : fields = all.drop f.left.length)
    (hf : f.Filling place) {known? : Option Nat} (hknown : ∀ size, known? = some size →
      f.info.offset + total = place ∧ staticSizeOfFields total fields = some size) (l : Ledger κ) :
    Ends (allocateFields env part frames f index cursor fields) l fun out _ =>
      out.Defaults f.info known? := by
  induction fields generalizing f index cursor place total l with
  | nil =>
    refine Ends.pure (hf.defaults (fun extent h => ?_) fun size hsize => ?_)
    · obtain ⟨element, harray⟩ := h
      rw [hlayout] at harray
      cases harray
    · obtain ⟨hplace, htotal⟩ := hknown size hsize
      cases htotal
      exact hplace
  | cons field fields ih =>
    have hhere : all[f.left.length]? = some field := by
      rw [← List.head?_drop, ← hfields]
      rfl
    have hrest : fields = all.drop (f.left.length + 1) := by
      rw [← List.tail_drop, ← hfields]
      rfl
    rw [allocateFields]
    split
    · exact Ends.pure (.failed _ _)
    · rename_i layout hresolve
      have hspawn : Ends (LedgerM.spawn field.name (.bytes layout) cursor) l fun blank _ =>
          blank.IsBlank ∧ blank.info.layout = .bytes layout ∧ blank.info.extent? = none :=
        ⟨isBlank_blank _ _ _ _, rfl, rfl⟩
      refine hspawn.bind fun blank m hblank => ?_
      obtain ⟨hempty, hsame, hnone⟩ := hblank
      refine (hpart _ _ layout m hempty hsame).bind fun out n hout => ?_
      split
      · exact Ends.pure (.failed _ _)
      · rename_i herror hextent
        obtain ⟨hmade, hsize⟩ := hout herror
        have hpush := hf.push (hmade.honours hnone) fun h => absurd (hmade.extent.trans hnone) h
        refine ih (f := f.push out.atom) hlayout _ _ (total + out.atom.size) hrest hpush
          (fun size hstatic => ?_) _
        obtain ⟨hplace, htotal⟩ := hknown size hstatic
        obtain ⟨given, each, hgiven, heach, hmore⟩ := staticSizeOfFields_cons htotal
        rw [hgiven] at hresolve
        cases hresolve
        rw [hsize each heach]
        exact ⟨by rw [← hplace, Nat.add_assoc]; rfl, hmore⟩
      · rename_i rule herror hextent
        split
        · exact Ends.pure (.failed _ _)
        · rename_i extent _
          obtain ⟨hmade, -⟩ := hout herror
          have hforced : field.extent? ≠ none := by
            rw [hextent]
            intro h
            cases h
          have hsized := honours_forceExtent (a := out.atom) hmade.parts
            (by rw [hmade.layout]; exact hmade.ruled) env.config extent
          have hpush := hf.push hsized fun _ => ⟨name, all, field, hlayout, hhere, hforced⟩
          -- A record with such a field has no size beforehand.
          refine ih (f := f.push _) hlayout _ _ 0 hrest hpush (fun size hstatic => ?_) _
          obtain ⟨-, htotal⟩ := hknown size hstatic
          obtain ⟨_, given | _, _, _⟩ := field
          · cases hextent
            rw [staticSizeOfFields] at htotal
            cases htotal
          · rw [staticSizeOfFields] at htotal
            cases htotal

/-- Elements, and where the last of them ends if their size is known beforehand. -/
theorem honours_allocateElements (hpart : DefaultsBytes part) (element : Layout κ)
    (frames : List (Frame κ)) (count : Nat) {f : Frame κ} {place : Nat} (hf : f.Filling place)
    (index cursor : Nat) (l : Ledger κ) :
    Ends (allocateElements part element frames count f index cursor) l fun out _ =>
      out.error? = none → ∃ (g : Frame κ) (stop : Nat), out.atom = g.close.ready ∧ g.info = f.info
        ∧ g.Filling stop ∧ (count = 0 → stop = place)
        ∧ ∀ each, element.staticSize = some each → stop = place + each * count := by
  induction count generalizing f index cursor place l with
  | zero => exact Ends.pure fun _ => ⟨f, place, rfl, rfl, hf, fun _ => rfl, fun _ _ => rfl⟩
  | succ count ih =>
    rw [allocateElements]
    have hspawn : Ends (LedgerM.spawn (toString index) (.bytes element) cursor) l fun blank _ =>
        blank.IsBlank ∧ blank.info.layout = .bytes element ∧ blank.info.extent? = none :=
      ⟨isBlank_blank _ _ _ _, rfl, rfl⟩
    refine hspawn.bind fun blank m hblank => ?_
    obtain ⟨hempty, hsame, hnone⟩ := hblank
    refine (hpart _ _ element m hempty hsame).bind fun out n hout => ?_
    dsimp only
    split
    · refine Ends.pure fun h => ?_
      cases h
    · rename_i herror
      obtain ⟨hmade, hsize⟩ := hout herror
      have hpush := hf.push (hmade.honours hnone) fun h => absurd (hmade.extent.trans hnone) h
      refine (ih hpush _ _ n).mono fun last _ hlast hdone => ?_
      obtain ⟨g, stop, hatom, hinfo, hg, -, hstop⟩ := hlast hdone
      refine ⟨g, stop, hatom, hinfo, hg, fun h => absurd h (Nat.succ_ne_zero count), fun each heach => ?_⟩
      rw [hstop each heach, hsize each heach, Nat.mul_succ]
      omega

/-- The elements of a new block array and its padding are as many bytes as the array has. -/
theorem newCount_block {element : Layout κ} {extent : Nat} {count rest : Nat}
    (h : Shape.newCount element (.block extent) = (count, rest)) :
    (count = 0 ∧ rest = extent)
      ∨ ∃ each, element.staticSize = some each ∧ each * count + rest = extent := by
  rw [Shape.newCount] at h
  split at h
  · rename_i each heach
    split at h
    · cases h
      exact .inr ⟨each, heach, Nat.div_add_mod extent each⟩
    · cases h
      exact .inl ⟨rfl, rfl⟩
  · cases h
    exact .inl ⟨rfl, rfl⟩

theorem newCount_of_not_block {element : Layout κ} {shape : Shape κ}
    (h : ∀ extent, shape ≠ .block extent) : (shape.newCount element).2 = 0 := by
  cases shape with
  | block extent => exact absurd rfl (h extent)
  | counted | terminated | unending => rfl

/-- A new array, with the padding that makes up its bytes. -/
theorem honours_allocateArray (hpart : DefaultsBytes part) (element : Layout κ) (shape : Shape κ)
    (frames : List (Frame κ)) {a : Atom κ} (hlayout : a.info.layout = .bytes (.array element shape))
    (hstart : (a.fill .group []).frame.Filling a.info.offset) (padding : UInt8) (l : Ledger κ) :
    Ends (allocateElements part element frames (shape.newCount element).1 (a.fill .group []).frame 0
      a.info.offset) l fun out _ => out.error? = none →
        (out.atom.withTail (List.replicate (shape.newCount element).2 padding)).Made a.info
          ∧ ∀ size, (Layout.array element shape).staticSize = some size →
            (out.atom.withTail (List.replicate (shape.newCount element).2 padding)).size = size := by
  refine (honours_allocateElements hpart element frames _ hstart 0 _ l).mono fun out _ hout herror => ?_
  obtain ⟨g, stop, hatom, hinfo, hg, hzero, hstop⟩ := hout herror
  have hinfo : g.info = a.info := hinfo
  have hready (tail : Bytes) : g.close.ready.withTail tail = (g.close.withTail tail).ready := rfl
  have hcontent := hg.spanning.contentSize
  have hblock (extent : Nat) (h : shape = .block extent) :
      stop + (shape.newCount element).2 = a.info.offset + extent := by
    subst h
    generalize hcount : (Shape.newCount element (.block extent)) = new
    obtain ⟨count, rest⟩ := new
    rw [hcount] at hzero hstop
    rcases newCount_block hcount with ⟨rfl, rfl⟩ | ⟨each, heach, hsum⟩
    · rw [hzero rfl]
    · rw [hstop each heach]
      dsimp only
      omega
  rw [hatom, hready]
  refine ⟨Made.ready ?_, fun size hsize => ?_⟩
  · rw [← hinfo]
    by_cases hshape : ∃ extent, shape = .block extent
    · obtain ⟨extent, hshape⟩ := hshape
      refine hg.made_withTail extent (fun other hother => ?_) ?_
      · obtain ⟨inner, hother⟩ := hother
        rw [hinfo, hlayout, hshape] at hother
        cases hother
        rfl
      · rw [List.length_replicate, hblock extent hshape, hinfo]
    · have hrest : (shape.newCount element).2 = 0 :=
        newCount_of_not_block fun extent h => hshape ⟨extent, h⟩
      rw [hrest]
      refine hg.made_withTail g.close.contentSize (fun other hother => ?_) ?_
      · obtain ⟨inner, hother⟩ := hother
        rw [hinfo, hlayout] at hother
        cases hother
        exact absurd ⟨other, rfl⟩ hshape
      · exact hcontent
  · rw [size_ready, size_withTail, List.length_replicate]
    have hoffset : g.info.offset = a.info.offset := congrArg Info.offset hinfo
    cases shape with
    | counted count =>
      rw [Layout.staticSize, Option.bind_eq_some_iff] at hsize
      obtain ⟨each, heach, hproduct⟩ := hsize
      have hcount : stop = a.info.offset + each * count := hstop each heach
      have hword := eq_of_word? hproduct
      have hrest : (Shape.newCount element (.counted count)).2 = 0 := rfl
      omega
    | block extent =>
      have hsum := hblock extent rfl
      cases hsize
      omega
    | terminated | unending => cases hsize

/-! ## Hosts of bits -/

theorem honours_allocateHost (depth : Nat) {layout : BitLayout κ} (frames : List (Frame κ)) {a : Atom κ}
    (hbits : a.isBits = false) (htail : a.info.tail = [])
    (hblock : ∀ extent, ¬ IsBlockArray extent a.info.layout) (l : Ledger κ) :
    Ends (allocateHost env depth layout frames a) l fun out _ =>
      out.Defaults a.info (layout.staticBits.map bytesOfBits) := by
  rw [allocateHost]
  split
  · exact Ends.pure (.failed _ _)
  · rename_i position _
    have hspawn : Ends (LedgerM.spawn "" (.bits layout) position) l fun root _ =>
        root.IsBlank ∧ root.info.layout = .bits layout :=
      ⟨isBlank_blank _ _ _ _, rfl⟩
    refine hspawn.bind fun root m hroot => ?_
    obtain ⟨hempty, hlayout⟩ := hroot
    have hmade : Ends (allocateBits env depth ((a.fill (.host .empty) []).frame :: frames) root) m
        fun out _ => Everywhere Shaped out.atom ∧ out.atom.isBits = true
          ∧ ∀ width, layout.staticBits = some width → out.error? = none →
            out.atom.bitCount = width := by
      have haccounts := accounts_allocateBits env depth ((a.fill (.host .empty) []).frame :: frames)
        (a := root) (.inl hempty.shaped) m
      refine ⟨haccounts.1.shaped, haccounts.1.isBits.trans ?_, fun width hwidth =>
        keepsWidth_allocateBits env depth _ root layout width m hlayout hwidth⟩
      rw [isBits, hlayout]
      rfl
    refine hmade.bind fun out n hout => ?_
    obtain ⟨hshaped, hout, hwidth⟩ := hout
    dsimp only
    split
    · exact Ends.pure (.failed _ _)
    · rename_i herror
      -- The unused bits fill the last byte.
      have hfixed : ∃ pad, (hostedBits a out.atom .empty).fixPad = hostedBits a out.atom pad
          ∧ pad.width = (8 - out.atom.bitCount % 8) % 8 := by
        refine ⟨_, rfl, ?_⟩
        have hcount : bitCounts [out.atom] = out.atom.bitCount := rfl
        rw [hcount]
        split
        · assumption
        · rfl
      obtain ⟨pad, hpad, hrest⟩ := hfixed
      rw [hpad]
      refine Ends.pure fun _ => ⟨(made_hostedBits hblock hshaped hout pad).ready, fun size hsize => ?_⟩
      rw [Option.map_eq_some_iff] at hsize
      obtain ⟨width, hstatic, rfl⟩ := hsize
      rw [size_hostedBits hbits htail, hrest, hwidth width hstatic herror, bytesOfBits, bytesOfBits]
      omega

/-! ## Default content -/

/-- Default content keeps to its extents and has the size known of its layout. -/
theorem honours_allocate (env : Env κ) (depth : Nat) (frames : List (Frame κ)) {a : Atom κ}
    {layout : Layout κ} (hlayout : a.info.layout = .bytes layout) (l : Ledger κ) :
    Ends (allocate env depth frames a) l fun out _ => out.Defaults a.info layout.staticSize := by
  induction depth generalizing frames a layout l with
  | zero => exact Ends.pure (.failed _ _)
  | succ depth ih =>
    have hpart : DefaultsBytes (allocate env depth) := fun frames a layout l _ h => ih frames h l
    rw [allocate, hlayout]
    have hclear : Ends (LedgerM.clear a) l fun b _ => b = a.cleared := rfl
    refine hclear.bind fun b m hb => ?_
    subst hb
    have hblank := isBlank_cleared a
    have hsame : a.cleared.info.layout = .bytes layout :=
      (Info.layout_of_site (site_cleared a)).trans hlayout
    have hbits : a.cleared.isBits = false := by rw [isBits, hsame]; rfl
    have hmade (b : Atom κ) (h : b.Made a.cleared.info) : b.Made a.info := by
      obtain ⟨info, content, parts⟩ := a
      obtain ⟨h1, h2, h3, h4, h5⟩ := h
      exact ⟨h1, h2, h3, h4, h5⟩
    have hback (out : Outcome κ) {known? : Option Nat} (h : out.Defaults a.cleared.info known?) :
        out.Defaults a.info known? := fun herror => ⟨hmade _ (h herror).1, (h herror).2⟩
    have hstart : (a.cleared.fill .group []).frame.Filling a.cleared.info.offset :=
      .start hbits hblank.tail
    have hplain (h : ∀ element extent, layout ≠ .array element (.block extent)) (extent : Nat) :
        ¬ IsBlockArray extent a.cleared.info.layout := by
      rintro ⟨element, harray⟩
      rw [hsame, AtomLayout.bytes.injEq] at harray
      exact h element extent harray
    cases layout
    case record name fields =>
      refine (honours_allocateFields hpart frames (f := (a.cleared.fill .group []).frame) hsame 0 _ 0
        fields rfl hstart (fun size hsize => ⟨rfl, ?_⟩) m).mono fun _ _ => hback _
      exact hsize
    case array element shape =>
      refine (honours_allocateArray hpart element shape frames hsame hstart env.config.padding m).bind
        fun out n hout => ?_
      split
      · exact Ends.pure (.failed _ _)
      · rename_i herror
        exact Ends.pure (hback _ fun _ => hout herror)
    case union name members size =>
      refine LedgerM.ends_fromBytes ((honours_loadMembers (fun frames a s _ _ =>
        honours_load env depth frames a s) (f := (a.cleared.fill (.overlay _) []).frame) frames rfl hbits
        hblank.tail rfl (hplain fun _ _ h => by cases h) (fun part h => by cases h) members _).mono
        fun out u hu herror => ?_)
      obtain ⟨hout, hsize⟩ := hu.2 herror
      refine ⟨hmade _ hout, fun other hother => ?_⟩
      cases hother
      rw [hsize, List.length_replicate]
    case bits root order =>
      exact (honours_allocateHost depth frames hbits hblank.tail (hplain fun _ _ h => by cases h) m).mono
        fun _ _ => hback _
    all_goals
      exact Ends.pure (hback _ (honours_allocateLeaf frames hbits hblank.tail
        (hplain fun _ _ h => by cases h)))

end Allocate

end BinaryLayout
