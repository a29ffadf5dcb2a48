import BinaryLayout.Proofs.Ending.Terminated
import BinaryLayout.Proofs.Prediction.Load

/-!
# How the bytes of a block array are divided

A block array is loaded element by element, each through a window that ends where the array does. So no
element goes past the end; they stand back to back from the start, and the bytes that they leave are the
tail. Elements of known size are as many as fit, and what is left over is less than one of them: a shorter
element where they are plain blocks, and the tail otherwise. The array is warned about when it has a tail,
and only then.

The warning is told apart from those that elements cause by its path, since each of those leads through the
index of an element.

## Main definitions

* `Layout.portions`: the elements that bytes are divided into when the size of one is known.
* `Atom.Partitioned`: the elements of a block array, and how many bytes they leave.
* `Ledger.WarnsInside`: warnings were added about elements of an array.
* `Outcome.Partitions`: a block array whose bytes are divided among its elements and its tail.

## Main statements

* `load_partitioned`: a block array that was loaded.
-/

namespace BinaryLayout

variable {κ : Type}

open Atom

/-- The layouts and the sizes of the elements that `extent` bytes are divided into, when one is known to take
`size` bytes: as many as fit, and after plain blocks a shorter one of the bytes left over. -/
def Layout.portions (element : Layout κ) (size extent : Nat) : List (AtomLayout κ × Nat) :=
  List.replicate (extent / size) (.bytes element, size)
    ++ if element.isBlock ∧ extent % size ≠ 0 then [(.bytes (.block (extent % size)), extent % size)] else []

/-- The array divides `extent` bytes from where it stands into its elements, which bear their indices and
stand back to back, and `rest` bytes after them. -/
structure Atom.Partitioned (element : Layout κ) (extent rest : Nat) (a : Atom κ) : Prop where
  content : a.content = .group
  name : ∀ (i : Nat) (e : Atom κ), a.parts[i]? = some e → e.info.name = toString i
  first : ∀ e : Atom κ, a.parts[0]? = some e → e.info.offset = a.info.offset
  next : ∀ (i : Nat) (b c : Atom κ), a.parts[i]? = some b → a.parts[i + 1]? = some c →
    c.info.offset = b.info.offset + b.size
  inside : ∀ e ∈ a.parts, e.info.offset + e.size ≤ a.info.offset + extent
  total : sizes a.parts + rest = extent
  /-- Elements of known size leave less than one of them. -/
  known : ∀ size, element.staticSize = some size → 0 < size →
    a.parts.map (fun e => (e.info.layout, e.size)) = element.portions size extent
      ∧ rest = if element.isBlock then 0 else extent % size

/-- Nothing but the place, the content and the parts of the array matters. -/
theorem Atom.Partitioned.of_same {element : Layout κ} {extent rest : Nat} {a b : Atom κ}
    (h : a.Partitioned element extent rest) (hsite : b.info.site = a.info.site)
    (hcontent : b.content = a.content) (hparts : b.parts = a.parts) : b.Partitioned element extent rest := by
  have hoffset : b.info.offset = a.info.offset := Info.offset_of_site hsite
  constructor <;> simp only [hoffset, hcontent, hparts]
  exacts [h.content, h.name, h.first, h.next, h.inside, h.total, h.known]

/-! ## Warnings about elements -/

/-- Warnings were added, each about an element of the array with this path or about something inside one. -/
def Ledger.WarnsInside (path : Path) (l m : Ledger κ) : Prop :=
  ∃ new, m.warnings = new ++ l.warnings ∧ ∀ w ∈ new, ∃ i, path ++ [Path.index i] <+: w.path

namespace Ledger.WarnsInside

variable {path : Path} {l m n : Ledger κ}

theorem of_eq (h : m.warnings = l.warnings) : l.WarnsInside path m := ⟨[], h, nofun⟩

theorem trans (hlm : l.WarnsInside path m) (hmn : m.WarnsInside path n) : l.WarnsInside path n := by
  obtain ⟨early, hm, hearly⟩ := hlm
  obtain ⟨late, hn, hlate⟩ := hmn
  exact ⟨late ++ early, by rw [hn, hm, List.append_assoc], List.forall_mem_append.2 ⟨hlate, hearly⟩⟩

/-- What an element warns about. -/
theorem of_element {f : Frame κ} {frames : List (Frame κ)} {e : Atom κ} {i : Nat}
    (harray : f.info.layout.isArray = true) (hname : e.info.name = toString i)
    (h : l.WarnsAt (Place.path ⟨e, f :: frames⟩) m) : l.WarnsInside (Place.path ⟨f.close, frames⟩) m := by
  obtain ⟨new, hm, hnew⟩ := h
  have hpath : Place.path ⟨e, f :: frames⟩ = Place.path ⟨f.close, frames⟩ ++ [Path.index i] := by
    rw [Place.path, Place.pathOnto, Place.pathOnto_eq [Place.segment f.info e.info.name], Place.segment,
      if_pos harray, hname]
    rfl
  exact ⟨new, hm, fun w hw => ⟨i, hpath ▸ hnew w hw⟩⟩

end Ledger.WarnsInside

/-! ## The next element -/

/-- The next element has the layout of all, and room for its bytes as far as they are known; or it is a plain
block that is cut short. -/
theorem nextInBlock_some {element layout : Layout κ} {remaining : Nat}
    (h : nextInBlock element remaining = some layout) :
    (layout = element ∧ ∀ size, element.staticSize = some size → 0 < size ∧ size ≤ remaining)
      ∨ (layout = .block remaining ∧ element.isBlock = true
        ∧ ∃ size, element.staticSize = some size ∧ remaining < size) := by
  rw [nextInBlock] at h
  split at h
  · rename_i hnone
    cases h
    exact .inl ⟨rfl, fun size hsize => by rw [hnone] at hsize; cases hsize⟩
  · cases h
  · rename_i size hpos hsome
    split at h
    · rename_i hfits
      cases h
      refine .inl ⟨rfl, fun other hother => ?_⟩
      rw [hsome] at hother
      cases hother
      exact ⟨Nat.pos_of_ne_zero hpos, hfits⟩
    · split at h
      · cases h
        exact .inr ⟨rfl, ‹_›, size, hsome, by omega⟩
      · cases h

/-- There is no next element where none is of bytes, or none fits and none is cut short. -/
theorem nextInBlock_none {element : Layout κ} {remaining : Nat} (h : nextInBlock element remaining = none) :
    ∃ size, element.staticSize = some size ∧ (0 < size → remaining < size ∧ element.isBlock = false) := by
  rw [nextInBlock] at h
  split at h
  · cases h
  · rename_i hzero
    exact ⟨0, hzero, fun h => absurd h (Nat.lt_irrefl 0)⟩
  · rename_i size _ hsome
    split at h
    · cases h
    · split at h
      · cases h
      · rename_i hlarge hplain
        exact ⟨size, hsome, fun _ => ⟨Nat.lt_of_not_le hlarge, Bool.eq_false_iff.2 hplain⟩⟩

/-- An element that was loaded for a block array whose elements end at `limit`. -/
structure BlockElement (frames : List (Frame κ)) (f : Frame κ) (given : Layout κ) (cursor limit : Nat)
    (l : Ledger κ) (out : Outcome κ) (m : Ledger κ) : Prop where
  warns : l.WarnsInside (Place.path ⟨f.close, frames⟩) m
  name : out.atom.info.name = toString f.left.length
  offset : out.atom.info.offset = cursor
  layout : out.atom.info.layout = .bytes given
  size : out.error? = none → ∀ size, given.staticSize = some size → out.atom.size = size
  fits : out.error? = none → cursor ≤ limit → cursor + out.atom.size ≤ limit

section Load

variable (env : Env κ) (depth : Nat) {element : Layout κ} {extent : Nat} (frames : List (Frame κ))

/-- The next element is loaded from a blank atom, through a window. -/
theorem blockElement_load (layout : Layout κ) {f : Frame κ} (harray : f.info.layout.isArray = true)
    (cursor limit : Nat) (s : LoadState κ) :
    Ends (do
      let blank ← LoadM.ofLedger (LedgerM.spawn (toString f.left.length) (.bytes layout) cursor)
      LoadM.inWindow limit (load env depth (f :: frames) blank) : LoadM κ (Outcome κ)) s
      fun out t => BlockElement frames f layout cursor limit s.ledger out t.ledger := by
  have hblank : Ends (LoadM.ofLedger (LedgerM.spawn (toString f.left.length) (.bytes layout) cursor)) s
      fun blank t => NextBlank f cursor s.ledger blank t.ledger ∧ blank.info.layout = .bytes layout
        ∧ blank.info.extent? = none :=
    ⟨nextBlank_spawn f cursor (.bytes layout) s.ledger, rfl, rfl⟩
  refine hblank.bind fun blank t ht => ?_
  obtain ⟨hnext, hlayout, hextent⟩ := ht
  have hbits : blank.isBits = false := by rw [isBits, hlayout]; rfl
  have hhonours : HonoursBytes (load env depth) := fun frames a s _ _ => honours_load env depth frames a s
  have hinside := hhonours.inWindow (f :: frames) hnext.isBlank hbits limit t
  have hpredicts : Ends (LoadM.inWindow limit (load env depth (f :: frames) blank)) t fun out _ =>
      out.Predicts blank.info layout.staticSize :=
    predicts_load env depth (f :: frames) hlayout { t with reader := .window t.reader limit 0 }
  have hmakes : Ends (LoadM.inWindow limit (load env depth (f :: frames) blank)) t fun out u =>
      Makes (f :: frames) (.atom blank) t.ledger out u.ledger :=
    making_load env depth (f :: frames) blank { t with reader := .window t.reader limit 0 } hnext.isBlank
  refine ((hinside.and hpredicts).and hmakes).mono fun out u hu => ?_
  obtain ⟨⟨⟨-, hfits⟩, hpredicted⟩, hmade⟩ := hu
  refine ⟨?_, ?_, ?_, ?_, fun herror => (hpredicted herror).2 hextent, fun herror hcursor => ?_⟩
  · exact (Ledger.WarnsInside.of_eq hnext.quiet).trans (.of_element harray hnext.name hmade.warns)
  · exact (Info.name_of_site hmade.site).trans hnext.name
  · exact (Info.offset_of_site hmade.site).trans hnext.offset
  · exact (Info.layout_of_site hmade.site).trans hlayout
  · obtain ⟨-, -, hroom⟩ := hfits herror
    rw [hnext.offset, Nat.max_eq_right hcursor] at hroom
    exact hroom

/-! ## The elements so far -/

namespace Frame

/-- The elements before the gap stand back to back up to `cursor`, and no further than `limit`. -/
structure Packed (f : Frame κ) (limit cursor : Nat) : Prop where
  lined : f.Lined false cursor
  spanning : f.Spanning cursor
  inside : ∀ e ∈ f.left, e.info.offset + e.size ≤ limit
  fits : cursor ≤ limit

/-- The elements before the gap are of the layout of all, and none of them was cut short. -/
def Uncut (element : Layout κ) (f : Frame κ) : Prop :=
  ∀ e ∈ f.left, e.info.layout = .bytes element ∧ ∀ size, element.staticSize = some size → e.size = size

variable {f : Frame κ} {limit cursor : Nat} {e : Atom κ}

theorem Packed.start {a : Atom κ} (hbits : a.isBits = false) (htail : a.info.tail = []) (extent : Nat) :
    (a.fill .group []).frame.Packed (a.info.offset + extent) a.info.offset :=
  ⟨.start a, .start hbits htail, nofun, Nat.le_add_right _ _⟩

theorem Packed.push (h : f.Packed limit cursor) (hword : limit < pow2 64)
    (hname : e.info.name = toString f.left.length) (hoffset : e.info.offset = cursor)
    (hfits : cursor + e.size ≤ limit) : (f.push e).Packed limit (cursor + e.size) := by
  have hend : cursor + e.size < pow2 64 := Nat.lt_of_le_of_lt hfits hword
  have hlined := h.lined.push hname hoffset fun _ => hend
  rw [show e.step false = e.size from rfl, satAdd_of_lt hend] at hlined
  exact ⟨hlined, h.spanning.push e, List.forall_mem_cons.2 ⟨hoffset ▸ hfits, h.inside⟩, hfits⟩

/-- The array with these elements, when it is known into which its bytes are divided. -/
theorem Packed.partitioned (h : f.Packed limit cursor) (hlimit : limit = f.info.offset + extent)
    (hknown : ∀ size, element.staticSize = some size → 0 < size →
      f.left.reverse.map (fun e => (e.info.layout, e.size)) = element.portions size extent
        ∧ limit - cursor = if element.isBlock then 0 else extent % size) :
    f.close.Partitioned element extent (limit - cursor) := by
  have hparts : f.close.parts = f.left.reverse := by rw [parts_close, h.lined.right, List.append_nil]
  refine ⟨h.lined.content, ?_, ?_, ?_, ?_, ?_, ?_⟩ <;> rw [hparts]
  · exact h.lined.name
  · exact fun _ => h.lined.first
  · exact fun _ _ _ => h.lined.next
  · exact fun e he => hlimit ▸ h.inside e (List.mem_reverse.1 he)
  · have hcursor := h.spanning.cursor
    have hfits := h.fits
    rw [sizes_reverse]
    omega
  · exact hknown

theorem Uncut.start (element : Layout κ) (a : Atom κ) : (a.fill .group []).frame.Uncut element :=
  fun _ he => absurd he List.not_mem_nil

/-- Elements of known size, one after another. -/
theorem Uncut.portions (h : f.Uncut element) {size : Nat} (hsize : element.staticSize = some size) :
    f.left.reverse.map (fun e => (e.info.layout, e.size))
      = List.replicate f.left.length (.bytes element, size) := by
  refine List.eq_replicate_iff.2 ⟨by simp, fun portion hportion => ?_⟩
  obtain ⟨e, he, rfl⟩ := List.mem_map.1 hportion
  obtain ⟨hlayout, hlength⟩ := h e (List.mem_reverse.1 he)
  rw [hlayout, hlength size hsize]

/-- They reach as far as all of their sizes together. -/
theorem Uncut.reaches (h : f.Uncut element) (hspanning : f.Spanning cursor) {size : Nat}
    (hsize : element.staticSize = some size) : cursor = f.info.offset + size * f.left.length := by
  have hsizes : f.left.map Atom.size = List.replicate f.left.length size :=
    List.eq_replicate_iff.2 ⟨List.length_map _, fun n hn => by
      obtain ⟨e, he, rfl⟩ := List.mem_map.1 hn
      exact (h e he).2 size hsize⟩
  rw [← hspanning.cursor, sizes_eq, hsizes, List.sum_replicate_nat, Nat.mul_comm]

/-- How many they are, when less than one of them is left. -/
theorem Uncut.division (h : f.Uncut element) (hpacked : f.Packed limit cursor)
    (hlimit : limit = f.info.offset + extent) {size : Nat} (hsize : element.staticSize = some size)
    (hless : limit - cursor < size) : extent / size = f.left.length ∧ extent % size = limit - cursor := by
  have hcursor := h.reaches hpacked.spanning hsize
  have hfits := hpacked.fits
  refine (Nat.div_mod_unique (by omega)).2 ⟨?_, hless⟩
  omega

/-- The array is divided into these elements when less than one of them is left, and nothing if what is left
would be cut short. -/
theorem Uncut.partitioned (h : f.Uncut element) (hpacked : f.Packed limit cursor)
    (hlimit : limit = f.info.offset + extent)
    (hless : ∀ size, element.staticSize = some size → 0 < size →
      limit - cursor < size ∧ (element.isBlock = true → limit - cursor = 0)) :
    f.close.Partitioned element extent (limit - cursor) := by
  refine hpacked.partitioned hlimit fun size hsize hpos => ?_
  obtain ⟨hless, hcut⟩ := hless size hsize hpos
  obtain ⟨hcount, hrest⟩ := h.division hpacked hlimit hsize hless
  rw [h.portions hsize, Layout.portions, hcount, hrest]
  cases hblock : element.isBlock with
  | false => simp
  | true => simp [hcut hblock]

/-- The array is divided into these elements when none of its bytes is left. -/
theorem Uncut.partitioned_full (h : f.Uncut element) (hpacked : f.Packed limit cursor)
    (hlimit : limit = f.info.offset + extent) (hfull : limit ≤ cursor) :
    f.close.Partitioned element extent (limit - cursor) := by
  refine h.partitioned hpacked hlimit fun size _ hpos => ?_
  rw [Nat.sub_eq_zero_of_le hfull]
  exact ⟨hpos, fun _ => rfl⟩

/-- The array is divided into these elements and a last one that was cut short to the bytes left. -/
theorem Uncut.partitioned_push (h : f.Uncut element) (hpacked : f.Packed limit cursor)
    (hlimit : limit = f.info.offset + extent) (hmore : cursor < limit) (hblock : element.isBlock = true)
    {size : Nat} (hsize : element.staticSize = some size) (hless : limit - cursor < size)
    (hlayout : e.info.layout = .bytes (.block (limit - cursor))) (hrest : e.size = limit - cursor)
    (hpushed : (f.push e).Packed limit (cursor + e.size)) :
    (f.push e).close.Partitioned element extent (limit - (cursor + e.size)) := by
  refine hpushed.partitioned hlimit fun other hother _ => ?_
  obtain rfl : size = other := Option.some.inj (hsize.symm.trans hother)
  obtain ⟨hcount, hremainder⟩ := h.division hpacked hlimit hsize hless
  refine ⟨?_, ?_⟩
  · have hsome : limit - cursor ≠ 0 := by omega
    rw [Frame.push, List.reverse_cons, List.map_append, h.portions hsize, Layout.portions, hcount, hremainder,
      if_pos ⟨hblock, hsome⟩, List.map_singleton, hlayout, hrest]
  · rw [if_pos hblock]
    omega

end Frame

/-! ## All elements -/

/-- The elements of a block array with this info, and how many bytes they leave. -/
structure BlockOutcome.Partitions (element : Layout κ) (extent limit : Nat) (frames : List (Frame κ))
    (info : Info κ) (l : Ledger κ) (out : BlockOutcome κ) (m : Ledger κ) : Prop where
  partitioned : out.atom.Partitioned element extent (limit - out.cursor)
  fits : out.cursor ≤ limit
  info : out.atom.info = info
  warns : l.WarnsInside (Place.path ⟨out.atom, frames⟩) m

/-- Elements before caused warnings. -/
theorem BlockOutcome.Partitions.after {limit : Nat} {f : Frame κ} {l m n : Ledger κ} {out : BlockOutcome κ}
    (hearly : l.WarnsInside (Place.path ⟨f.close, frames⟩) m)
    (h : out.Partitions element extent limit frames f.info m n) :
    out.Partitions element extent limit frames f.info l n := by
  have hpath : Place.path ⟨out.atom, frames⟩ = Place.path ⟨f.close, frames⟩ :=
    congrArg (fun info : Info κ => Place.pathOnto [] info.name frames) h.info
  exact { h with warns := (hpath ▸ hearly).trans h.warns }

/-- Nothing is loaded where no byte is left. -/
theorem loadBlockElements_full (part : LoadPart (LoadM κ) κ) (element : Layout κ) {limit cursor : Nat}
    (hfull : limit ≤ cursor) (frames : List (Frame κ)) (fuel : Nat) (f : Frame κ) (index : Nat) :
    loadBlockElements part element limit frames fuel f index cursor = return ⟨f.close, cursor, none⟩ := by
  cases fuel with
  | zero => rfl
  | succ fuel => rw [loadBlockElements, if_pos hfull]

/-- The elements from the next one on, after elements none of which was cut short. -/
theorem partitions_loadBlockElements (fuel : Nat) {f : Frame κ} {limit cursor : Nat}
    (hlimit : limit = f.info.offset + extent) (hword : limit < pow2 64)
    (harray : f.info.layout.isArray = true) (hpacked : f.Packed limit cursor) (huncut : f.Uncut element)
    (hfuel : limit ≤ cursor + fuel) (s : LoadState κ) :
    Ends (loadBlockElements (load env depth) element limit frames fuel f f.left.length cursor) s fun out t =>
      out.error? = none → out.Partitions element extent limit frames f.info s.ledger t.ledger := by
  -- Each turn but the last one takes a byte, so there is fuel for the bytes that are left.
  induction fuel generalizing f cursor s with
  | zero =>
    exact Ends.pure fun _ => ⟨huncut.partitioned_full hpacked hlimit hfuel, hpacked.fits, rfl, .of_eq rfl⟩
  | succ fuel ih =>
    rw [loadBlockElements]
    split
    · exact Ends.pure fun _ => ⟨huncut.partitioned_full hpacked hlimit ‹_›, hpacked.fits, rfl, .of_eq rfl⟩
    rename_i hmore
    have hmore := Nat.lt_of_not_le hmore
    split
    · rename_i hnone
      obtain ⟨size, hsize, hsmall⟩ := nextInBlock_none hnone
      refine Ends.pure fun _ => ⟨huncut.partitioned hpacked hlimit fun other hother hpos => ?_, hpacked.fits,
        rfl, .of_eq rfl⟩
      obtain rfl : size = other := Option.some.inj (hsize.symm.trans hother)
      obtain ⟨hless, hplain⟩ := hsmall hpos
      exact ⟨hless, fun hblock => by rw [hplain] at hblock; cases hblock⟩
    rename_i layout hsome
    refine Ends.via (fun blank t => Ends (LoadM.inWindow limit (load env depth (f :: frames) blank)) t
        fun out u => BlockElement frames f layout cursor limit s.ledger out u.ledger)
      (blockElement_load env depth frames layout harray cursor limit s)
      fun blank t ht => ht.bind fun out u hu => ?_
    split
    · split
      · rename_i hdropped
        refine (LoadM.ends_release out.atom u).bind fun _ v hv => Ends.pure fun _ => ?_
        refine ⟨huncut.partitioned hpacked hlimit fun size hsize => ?_, hpacked.fits, rfl, ?_⟩
        · rw [hdropped.2] at hsize
          cases hsize
        · exact hu.warns.trans (.of_eq (hv ▸ Ledger.warnings_release u.ledger out.atom))
      · exact Ends.pure Error.of_absent
    rename_i herror
    have hsize := hu.size herror
    have hpushed := hpacked.push hword hu.name hu.offset (hu.fits herror hpacked.fits)
    rcases nextInBlock_some hsome with ⟨rfl, hroom⟩ | ⟨rfl, hblock, size, hknown, hless⟩
    · have huncut' : (f.push out.atom).Uncut layout := List.forall_mem_cons.2 ⟨⟨hu.layout, hsize⟩, huncut⟩
      dsimp only
      split
      -- Elements of known size have bytes, so the one that has none is of another kind.
      · rename_i hzero
        rw [hzero, Nat.add_zero] at hpushed
        refine Ends.pure fun _ => ⟨huncut'.partitioned hpushed hlimit fun size hknown hpos => ?_,
          hpushed.fits, rfl, hu.warns⟩
        rw [hsize size hknown] at hzero
        exact absurd hzero (Nat.ne_of_gt hpos)
      · split
        · exact Ends.pure Error.of_absent
        · rename_i next hspan
          obtain ⟨rfl, -⟩ := spanEnd_eq hspan
          exact (ih (f := f.push out.atom) hlimit harray hpushed huncut' (by omega) u).mono
            fun _ _ hv hok => .after frames hu.warns (hv hok)
    -- The element that was cut short takes all bytes left, and no turn follows.
    · have hrest : out.atom.size = limit - cursor := hsize _ rfl
      have hfits := hpushed.fits
      dsimp only
      rw [if_neg (by omega)]
      split
      · exact Ends.pure Error.of_absent
      · rename_i next hspan
        obtain ⟨rfl, -⟩ := spanEnd_eq hspan
        rw [loadBlockElements_full _ _ (by omega)]
        exact Ends.pure fun _ => ⟨huncut.partitioned_push hpacked hlimit hmore hblock hknown hless hu.layout
          hrest hpushed, hfits, rfl, hu.warns⟩

/-! ## Block arrays -/

/-- What is said of the bytes that the elements of the array with this path leave. -/
def Warning.leftovers (path : Path) (tail : Bytes) : List Warning :=
  if tail = [] then [] else [.leftover path tail.length]

/-- The block array that was loaded stands where it did before. It divides `extent` bytes into its elements
and its tail, and is warned about for the tail; the other new warnings are about elements. -/
def Outcome.Partitions (element : Layout κ) (extent : Nat) (frames : List (Frame κ)) (a : Atom κ)
    (l : Ledger κ) (out : Outcome κ) (m : Ledger κ) : Prop :=
  out.error? = none → out.atom.info.site = a.info.site
    ∧ out.atom.Partitioned element extent out.atom.info.tail.length
    ∧ ∃ early, m.warnings =
        Warning.leftovers (Place.path ⟨a, frames⟩) out.atom.info.tail ++ early ++ l.warnings
      ∧ ∀ w ∈ early, ∃ i, Place.path ⟨a, frames⟩ ++ [Path.index i] <+: w.path

/-- The elements and the tail are the array. -/
theorem BlockOutcome.Partitions.outcome {limit : Nat} {a b : Atom κ} {l m n : Ledger κ} {out : BlockOutcome κ}
    (h : out.Partitions element extent limit frames a.info l m) (hsite : b.info.site = out.atom.info.site)
    (hcontent : b.content = out.atom.content) (hparts : b.parts = out.atom.parts)
    (htail : b.info.tail.length = limit - out.cursor)
    (hwarnings : n.warnings = Warning.leftovers (Place.path ⟨a, frames⟩) b.info.tail ++ m.warnings) :
    Outcome.Partitions element extent frames a l ⟨b, none⟩ n := by
  intro _
  obtain ⟨early, hm, hearly⟩ := h.warns
  have hpath : Place.path ⟨out.atom, frames⟩ = Place.path ⟨a, frames⟩ :=
    congrArg (fun info : Info κ => Place.pathOnto [] info.name frames) h.info
  refine ⟨hsite.trans (congrArg Info.site h.info), ?_, early, ?_, hpath ▸ hearly⟩
  · exact htail ▸ h.partitioned.of_same hsite hcontent hparts
  · rw [hwarnings, hm, List.append_assoc]

/-- Loading a block array from an atom that holds nothing. -/
theorem partitions_loadBlock {a : Atom κ} (hblank : a.IsBlank)
    (ha : a.info.layout = .bytes (.array element (.block extent))) (s : LoadState κ) :
    Ends (loadBlock (load env depth) element extent frames (a.fill .group [])) s fun out t =>
      out.Partitions element extent frames a s.ledger t.ledger := by
  have hbits : a.isBits = false := by rw [isBits, ha]; rfl
  have harray : (a.fill .group []).frame.info.layout.isArray = true := congrArg AtomLayout.isArray ha
  rw [loadBlock]
  split
  · exact Ends.pure Error.of_absent
  rename_i limit hspan
  obtain ⟨rfl, -⟩ := spanEnd_eq hspan
  have helements := partitions_loadBlockElements env depth frames extent rfl (lt_of_spanEnd hspan) harray
    (.start hbits hblank.tail extent) (Frame.Uncut.start element a) (Nat.le_refl _) s
  refine helements.bind fun out t hout => ?_
  split
  · exact Ends.pure Error.of_absent
  rename_i hok
  have hout : out.Partitions element extent (a.info.offset + extent) frames a.info s.ledger t.ledger :=
    hout hok
  split
  · rename_i hfull
    have htail : out.atom.ready.info.tail = [] :=
      (congrArg Info.tail (info_mapInfo _ _)).trans ((congrArg Info.tail hout.info).trans hblank.tail)
    refine Ends.pure (hout.outcome frames (site_ready _) (content_ready _) (parts_ready _) ?_ ?_)
    · rw [htail]
      exact (Nat.sub_eq_zero_of_le hfull).symm
    · rw [htail]
      rfl
  · rename_i hless
    refine ((LoadM.length_readAt _ _ t).and (LoadM.leaves_readAt _ _ t)).bind fun result u hu => ?_
    obtain ⟨hlength, hledger⟩ := hu
    split
    · exact Ends.pure Error.of_absent
    rename_i tail
    refine (LoadM.ends_warn _ u).bind fun _ v hv => Ends.pure ?_
    have htail : (out.atom.withTail tail).ready.info.tail = tail := by
      rw [ready, withTail, info_mapInfo, info_mapInfo]
    refine hout.outcome frames ((site_ready _).trans (site_withTail _ _))
      ((content_ready _).trans (content_withTail _ _)) ((parts_ready _).trans (parts_withTail _ _)) ?_ ?_
    · rw [htail]
      exact hlength tail rfl
    · have hsome : tail ≠ [] := fun hnil => by
        have hnone : a.info.offset + extent - out.cursor = 0 := (hlength tail rfl).symm.trans (hnil ▸ rfl)
        exact hless (Nat.le_of_sub_eq_zero hnone)
      have hpath : Place.path ⟨out.atom.withTail tail, frames⟩ = Place.path ⟨a, frames⟩ := by
        rw [Place.path, Place.path, withTail, info_mapInfo, hout.info]
      rw [htail, hv, Ledger.warn, hledger, hpath, Warning.leftovers, if_neg hsome]
      rfl

/-- A block array that was loaded has its elements back to back from where it stands, none of which goes
past its end, and a tail of the bytes that they leave; both together are its extent. When elements are known
to take some bytes, there are as many as fit, a shorter one of what is left if they are plain blocks, and
otherwise a tail of what is left. The array has one warning of its own if it has a tail, and none if not. -/
theorem load_partitioned {a : Atom κ} (ha : a.info.layout = .bytes (.array element (.block extent)))
    (s : LoadState κ) :
    Ends (load env depth frames a) s fun out t =>
      out.Partitions element extent frames a s.ledger t.ledger := by
  cases depth with
  | zero => exact Ends.pure Error.of_absent
  | succ depth =>
    have hcleared : a.cleared.info.layout = .bytes (.array element (.block extent)) :=
      (Info.layout_of_site (site_cleared a)).trans ha
    have hpath : Place.path ⟨a.cleared, frames⟩ = Place.path ⟨a, frames⟩ :=
      congrArg (Place.pathOnto [] · frames) (Info.name_of_site (site_cleared a))
    rw [load, ha]
    refine Ends.via (fun b t => b = a.cleared ∧ t.ledger.warnings = s.ledger.warnings)
      ⟨rfl, Ledger.warnings_releaseAll s.ledger a.parts⟩ fun b t ht => ?_
    obtain ⟨rfl, hquiet⟩ := ht
    refine (partitions_loadBlock env depth frames (isBlank_cleared a) hcleared t).mono fun out u hu hok => ?_
    obtain ⟨hsite, hpartitioned, early, hwarnings, hearly⟩ := hu hok
    rw [hpath] at hwarnings hearly
    exact ⟨hsite.trans (site_cleared a), hpartitioned, early, hquiet ▸ hwarnings, hearly⟩

end Load

def fiveBytes : LoadState Unit := ⟨{}, [.memory #[65, 0, 66, 67, 68] false 0], .source 0⟩

/-- Five bytes are two words and a tail; three blocks, the last of which is shorter; or a text that ends with
a zero and a tail, since no zero ends a second one. -/
theorem load_partitioned_of_five :
    let array (element : Layout Unit) : Atom Unit := .blank 0 "a" (.bytes (.array element (.block 5))) 0
    let run (element : Layout Unit) := load ⟨{}, .endingWith 0⟩ 2 [] (array element) fiveBytes
    let shown (element : Layout Unit) := ((run element).1.error?, (run element).1.atom.parts.map Atom.size,
      (run element).1.atom.info.tail, (run element).2.ledger.warnings)
    let divided (element : Layout Unit) :=
      (run element).1.Partitions element 5 [] (array element) fiveBytes.ledger (run element).2.ledger
    shown (.int (.u16 .little)) = (none, [2, 2], [68], [.leftover ["a"] 1])
      ∧ shown (.block 2) = (none, [2, 2, 1], [], [])
      ∧ shown (.text ⟨.utf8, .terminated⟩) = (none, [2], [66, 67, 68], [.leftover ["a"] 3])
      ∧ divided (.int (.u16 .little)) ∧ divided (.block 2) ∧ divided (.text ⟨.utf8, .terminated⟩) := by
  intro array run shown divided
  have hdivided (element : Layout Unit) : divided element :=
    load_partitioned ⟨{}, .endingWith 0⟩ 2 [] (a := array element) rfl fiveBytes
  exact ⟨by decide +kernel, by decide +kernel, by decide +kernel, hdivided _, hdivided _, hdivided _⟩

end BinaryLayout
