import BinaryLayout.Edit.Pointer
import BinaryLayout.Proofs.Run
import BinaryLayout.Proofs.Tree.Shape

/-!
# Addresses and numbers of pointers

Where the address of a pointer is decided by offsets alone, the number that was found for an address
means that address, and it goes on to mean it for as long as neither the pointer nor an atom around
it moves.

## Main definitions

* `AddressPolicy.isPlain`: no rule decides the addresses.
* `Place.bearings`: all that such an address depends on, the layouts and the offsets of `Place.sites`.
* `Place.InStep`: the number of a followed pointer means where its referent stands.

## Main statements

* `Env.address_of_bearings`: places that agree in this agree in addresses.
* `Env.address_of_wireFor`: a number that was found for an address means it.
-/

namespace BinaryLayout

variable {κ : Type}

open Atom

/-- Addresses are counted from the start, from an atom around the pointer or from the pointer
itself, and no rule decides them. -/
def AddressPolicy.isPlain : AddressPolicy κ → Bool
  | absolute | relative _ | selfRelative => true
  | mapped .. | computed .. => false

/-! ## What an address depends on -/

/-- The sites of atoms, without what they hold. -/
def Frame.sites (frames : List (Frame κ)) : List (Info κ) := frames.map fun f => f.info.site

/-- The sites of an atom and of the atoms around it, the innermost first. -/
def Place.sites (p : Place κ) : List (Info κ) := p.atom.info.site :: Frame.sites p.frames

/-- The offset of the byte that holds the first bit of an atom at this site. -/
def Info.byteOffset (info : Info κ) : Nat :=
  if info.layout.isBits then info.offset / 8 else info.offset

/-- All that an address depends on about an atom: its layout and its offset. -/
def Info.bearing (info : Info κ) : AtomLayout κ × Nat := (info.layout, info.offset)

/-- The bearings of an atom and of the atoms around it, the innermost first. -/
def Place.bearings (p : Place κ) : List (AtomLayout κ × Nat) := p.sites.map Info.bearing

theorem Info.byteOffset_of_bearing {i j : Info κ} (h : i.bearing = j.bearing) :
    i.byteOffset = j.byteOffset := by
  obtain ⟨hlayout, hoffset⟩ := Prod.mk.inj h
  rw [byteOffset, byteOffset, hlayout, hoffset]

theorem Atom.byteOffset_of_bearing {a b : Atom κ} (h : a.info.site.bearing = b.info.site.bearing) :
    a.byteOffset = b.byteOffset :=
  Info.byteOffset_of_bearing h

namespace Place

variable {p q : Place κ}

theorem offset_of_bearings (h : p.bearings = q.bearings) : p.atom.info.offset = q.atom.info.offset :=
  congrArg Prod.snd (List.cons.inj h).1

/-- The site of the outermost atom is the last one. -/
theorem getLast?_sites (p : Place κ) : p.sites.getLast? = some p.root.atom.info.site := by
  obtain ⟨a, frames⟩ := p
  induction frames generalizing a with
  | nil => rfl
  | cons f frames ih =>
    rw [sites, Frame.sites, List.map_cons, List.getLast?_cons_cons]
    exact ih (f.plug a)

theorem sites_ancestors (p : Place κ) :
    (p.ancestors.map fun outer => outer.atom.info.site) = Frame.sites p.frames := by
  obtain ⟨a, frames⟩ := p
  show ((ancestorsOf a frames).map fun outer => outer.atom.info.site) = Frame.sites frames
  induction frames generalizing a with
  | nil => rfl
  | cons f frames ih =>
    rw [ancestorsOf, List.map_cons, ih]
    rfl

theorem sites_ancestorNamed? (p : Place κ) (name : String) :
    ((p.ancestorNamed? name).map fun outer => outer.atom.info.site)
      = (Frame.sites p.frames).find? fun info => info.layout.name == name := by
  rw [ancestorNamed?, ← sites_ancestors, List.find?_map]
  rfl

end Place

/-- What a pointer counts from depends on the bearings around it. -/
theorem Base.offset_of_bearings {p q : Place κ} (h : p.bearings = q.bearings) (base : Base) :
    base.offset p = base.offset q := by
  have hframes : (Frame.sites p.frames).map Info.bearing = (Frame.sites q.frames).map Info.bearing :=
    (List.cons.inj h).2
  cases base with
  | root =>
    have hlast (p : Place κ) : p.bearings.getLast? = some p.root.atom.info.site.bearing := by
      rw [Place.bearings, List.getLast?_map, Place.getLast?_sites, Option.map_some]
    have hroot : p.root.atom.info.site.bearing = q.root.atom.info.site.bearing := by
      rw [← Option.some.injEq, ← hlast, ← hlast, h]
    exact congrArg Except.ok (congrArg Prod.snd hroot)
  | parent =>
    obtain ⟨a, frames⟩ := p
    obtain ⟨b, others⟩ := q
    cases frames with
    | nil =>
      cases others with
      | nil => rfl
      | cons g others => cases hframes
    | cons f frames =>
      cases others with
      | nil => cases hframes
      | cons g others =>
        exact congrArg Except.ok (Atom.byteOffset_of_bearing (a := f.plug a) (b := g.plug b)
          (List.cons.inj hframes).1)
  | ancestor name =>
    have hfound (p : Place κ) : ((p.ancestorNamed? name).map fun outer => outer.atom.info.site.bearing)
        = ((Frame.sites p.frames).map Info.bearing).find? fun bearing => bearing.1.name == name := by
      rw [List.find?_map]
      exact (Option.map_map ..).symm.trans (congrArg (Option.map Info.bearing) (p.sites_ancestorNamed? name))
    have hsame := hfound p
    rw [hframes, ← hfound q] at hsame
    rw [offset, offset]
    cases hp : p.ancestorNamed? name with
    | none =>
      rw [hp, Option.map_none] at hsame
      rw [Option.map_eq_none_iff.1 hsame.symm]
    | some outer =>
      rw [hp, Option.map_some] at hsame
      obtain ⟨other, hq, hbearing⟩ := Option.map_eq_some_iff.1 hsame.symm
      rw [hq]
      exact congrArg Except.ok (Atom.byteOffset_of_bearing hbearing.symm)

namespace Env

variable {env : Env κ} {policy : AddressPolicy κ}

/-- The address that a number means depends on the bearings of the pointer and of the atoms around
it. -/
theorem address_of_bearings (hplain : policy.isPlain = true) {p q : Place κ} (h : p.bearings = q.bearings)
    (wire : Int) : env.address policy p wire = env.address policy q wire := by
  cases policy with
  | absolute => rfl
  | relative base => rw [address, address, base.offset_of_bearings h]
  | selfRelative => rw [address, address, Place.offset_of_bearings h]
  | mapped => cases hplain
  | computed => cases hplain

/-- It does not depend on anything else about their sites. -/
theorem address_of_sites (hplain : policy.isPlain = true) {p q : Place κ} (h : p.sites = q.sites)
    (wire : Int) : env.address policy p wire = env.address policy q wire :=
  address_of_bearings hplain (congrArg (List.map Info.bearing) h) wire

end Env

/-! ## Numbers that mean addresses -/

/-- An integer that a width of bits holds is the same in two's complement of that width. -/
theorem bmod_of_range {value : Int} {bits : Nat} (hlow : -pow2 bits ≤ value) (hhigh : value < pow2 bits) :
    Int.bmod value (pow2 (bits + 1)) = value := by
  refine Int.bmod_eq_of_le ?_ ?_ <;> rw [pow2_succ] <;> omega

/-- An address of 64 bits is the same in 128 bits of two's complement. -/
theorem bmod_of_word {address : Nat} (h : address < pow2 64) : Int.bmod address (pow2 128) = address := by
  have hle : pow2 64 ≤ pow2 127 := pow2_le_pow2 (by omega)
  exact bmod_of_range (by omega) (by omega)

theorem checkAddress_of_word {address : Nat} (h : address < pow2 64) :
    checkAddress address = .ok address := by
  have hword : (address : Int).toNat?.bind word? = some address := if_pos h
  rw [checkAddress, hword]

namespace IntFormat

/-- A stored integer reads back as itself, as far as 128 bits hold it. -/
theorem read_of_encode {t : IntFormat} {value : Int} {raw : Bytes}
    (h : t.encode (.signed value) = .ok raw) : t.read raw = Int.bmod value (pow2 128) := by
  obtain ⟨width, signed, order, hlow, hhigh⟩ := t
  simp only [encode, write, Codec.writeInt] at h
  split at h
  · rename_i hrange
    cases h
    have hpos : 0 ≤ value % pow2 (8 * width) :=
      Int.emod_nonneg _ (by have := pow2_pos (8 * width); omega)
    have hstored : (order.readNat (Codec.wrapInt order width value) : Int)
        = value % pow2 (8 * width) := by
      rw [Codec.wrapInt, ByteOrder.readNat_writeNat, Int.natCast_emod, Int.toNat_of_nonneg hpos,
        Int.emod_emod]
    cases signed with
    | false =>
      have hsame : value % pow2 (8 * width) = value := Int.emod_eq_of_lt hrange.1 hrange.2
      rw [read, if_neg Bool.false_ne_true, hstored, hsame]
    | true =>
      rw [read, if_pos rfl, Codec.readInt, signExtend, Codec.wrapInt, ByteOrder.length_writeNat,
        ← Codec.wrapInt, hstored]
      split
      · have hwidth : width = 16 := by omega
        subst hwidth
        exact Int.emod_bmod value _
      · have hle : pow2 (8 * width - 1) ≤ pow2 127 := pow2_le_pow2 (by omega)
        have hbits : 8 * width - 1 + 1 = 8 * width := by omega
        obtain ⟨hmin, hmax⟩ : -pow2 (8 * width - 1) ≤ value ∧ value < pow2 (8 * width - 1) := hrange
        have hown := bmod_of_range hmin hmax
        have hwide : Int.bmod value (pow2 128) = value := bmod_of_range (by omega) (by omega)
        rw [hbits] at hown
        rw [Int.emod_bmod, hown, hwide]
  · cases h

end IntFormat

namespace Env

variable {env : Env κ} {policy : AddressPolicy κ}

/-- A distance that is added back. -/
theorem addWide_distance {start address : Nat} (h : address < pow2 64) :
    addWide start (Int.bmod (address - start) (pow2 128)) = address := by
  have hsum : (start : Int) + (address - start) = address := by omega
  rw [addWide, Int.add_bmod_bmod, hsum, bmod_of_word h]

/-- A number that was found for an address, once it is stored, means the address. -/
theorem address_of_wireFor (hplain : policy.isPlain = true) {p : Place κ} {address : Nat} {wire : Int}
    (hwire : env.wireFor policy p address = .ok wire) {format : IntFormat} {raw : Bytes}
    (hraw : format.encode (.signed wire) = .ok raw) (hword : address < pow2 64) :
    env.address policy p (format.read raw) = .ok address := by
  rw [IntFormat.read_of_encode hraw]
  cases policy with
  | absolute =>
    cases hwire
    rw [Env.address, bmod_of_word hword, checkAddress_of_word hword]
  | relative base =>
    rw [wireFor] at hwire
    cases hstart : base.offset p with
    | error e =>
      rw [hstart] at hwire
      cases hwire
    | ok start =>
      rw [hstart] at hwire
      cases hwire
      show ((base.offset p).bind fun start => _) = _
      rw [hstart]
      show checkAddress (addWide start _) = _
      rw [addWide_distance hword, checkAddress_of_word hword]
  | selfRelative =>
    cases hwire
    rw [Env.address, addWide_distance hword, checkAddress_of_word hword]
  | mapped => cases hplain
  | computed => cases hplain

end Env

/-! ## Pointers in step -/

/-- If this is a followed pointer whose addresses no rule decides, and it does not refer to nothing,
then its number means where its referent stands. -/
def Place.InStep (env : Env κ) (p : Place κ) : Prop :=
  ∀ pointer wire referent, pointerAt p.atom = .ok pointer → pointer.policy.isPlain = true →
    wireOf pointer p.atom = .ok wire → p.atom.referent? = some referent →
      referent.info.null = false → referent.info.offset < pow2 64 →
        env.address pointer.policy p wire = .ok referent.info.offset

namespace Place

variable {env : Env κ} {p : Place κ}

theorem inStep_of_referent? (h : p.atom.referent? = none) : p.InStep env := by
  intro pointer wire referent _ _ _ hreferent
  rw [h] at hreferent
  cases hreferent

/-- What an atom around the pointer holds does not matter, and what the referent holds does not either. -/
theorem InStep.of_referent (h : p.InStep env) {q : Place κ} (hsites : q.sites = p.sites)
    (hcontent : q.atom.content = p.atom.content)
    (hreferent : q.atom.referent?.map Atom.info = p.atom.referent?.map Atom.info) : q.InStep env := by
  have hlayout : q.atom.info.layout = p.atom.info.layout :=
    Info.layout_of_site (List.cons.inj hsites).1
  intro pointer wire referent hpointer hplain hwire href
  rw [pointerAt, hlayout] at hpointer
  rw [wireOf, hcontent] at hwire
  rw [href, Option.map_some] at hreferent
  obtain ⟨other, hother, hinfo⟩ := Option.map_eq_some_iff.1 hreferent.symm
  rw [Env.address_of_sites hplain hsites, ← hinfo]
  exact h pointer wire other hpointer hplain hwire hother

theorem InStep.of_sites (h : p.InStep env) {q : Place κ} (hsites : q.sites = p.sites)
    (hcontent : q.atom.content = p.atom.content) (hparts : q.atom.parts = p.atom.parts) : q.InStep env := by
  have hreferent : q.atom.referent? = p.atom.referent? := by
    obtain ⟨⟨info, content, parts⟩, frames⟩ := p
    obtain ⟨⟨info', content', parts'⟩, frames'⟩ := q
    cases hcontent
    cases hparts
    cases content <;> first | rfl | (cases parts <;> rfl)
  exact h.of_referent hsites hcontent (congrArg (Option.map Atom.info) hreferent)

instance (env : Env κ) (p : Place κ) : Decidable (p.InStep env) :=
  match hpointer : pointerAt p.atom, hreferent : p.atom.referent? with
  | .error _, _ => isTrue fun _ _ _ h => by cases hpointer.symm.trans h
  | _, none => isTrue (inStep_of_referent? hreferent)
  | .ok pointer, some referent =>
    match hwire : wireOf pointer p.atom with
    | .error _ => isTrue fun _ _ _ h _ h' => by
      cases hpointer.symm.trans h
      cases hwire.symm.trans h'
    | .ok wire =>
      decidable_of_iff (pointer.policy.isPlain = true → referent.info.null = false →
          referent.info.offset < pow2 64 →
            (env.address pointer.policy p wire).toOption = some referent.info.offset) <| by
        constructor
        · intro h _ _ _ hp hplain hw hr hnull hword
          cases hpointer.symm.trans hp
          cases hwire.symm.trans hw
          cases hreferent.symm.trans hr
          exact ok_of_toOption (h hplain hnull hword)
        · intro h hplain hnull hword
          rw [h pointer wire referent hpointer hplain hwire hreferent hnull hword]
          rfl

end Place

end BinaryLayout
