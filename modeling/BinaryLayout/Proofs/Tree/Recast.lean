import BinaryLayout.Atom.Place

/-!
# Atoms with other infos

What an atom measures and which bytes it stands for depends on its content, and of its infos only on
the layouts and the tails. So a change of all infos of a tree that leaves those alone, such as one of
offsets or of handles, changes neither.

## Main definitions

* `Atom.recast`: an atom with a change made to its info and to those of all atoms below it.
* `Info.Keeping`: a change that leaves layouts and tails alone.

## Main statements

* `Atom.size_recast`, `Atom.bits_recast`, `Atom.serialize_recast`: what such a change leaves alone.
-/

namespace BinaryLayout

variable {κ : Type}

/-- The change leaves layouts and tails alone. -/
structure Info.Keeping (change : Info κ → Info κ) : Prop where
  layout : ∀ info, (change info).layout = info.layout
  tail : ∀ info, (change info).tail = info.tail

namespace Atom

mutual

/-- The atom with a change made to its info and to those of all atoms below it. -/
def recast (change : Info κ → Info κ) : Atom κ → Atom κ
  | .node info content parts => .node (change info) content (recastAll change parts)

/-- The atoms with a change made to all infos. -/
def recastAll (change : Info κ → Info κ) : List (Atom κ) → List (Atom κ)
  | [] => []
  | a :: as => recast change a :: recastAll change as

end

variable {change : Info κ → Info κ}

@[simp] theorem recastAll_eq (as : List (Atom κ)) : recastAll change as = as.map (recast change) := by
  induction as with
  | nil => rfl
  | cons a as ih => rw [recastAll, ih, List.map_cons]

theorem recast_node (info : Info κ) (content : Content) (parts : List (Atom κ)) :
    recast change (.node info content parts) =
      .node (change info) content (parts.map (recast change)) := by
  rw [recast, recastAll_eq]

@[simp] theorem info_recast (a : Atom κ) : (a.recast change).info = change a.info := by
  cases a
  rfl

@[simp] theorem content_recast (a : Atom κ) : (a.recast change).content = a.content := by
  cases a
  rfl

@[simp] theorem parts_recast (a : Atom κ) :
    (a.recast change).parts = a.parts.map (recast change) := by
  obtain ⟨info, content, parts⟩ := a
  rw [recast_node, parts_node, parts_node]

mutual

/-- Infos do not matter to the width of bits. -/
theorem bitCount_recast : ∀ a : Atom κ, (a.recast change).bitCount = a.bitCount
  | .node info content parts => by
    rw [recast]
    cases content <;> simp only [bitCount, bitCounts_recastAll parts]

theorem bitCounts_recastAll : ∀ as : List (Atom κ), bitCounts (recastAll change as) = bitCounts as
  | [] => rfl
  | a :: as => by
    simp only [recastAll, bitCounts, bitCount_recast a, bitCounts_recastAll as]

end

mutual

/-- Infos do not matter to the bits. -/
theorem writeBits_recast : ∀ (a : Atom κ) (w : BitWriter),
    (a.recast change).writeBits w = a.writeBits w
  | .node info content parts, w => by
    rw [recast]
    cases content <;> simp only [writeBits, writeAllBits_recastAll parts]

theorem writeAllBits_recastAll : ∀ (as : List (Atom κ)) (w : BitWriter),
    writeAllBits (recastAll change as) w = writeAllBits as w
  | [], _ => rfl
  | a :: as, w => by
    simp only [recastAll, writeAllBits, writeBits_recast a, writeAllBits_recastAll as]

end

/-! ## Changes that leave layouts and tails alone -/

theorem isBits_recast (h : Info.Keeping change) (a : Atom κ) : (a.recast change).isBits = a.isBits := by
  rw [isBits, isBits, info_recast, h.layout]

mutual

theorem contentSize_recast (h : Info.Keeping change) : ∀ a : Atom κ,
    (a.recast change).contentSize = a.contentSize
  | .node info content parts => by
    have hbits : (recast change (.node info content parts)).bitCount =
        bitCount (.node info content parts) := bitCount_recast _
    rw [recast] at hbits ⊢
    cases content <;>
      simp only [contentSize, hbits, h.layout, sizes_recastAll h parts, bitCounts_recastAll parts]

theorem sizes_recastAll (h : Info.Keeping change) : ∀ as : List (Atom κ),
    sizes (recastAll change as) = sizes as
  | [] => rfl
  | a :: as => by
    simp only [recastAll, sizes, contentSize_recast h a, sizes_recastAll h as, info_recast, h.tail]

end

theorem size_recast (h : Info.Keeping change) (a : Atom κ) : (a.recast change).size = a.size := by
  rw [size, size, contentSize_recast h, info_recast, h.tail]

theorem bits_recast (h : Info.Keeping change) (a : Atom κ) : (a.recast change).bits = a.bits := by
  rw [bits, bits, isBits_recast h, bitCount_recast, size_recast h]

theorem step_recast (h : Info.Keeping change) (inBits : Bool) (a : Atom κ) :
    (a.recast change).step inBits = a.step inBits := by
  rw [step, step, bits_recast h, size_recast h]

mutual

theorem serialize_recast (h : Info.Keeping change) (order : ByteOrder) : ∀ a : Atom κ,
    serialize order (a.recast change) = serialize order a
  | .node info content parts => by
    have hbits : writeBits (recast change (.node info content parts)) (.new order) =
        writeBits (.node info content parts) (.new order) := writeBits_recast _ _
    rw [recast] at hbits ⊢
    cases content <;>
      simp only [serialize, hbits, h.layout, h.tail, serializeAll_recastAll h order parts,
        writeAllBits_recastAll]

theorem serializeAll_recastAll (h : Info.Keeping change) (order : ByteOrder) : ∀ as : List (Atom κ),
    serializeAll order (recastAll change as) = serializeAll order as
  | [] => rfl
  | a :: as => by
    simp only [recastAll, serializeAll, serialize_recast h order a,
      serializeAll_recastAll h order as]

end

end Atom

end BinaryLayout
