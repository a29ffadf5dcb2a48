import Mathlib.Data.List.Nodup
import BinaryLayout.Proofs.Document.Places
import BinaryLayout.Proofs.Handles.Edit

/-!
# Handles of a document

In a balanced document every handle that was made is that of exactly one atom or free exactly once. It stays
balanced when a tree in it is changed, added or removed and the handles are accounted for.

## Main definitions

* `Document.Balanced`: well-shaped outermost atoms whose handles and the free ones are all.

## Main statements

* `Document.Balanced.put`, `Document.Balanced.add`, `Document.Balanced.remove`: changes of the
  outermost atoms.
-/

namespace BinaryLayout

variable {κ : Type}

open Atom

namespace Atom

mutual

theorem holds_iff (id : Nat) : ∀ a : Atom κ, holds id a = true ↔ 0 < a.tally id
  | .node info content parts => by
    rw [holds, tally, Bool.or_eq_true, anyHolds_iff id parts, beq_iff_eq]
    split <;> omega

theorem anyHolds_iff (id : Nat) : ∀ as : List (Atom κ), anyHolds id as = true ↔ 0 < tallies id as
  | [] => by simp [anyHolds, tallies]
  | a :: as => by
    rw [anyHolds, tallies, Bool.or_eq_true, holds_iff id a, anyHolds_iff id as]
    omega

end

theorem tally_pos (a : Atom κ) : 0 < a.tally a.info.id := by
  rw [tally_eq, if_pos rfl]
  omega

theorem tallies_pos {a : Atom κ} {as : List (Atom κ)} (h : a ∈ as) (id : Nat) :
    a.tally id ≤ tallies id as := by
  induction as with
  | nil => cases h
  | cons b as ih =>
    rw [tallies]
    rcases List.mem_cons.1 h with rfl | h
    · omega
    · have := ih h
      omega

end Atom

namespace Place

mutual

/-- The traversal meets a handle as often as the tree has it. -/
theorem count_preorderIn (h : Nat) (frames : List (Frame κ)) : ∀ a : Atom κ,
    ((preorderIn frames a).map fun p => p.atom.info.id).count h = a.tally h
  | .node info content parts => by
    rw [preorderIn, List.map_cons, List.count_cons,
      count_preorderParts h frames info content [] parts, Atom.tally, Nat.add_comm]
    simp [Atom.info]

theorem count_preorderParts (h : Nat) (frames : List (Frame κ)) (info : Info κ)
    (content : Content) : ∀ left as : List (Atom κ),
    ((preorderParts frames info content left as).map fun p => p.atom.info.id).count h =
      tallies h as
  | _, [] => rfl
  | left, a :: as => by
    rw [preorderParts, List.map_append, List.count_append, count_preorderIn h _ a,
      count_preorderParts h frames info content (a :: left) as, tallies]

end

end Place

/-- The outermost atom has the handle of the place. -/
theorem Place.holds_root (p : Place κ) : p.root.atom.holds p.atom.info.id = true := by
  have hwhole : p.root.atom.tally p.atom.info.id
      = p.atom.tally p.atom.info.id + Frame.tallies p.atom.info.id p.frames :=
    Place.tally_assemble p.atom.info.id p.atom p.frames
  have hself := p.atom.tally_pos
  rw [holds_iff]
  omega

/-- The places of a document have a handle as often as its outermost atoms do. -/
theorem Document.count_places (d : Document κ) (h : Nat) :
    (d.places.map fun p => p.atom.info.id).count h = tallies h d.roots := by
  rw [Document.places_eq]
  induction d.roots with
  | nil => rfl
  | cons a as ih =>
    rw [List.flatMap_cons, List.map_append, List.count_append, ih, tallies, Place.preorder,
      Place.count_preorderIn]

/-- The outermost atoms are well shaped, and each handle that was made is that of one atom or free. -/
structure Document.Balanced (d : Document κ) : Prop where
  shaped : ∀ a ∈ d.roots, Everywhere Shaped a
  balance : ∀ h, tallies h d.roots + d.ledger.balance h = 0

namespace Document.Balanced

variable {d : Document κ}

/-- No handle occurs twice. -/
theorem tallies_le (hd : d.Balanced) (h : Nat) : tallies h d.roots ≤ 1 := by
  have hbalance := hd.balance h
  rw [Ledger.balance] at hbalance
  split at hbalance <;> omega

/-- The places have different handles. -/
theorem nodup (hd : d.Balanced) : (d.places.map fun p => p.atom.info.id).Nodup := by
  refine List.nodup_iff_count_le_one.2 fun h => ?_
  rw [d.count_places]
  exact hd.tallies_le h

/-- A handle tells its place. -/
theorem eq_of_id (hd : d.Balanced) {p q : Place κ} (hp : p ∈ d.places) (hq : q ∈ d.places)
    (h : p.atom.info.id = q.atom.info.id) : p = q :=
  List.inj_on_of_nodup_map hd.nodup hp hq h

/-- The place of an outermost atom is found by its handle. -/
theorem find?_root (hd : d.Balanced) {r : Atom κ} (hr : r ∈ d.roots) :
    d.find? r.info.id = some ⟨r, []⟩ := by
  have hmem : (⟨r, []⟩ : Place κ) ∈ d.places := Document.mem_places.2 hr
  obtain ⟨p, hp, hfind, hid⟩ := Document.find?_of_live (Document.live_of_mem hmem)
  rw [hfind, hd.eq_of_id hp hmem hid]

/-- A handle of an outermost atom occurs in no other. -/
theorem tally_others (hd : d.Balanced) {r b : Atom κ} {before after : List (Atom κ)}
    (hroots : d.roots = before ++ r :: after) (hb : b ∈ before ∨ b ∈ after) :
    r.tally b.info.id = 0 := by
  have hle := hd.tallies_le b.info.id
  have hpos := b.tally_pos
  rw [hroots, tallies_append, tallies] at hle
  rcases hb with hb | hb
  · have := tallies_pos hb b.info.id
    omega
  · have := tallies_pos hb b.info.id
    omega

/-- The outermost atom that has a handle is the one that its place is in. -/
theorem eq_root_of_holds (hd : d.Balanced) {a : Atom κ} (ha : a ∈ d.roots) {p : Place κ} (hp : p ∈ d.places)
    (h : a.holds p.atom.info.id = true) : p.root.atom = a := by
  obtain ⟨before, after, hroots⟩ := List.append_of_mem ha
  have hle := hd.tallies_le p.atom.info.id
  have hroot := Document.mem_places.1 hp
  have hown := (holds_iff _ _).1 p.holds_root
  rw [holds_iff] at h
  rw [hroots, tallies_append, tallies] at hle
  rw [hroots, List.mem_append, List.mem_cons] at hroot
  rcases hroot with hroot | hroot | hroot
  · have := tallies_pos hroot p.atom.info.id
    omega
  · exact hroot
  · have := tallies_pos hroot p.atom.info.id
    omega

/-- A place in another tree stays in another tree. -/
theorem holds_elsewhere (hd : d.Balanced) {a : Atom κ} (ha : a ∈ d.roots) {p q : Place κ} (hp : p ∈ d.places)
    (hroot : q.root = p.root) (h : a.holds p.atom.info.id = false) : a.holds q.atom.info.id = false := by
  refine Bool.eq_false_iff.2 fun hq => ?_
  have hin := hd.eq_root_of_holds ha (Document.mem_places_of_root hroot hp) hq
  rw [hroot] at hin
  rw [← hin, p.holds_root] at h
  cases h

/-- Putting an outermost atom in the place of one that has its handle leaves the others alone. -/
theorem replace_filter (hd : d.Balanced) {r : Atom κ} {before after : List (Atom κ)}
    (hroots : d.roots = before ++ r :: after) {bs : List (Atom κ)}
    (hbs : ∀ b ∈ bs, b ∈ before ∨ b ∈ after) :
    (replace r (bs.filter fun b => b.info.id = r.info.id || !anyHolds b.info.id r.parts)) = bs := by
  have hothers (b : Atom κ) (hb : b ∈ bs) :
      b.info.id ≠ r.info.id ∧ anyHolds b.info.id r.parts = false := by
    have hnone := hd.tally_others hroots (hbs b hb)
    rw [tally_eq] at hnone
    refine ⟨fun heq => ?_, ?_⟩
    · rw [heq, if_pos rfl] at hnone
      omega
    · rw [← Bool.not_eq_true, anyHolds_iff]
      omega
  have hfilter : (bs.filter fun b => b.info.id = r.info.id || !anyHolds b.info.id r.parts) = bs :=
    List.filter_eq_self.2 fun b hb => by simp [(hothers b hb).2]
  rw [hfilter, replace]
  exact (List.map_congr_left fun b hb => if_neg (hothers b hb).1).trans (List.map_id bs)

/-- The roots after a change of a certain one of them. -/
theorem put_among (hd : d.Balanced) {root : Atom κ} {before after : List (Atom κ)}
    (hroots : d.roots = before ++ root :: after) {m : Ledger κ} {q : Place κ}
    (hid : q.root.atom.info.id = root.info.id) (hshaped : Everywhere Shaped q.root.atom)
    (hbalance : ∀ h, q.root.atom.tally h + m.balance h = root.tally h + d.ledger.balance h) :
    ({ d with ledger := m }.put q) = { d with ledger := m, roots := before ++ q.root.atom :: after }
      ∧ ({ d with ledger := m }.put q).Balanced := by
  have hroot : root ∈ d.roots := by
    rw [hroots]
    exact List.mem_append_right _ List.mem_cons_self
  let e : Document κ := { d with ledger := m, roots := before ++ q.root.atom :: after }
  have he : e.Balanced := by
    refine ⟨fun a ha => ?_, fun h => ?_⟩
    · have hold := hd.shaped a
      rw [hroots] at hold
      simp only [e, List.mem_append, List.mem_cons] at ha hold
      rcases ha with ha | rfl | ha
      · exact hold (.inl ha)
      · exact hshaped
      · exact hold (.inr (.inr ha))
    · have hnew := hbalance h
      have hold := hd.balance h
      rw [hroots] at hold
      simp only [e, tallies_append, tallies] at hold ⊢
      omega
  have hput : ({ d with ledger := m }.put q) = e := by
    have hany : (d.roots.any fun a => a.info.id = q.root.atom.info.id) = true :=
      List.any_eq_true.2 ⟨root, hroot, by simp [hid]⟩
    have hbefore := he.replace_filter rfl fun b (hb : b ∈ before) => .inl hb
    have hafter := he.replace_filter rfl fun b (hb : b ∈ after) => .inr hb
    rw [replace] at hbefore hafter
    rw [Document.put, if_pos hany, hroots, replace, List.filter_append, List.filter_cons,
      if_pos (by simp [hid]), List.map_append, List.map_cons, hbefore, hafter, if_pos hid.symm]
  exact ⟨hput, hput ▸ he⟩

/-- The roots after a change of one of them. -/
theorem put (hd : d.Balanced) {root : Atom κ} (hroot : root ∈ d.roots) {m : Ledger κ} {q : Place κ}
    (hid : q.root.atom.info.id = root.info.id) (hshaped : Everywhere Shaped q.root.atom)
    (hbalance : ∀ h, q.root.atom.tally h + m.balance h = root.tally h + d.ledger.balance h) :
    ∃ before after, d.roots = before ++ root :: after
      ∧ ({ d with ledger := m }.put q) =
        { d with ledger := m, roots := before ++ q.root.atom :: after }
      ∧ ({ d with ledger := m }.put q).Balanced := by
  obtain ⟨before, after, hroots⟩ := List.append_of_mem hroot
  exact ⟨before, after, hroots, hd.put_among hroots hid hshaped hbalance⟩

/-- One more outermost atom. -/
theorem add (hd : d.Balanced) {a : Atom κ} {m : Ledger κ} {inBits : Bool}
    (ha : Arrives d.ledger inBits a m) :
    ({ d with ledger := m }.add a) = { d with ledger := m, roots := a :: d.roots }
      ∧ ({ d with ledger := m }.add a).Balanced := by
  let e : Document κ := { d with ledger := m, roots := a :: d.roots }
  have he : e.Balanced := by
    refine ⟨List.forall_mem_cons.2 ⟨ha.shaped, hd.shaped⟩, fun h => ?_⟩
    have hnew := ha.balance h
    have hold := hd.balance h
    simp only [e, tallies]
    omega
  have hadd : ({ d with ledger := m }.add a) = e := by
    have hfilter : (d.roots.filter fun b => !a.holds b.info.id) = d.roots := by
      refine List.filter_eq_self.2 fun b hb => ?_
      have hnone : a.tally b.info.id = 0 := he.tally_others (List.nil_append _).symm (.inr hb)
      have hholds : a.holds b.info.id = false := by
        rw [← Bool.not_eq_true, holds_iff]
        omega
      rw [hholds, Bool.not_false]
    rw [Document.add, hfilter]
  exact ⟨hadd, hadd ▸ he⟩

/-- A certain outermost atom less. -/
theorem remove_among (hd : d.Balanced) {a : Atom κ} {before after : List (Atom κ)}
    (hroots : d.roots = before ++ a :: after) :
    d.remove a = { d with ledger := d.ledger.release a, roots := before ++ after }
      ∧ (d.remove a).Balanced := by
  let e : Document κ := { d with ledger := d.ledger.release a, roots := before ++ after }
  have he : e.Balanced := by
    refine ⟨fun b hb => hd.shaped b ?_, fun h => ?_⟩
    · rw [hroots]
      simp only [e, List.mem_append] at hb
      grind
    · have hold := hd.balance h
      rw [hroots] at hold
      simp only [e, tallies_append, tallies, Ledger.balance_release] at hold ⊢
      omega
  have hremove : d.remove a = e := by
    have hkeep (bs : List (Atom κ)) (hbs : ∀ b ∈ bs, b ∈ before ∨ b ∈ after) :
        (bs.filter fun b => b.info.id ≠ a.info.id) = bs := by
      refine List.filter_eq_self.2 fun b hb => ?_
      have hnone := hd.tally_others hroots (hbs b hb)
      have hne : b.info.id ≠ a.info.id := by
        intro heq
        have hpos := a.tally_pos
        rw [heq] at hnone
        omega
      simpa using hne
    rw [Document.remove, hroots, List.filter_append, List.filter_cons, if_neg (by simp),
      hkeep before fun b hb => .inl hb, hkeep after fun b hb => .inr hb]
  exact ⟨hremove, hremove ▸ he⟩

/-- One outermost atom less. -/
theorem remove (hd : d.Balanced) {a : Atom κ} (ha : a ∈ d.roots) :
    ∃ before after, d.roots = before ++ a :: after
      ∧ d.remove a = { d with ledger := d.ledger.release a, roots := before ++ after }
      ∧ (d.remove a).Balanced := by
  obtain ⟨before, after, hroots⟩ := List.append_of_mem ha
  exact ⟨before, after, hroots, hd.remove_among hroots⟩

end Document.Balanced

end BinaryLayout
