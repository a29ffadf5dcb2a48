import BinaryLayout.Atom.Compare
import BinaryLayout.Proofs.Comparison.Whole
import BinaryLayout.Proofs.Naming.Members
import BinaryLayout.Proofs.Prediction.Load
import BinaryLayout.Proofs.Tree.Plain

/-!
# Leaves of the same path

Two atoms are compared leaf by leaf, and leaves are paired by the texts of their paths. These tell which part a
leaf is in, one part after another, so leaves of the same path are in the same parts of both atoms; and an array
has as many elements as the other one, because each element has a leaf.

## Main definitions

* `Atom.Plotted`: what is known of atoms that were loaded, when their members can be told apart.
* `Place.Matches`: leaves of the same paths hold the same bytes.

## Main statements

* `AtomLayout.Marks.join_inj`: a path tells which part it leads into.
* `Place.relative_eq`: a relative path is written from the segments between.
* `Place.compare_eq_nil_iff`: what a comparison looks at.
* `Place.matches_of_compare`: what a comparison finds no difference in.
-/

namespace BinaryLayout

variable {κ : Type}

open Atom

namespace Atom

/-- What is known of each atom that was loaded, when its members can be told apart. -/
structure Plotted (a : Atom κ) : Prop where
  conforms : a.Conforms
  shaped : a.Shaped
  whole : a.IsWhole
  predicted : a.Predicted
  legible : a.info.layout.Legible

/-- The segment of a part. There are no referents. -/
theorem Plotted.marks {a part : Atom κ} {i : Nat} (h : a.Plotted) (hpart : a.parts[i]? = some part) :
    a.info.layout.Marks i (Place.segment a.info part.info.name) := by
  refine h.conforms.marks hpart fun wire target policy hlayout => ?_
  have hcount := h.whole 0 (hlayout ▸ rfl)
  rw [List.length_eq_zero_iff] at hcount
  rw [hcount] at hpart
  cases hpart
end Atom

/-! ## Paths of leaves -/

namespace AtomLayout.Marks

variable {layout : AtomLayout κ} {i j : Nat} {segment segment' : String}

/-- A joined text tells which part its first segment is of, and what follows. -/
theorem join_inj (h : layout.Marks i segment) (h' : layout.Marks j segment') (hlegible : layout.Legible)
    {inner inner' : String} (heq : Path.join segment inner = Path.join segment' inner') : i = j ∧ inner = inner' := by
  have hnamed {k : Nat} {name : String} (hname : layout.memberNames[k]? = some name) :
      layout.isArray = false ∧ ∀ root order, layout ≠ .bytes (.bits root order) := by
    rcases layout with layout | layout <;> cases layout <;> first | cases hname | exact ⟨rfl, nofun⟩
  cases h with
  | name hname =>
    cases h' with
    | name hname' =>
      obtain ⟨rfl, hinner⟩ := Path.join_name_inj (hlegible.names _ (List.mem_of_getElem? hname))
        (hlegible.names _ (List.mem_of_getElem? hname')) heq
      have hi := (List.getElem?_eq_some_iff.1 hname).1
      exact ⟨(List.getElem?_inj hi hlegible.distinct).1 (hname.trans hname'.symm), hinner⟩
    | index harray =>
      rw [(hnamed hname).1] at harray
      cases harray
    | root hlayout => exact absurd hlayout ((hnamed hname).2 _ _)
  | index harray =>
    cases h' with
    | name hname =>
      rw [(hnamed hname).1] at harray
      cases harray
    | index => exact Path.join_index_inj heq
    | root hlayout =>
      rw [hlayout] at harray
      cases harray
  | root hlayout hi =>
    cases h' with
    | name hname => exact absurd hlayout ((hnamed hname).2 _ _)
    | index harray =>
      rw [hlayout] at harray
      cases harray
    | root _ hj =>
      rw [Path.join_empty_left, Path.join_empty_left] at heq
      exact ⟨hi.trans hj.symm, heq⟩

/-- Elements are marked by their indices. -/
theorem eq_index (h : layout.Marks i segment) (harray : layout.isArray = true) : segment = Path.index i := by
  cases h with
  | name hname =>
    rcases layout with layout | layout <;> cases layout <;> first | cases hname | cases harray
  | index => rfl
  | root hlayout =>
    rw [hlayout] at harray
    cases harray

/-- No segment starts with a dot. -/
theorem head?_ne (h : layout.Marks i segment) (hlegible : layout.Legible) : segment.toList.head? ≠ some '.' := by
  cases h with
  | name hname =>
    intro hhead
    exact (hlegible.names _ (List.mem_of_getElem? hname)).dot (List.mem_of_head? hhead)
  | index =>
    rw [Place.toList_index]
    exact fun hhead => absurd (Option.some.inj hhead) (by decide)
  | root => exact nofun

end AtomLayout.Marks

namespace Place

variable {p q x y : Place κ} {i : Nat}

theorem mem_leaves : x ∈ p.leaves ↔ x ∈ p.preorder ∧ x.atom.parts = [] := by
  rw [leaves, walk_eq_preorder, List.mem_filter, List.isEmpty_iff]

theorem self_mem_leaves (h : p.atom.parts = []) : p ∈ p.leaves := mem_leaves.2 ⟨self_mem_preorder p, h⟩

theorem mem_leaves_of_part (hq : q ∈ p.parts) (hx : x ∈ q.leaves) : x ∈ p.leaves :=
  mem_leaves.2 ⟨mem_preorder_of_part hq (mem_leaves.1 hx).1, (mem_leaves.1 hx).2⟩

/-- A leaf is the atom itself, or it is in one of its parts. -/
theorem leaf_cases (hx : x ∈ p.leaves) : x = p ∧ p.atom.parts = [] ∨ ∃ q ∈ p.parts, x ∈ q.leaves := by
  obtain ⟨hmem, hnil⟩ := mem_leaves.1 hx
  rw [preorder_eq, List.mem_cons, List.mem_flatMap] at hmem
  rcases hmem with rfl | ⟨q, hq, hx⟩
  · exact .inl ⟨rfl, hnil⟩
  · exact .inr ⟨q, hq, mem_leaves.2 ⟨hx, hnil⟩⟩

/-- The part of a number. -/
theorem exists_part (hi : i < p.atom.parts.length) : ∃ q ∈ p.parts, p.atom.parts[i]? = some q.atom := by
  obtain ⟨q, hdown, hatom⟩ := down?_of_part (List.getElem?_eq_getElem hi)
  exact ⟨q, mem_parts.2 (up?_down? hdown), hatom ▸ List.getElem?_eq_getElem hi⟩

/-- Every tree has a leaf. -/
theorem exists_leaf (p : Place κ) : ∃ x, x ∈ p.leaves := by
  induction p using induction_parts with
  | h p ih =>
    cases hparts : p.atom.parts with
    | nil => exact ⟨p, self_mem_leaves hparts⟩
    | cons a as =>
      obtain ⟨q, hq, -⟩ := exists_part (p := p) (i := 0) (by rw [hparts]; exact Nat.succ_pos _)
      obtain ⟨x, hx⟩ := ih q hq
      exact ⟨x, mem_leaves_of_part hq hx⟩

theorem text_inside (hq : q ∈ p.parts) (hx : x ∈ q.preorder) :
    (p.inside x).text = Path.join (segment p.atom.info q.atom.info.name) (q.inside x).text := by
  rw [inside_part hq hx, Path.text_cons]

/-- No relative path starts with a dot. -/
theorem head?_text_inside (hp : Everywhere Plotted p.atom) (hx : x ∈ p.preorder) :
    (p.inside x).text.toList.head? ≠ some '.' := by
  induction p using induction_parts with
  | h p ih =>
    rw [preorder_eq, List.mem_cons, List.mem_flatMap] at hx
    rcases hx with rfl | ⟨q, hq, hx⟩
    · rw [inside_self]
      exact nofun
    · rw [text_inside hq hx]
      obtain ⟨i, hpart, -⟩ := down?_of_mem_parts hq
      have hmarks := hp.here.marks hpart
      generalize segment p.atom.info q.atom.info.name = mark at hmarks ⊢
      by_cases hmark : mark = ""
      · rw [hmark, Path.join_empty_left]
        exact ih q hq (hp.part (mem_parts_atom hq)) hx
      · obtain ⟨c, cs, hcs⟩ := List.exists_cons_of_ne_nil (l := mark.toList) (by simpa using hmark)
        have hhead := hmarks.head?_ne hp.here.legible
        rw [Path.toList_join hmark, hcs]
        rwa [hcs] at hhead

/-- Taking away the outer part of a joined text, and the dot. -/
theorem below_join (outer : String) {inner : String} (hhead : inner.toList.head? ≠ some '.') :
    below outer.toList (Path.join outer inner).toList = inner.toList := by
  have hkeep : inner.toList.dropWhile (· = '.') = inner.toList := by
    cases hinner : inner.toList with
    | nil => rfl
    | cons c cs =>
      rw [hinner] at hhead
      exact List.dropWhile_cons_of_neg fun hc => hhead (congrArg some (of_decide_eq_true hc))
  by_cases houter : outer = ""
  · rw [houter, Path.join_empty_left]
    exact hkeep
  · rw [Path.toList_join houter, below, if_pos (List.isPrefixOf_iff_prefix.2 (List.prefix_append _ _)),
      List.drop_left, Path.suffix]
    split
    · rename_i hinner
      rw [hinner]
      rfl
    · split
      · exact hkeep
      · rw [List.dropWhile_cons_of_pos (by simp), hkeep]

/-- A relative path is written from the segments between. -/
theorem relative_eq (hp : Everywhere Plotted p.atom) (hx : x ∈ p.preorder) :
    p.relative x = (p.inside x).text := by
  rw [relative, ← path_append_inside hx, Path.text_append, below_join _ (head?_text_inside hp hx),
    String.ofList_toList]

/-! ## Leaves beside each other -/

/-- Each leaf of the first atom has one of the same path and the same bytes in the second, and no leaf of the
second has a path of its own. -/
structure Matches (standard : ByteOrder) (p q : Place κ) : Prop where
  forth : ∀ x ∈ p.leaves, ∃ y ∈ q.leaves, (p.inside x).text = (q.inside y).text
    ∧ x.serialize standard = y.serialize standard
  back : ∀ y ∈ q.leaves, ∃ x ∈ p.leaves, (p.inside x).text = (q.inside y).text

variable {standard : ByteOrder}

/-- What a comparison looks at: each leaf of the earlier atom beside the first of its path in the later one, and
the paths of the later one. -/
theorem compare_eq_nil_iff : p.compare standard q = [] ↔
    (∀ m ∈ p.namedLeaves, ∃ n ∈ q.namedLeaves.find? (fun n => n.1 == m.1),
      m.2.serialize standard = n.2.serialize standard)
    ∧ ∀ n ∈ q.namedLeaves, ∃ m ∈ p.namedLeaves, m.1 = n.1 := by
  have hleaf (m : String × Place κ) : difference? standard (byPath q.namedLeaves) m = none
      ↔ ∃ n ∈ q.namedLeaves.find? (fun n => n.1 == m.1), m.2.serialize standard = n.2.serialize standard := by
    rw [difference?, getElem?_byPath]
    cases q.namedLeaves.find? (fun n => n.1 == m.1) <;> simp
  have hnew (n : String × Place κ) : (!(byPath p.namedLeaves).contains n.1) = true
      ↔ ¬∃ m ∈ p.namedLeaves, m.1 = n.1 := by
    rw [Std.HashMap.contains_eq_isSome_getElem?, getElem?_byPath, Option.isSome_map, Bool.not_eq_true',
      Bool.eq_false_iff, Ne, List.find?_isSome]
    simp only [beq_iff_eq]
  rw [compare, List.append_eq_nil_iff, List.filterMap_eq_nil_iff, List.map_eq_nil_iff, List.filter_eq_nil_iff]
  simp only [hleaf, hnew, not_not]

/-- Without a table of paths, it can be decided from the definitions alone. -/
instance : Decidable (p.compare standard q = []) := decidable_of_iff _ compare_eq_nil_iff.symm

/-- What a comparison finds no difference in. -/
theorem matches_of_compare (hp : Everywhere Plotted p.atom) (hq : Everywhere Plotted q.atom)
    (h : p.compare standard q = []) : p.Matches standard q := by
  have hnamed {r : Place κ} (hr : Everywhere Plotted r.atom) {m : String × Place κ} (hm : m ∈ r.namedLeaves) :
      m.2 ∈ r.leaves ∧ m.1 = (r.inside m.2).text := by
    obtain ⟨x, hx, rfl⟩ := List.mem_map.1 hm
    exact ⟨hx, relative_eq hr (mem_leaves.1 hx).1⟩
  obtain ⟨hold, hnew⟩ := compare_eq_nil_iff.1 h
  constructor
  · intro x hx
    obtain ⟨m, hfound, hbytes⟩ := hold (p.relative x, x) (List.mem_map_of_mem hx)
    obtain ⟨hmem, htext⟩ := hnamed hq (List.mem_of_find?_eq_some hfound)
    have hpath : m.1 = p.relative x := by simpa using List.find?_some hfound
    rw [relative_eq hp (mem_leaves.1 hx).1, htext] at hpath
    exact ⟨m.2, hmem, hpath.symm, hbytes⟩
  · intro y hy
    obtain ⟨m, hm, hpath⟩ := hnew (q.relative y, y) (List.mem_map_of_mem hy)
    obtain ⟨hmem, htext⟩ := hnamed hp hm
    exact ⟨m.2, hmem, by rw [← htext, hpath, relative_eq hq (mem_leaves.1 hy).1]⟩

namespace Matches

/-- An array has no element that the other one lacks. -/
theorem length_le (hp : Everywhere Plotted p.atom) (hq : Everywhere Plotted q.atom)
    (hlayout : p.atom.info.layout = q.atom.info.layout) (harray : p.atom.info.layout.isArray = true)
    (h : ∀ x ∈ p.leaves, ∃ y ∈ q.leaves, (p.inside x).text = (q.inside y).text) :
    p.atom.parts.length ≤ q.atom.parts.length := by
  refine Nat.le_of_not_lt fun hlt => ?_
  obtain ⟨p', hp', hpart⟩ := exists_part hlt
  obtain ⟨x, hx⟩ := exists_leaf p'
  obtain ⟨y, hy, htext⟩ := h x (mem_leaves_of_part hp' hx)
  have hmarks := hp.here.marks hpart
  rw [text_inside hp' (mem_leaves.1 hx).1] at htext
  rcases leaf_cases hy with ⟨rfl, -⟩ | ⟨q', hq', hy⟩
  · rw [hmarks.eq_index harray, inside_self] at htext
    exact absurd htext (Path.join_ne_empty (Path.index_ne_empty _) _)
  · rw [text_inside hq' (mem_leaves.1 hy).1] at htext
    obtain ⟨j, hpart', -⟩ := down?_of_mem_parts hq'
    have hmarks' := hq.here.marks hpart'
    rw [← hlayout] at hmarks'
    obtain ⟨rfl, -⟩ := hmarks.join_inj hmarks' hp.here.legible htext
    exact absurd (List.getElem?_eq_some_iff.1 hpart').1 (Nat.lt_irrefl _)

end Matches
end Place

end BinaryLayout
