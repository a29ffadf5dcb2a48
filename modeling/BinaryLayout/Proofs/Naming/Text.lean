import Mathlib.Data.List.TakeWhile
import BinaryLayout.Atom.Place

/-!
# Reading written paths

A written path is cut at its dots, and each piece at its opening brackets. Nothing in a path says where its
segments ended when they were joined: an index segment shares a piece with what stands before it, and an empty
segment leaves no trace. Still, what a segment leads to and what the rest of the path leads to from there is
what the joined path leads to, as long as no name has a dot or a bracket in it.

## Main definitions

* `Path.IsName`: a segment that is read as one name.

## Main statements

* `Place.readIndex?_digits`: a written index is read as the number that it was written from.
* `Path.join_name_inj`, `Path.join_index_inj`: a joined text tells its first segment.
* `Place.lookup_join_field`, `Place.lookup_join_item`: one segment, and then the rest.
* `Place.lookup_of_members`: a place with the members of another one.
-/

namespace BinaryLayout

variable {κ : Type}

/-- The segment is one name when a path is read: it is not empty, and no dot and no bracket cuts it. -/
structure Path.IsName (name : String) : Prop where
  nonempty : name ≠ ""
  dot : '.' ∉ name.toList
  bracket : '[' ∉ name.toList

namespace Place

/-! ## Cutting -/

section Cut

variable {separator : Char} {front back : List Char}

theorem cut_of_not_mem (h : separator ∉ front) : cut separator front = [front] := by
  induction front with
  | nil => rfl
  | cons c cs ih =>
    obtain ⟨hc, hcs⟩ := List.ne_and_not_mem_of_not_mem_cons h
    rw [cut, if_neg (Ne.symm hc), ih hcs]

theorem exists_cut (separator : Char) (text : List Char) :
    ∃ piece rest, cut separator text = piece :: rest := by
  cases text with
  | nil => exact ⟨[], [], rfl⟩
  | cons c cs =>
    rw [cut]
    split
    · exact ⟨_, _, rfl⟩
    · split <;> exact ⟨_, _, rfl⟩

/-- At a separator the pieces before it and those after it come apart. -/
theorem cut_append (separator : Char) (front back : List Char) :
    cut separator (front ++ separator :: back) = cut separator front ++ cut separator back := by
  induction front with
  | nil => simp [cut]
  | cons c cs ih =>
    obtain ⟨piece, rest, hcut⟩ := exists_cut separator cs
    rw [List.cons_append, cut, cut, ih, hcut]
    split <;> rfl

/-- What has no separator in it goes to the first piece. -/
theorem cut_append_of_not_mem (h : separator ∉ front) {piece : List Char} {rest : List (List Char)}
    (hback : cut separator back = piece :: rest) :
    cut separator (front ++ back) = (front ++ piece) :: rest := by
  induction front with
  | nil => exact hback
  | cons c cs ih =>
    obtain ⟨hc, hcs⟩ := List.ne_and_not_mem_of_not_mem_cons h
    rw [List.cons_append, cut, if_neg (Ne.symm hc), ih hcs, List.cons_append]

theorem pieces_of_not_mem (h : separator ∉ front) (hne : front ≠ []) : pieces separator front = [front] := by
  rw [pieces, cut_of_not_mem h]
  simpa using hne

theorem pieces_append (separator : Char) (front back : List Char) :
    pieces separator (front ++ separator :: back) = pieces separator front ++ pieces separator back := by
  rw [pieces, cut_append, List.filter_append, pieces, pieces]

/-- A separator in front opens no piece. -/
theorem pieces_cons (separator : Char) (back : List Char) :
    pieces separator (separator :: back) = pieces separator back :=
  pieces_append separator [] back

end Cut

/-! ## Indices -/

/-- The decimal digits of an index. -/
theorem isDigit_of_mem {i : Nat} {c : Char} (h : c ∈ (toString i).toList) : c.isDigit = true :=
  Nat.isDigit_of_mem_toDigits (by decide) (by decide) (Nat.toList_repr ▸ h : c ∈ Nat.toDigits 10 i)

theorem digits_ne_nil (i : Nat) : (toString i).toList ≠ [] :=
  (Nat.toList_repr ▸ Nat.toDigits_ne_nil : (Nat.repr i).toList ≠ [])

theorem not_mem_digits {c : Char} (h : c.isDigit = false) (i : Nat) : c ∉ (toString i).toList :=
  fun hmem => Bool.false_ne_true (h.symm.trans (isDigit_of_mem hmem))

theorem ofDigitChars_digits (i : Nat) : Nat.ofDigitChars 10 (toString i).toList 0 = i := by
  have hdigits : (toString i).toList = Nat.toDigits 10 i := Nat.toList_repr
  rw [hdigits]
  exact Nat.ofDigitChars_toDigits (by decide) (by decide)

/-- A written index is read as the number that it was written from. -/
theorem readIndex?_digits {i : Nat} (hi : i < pow2 64) : readIndex? (toString i).toList = some i := by
  have hall : (toString i).toList.all Char.isDigit = true :=
    List.all_eq_true.2 fun _ => isDigit_of_mem
  have hread : (toString i).toList.foldl (fun n c => 10 * n + (c.toNat - '0'.toNat)) 0 = i :=
    ofDigitChars_digits i
  rw [readIndex?]
  · simp only [hread, hall, List.isEmpty_iff, digits_ne_nil, not_true_eq_false, or_self, if_false]
    rw [word?, if_pos hi]
  · intro rest heq
    exact not_mem_digits (by decide : '+'.isDigit = false) i (heq ▸ List.mem_cons_self)

/-- The bracket after an index does not matter. -/
theorem dropWhile_bracket (i : Nat) :
    (((toString i).toList ++ [']']).reverse.dropWhile (· = ']')).reverse = (toString i).toList := by
  have hkeep : (toString i).toList.reverse.dropWhile (· = ']') = (toString i).toList.reverse := by
    refine List.dropWhile_eq_self_iff.2 fun hl heq => ?_
    have hmem : ']' ∈ (toString i).toList.reverse := of_decide_eq_true heq ▸ List.getElem_mem hl
    exact not_mem_digits (by decide) i (List.mem_reverse.1 hmem)
  rw [List.reverse_append, List.reverse_singleton, List.singleton_append, List.dropWhile_cons_of_pos (by simp),
    hkeep, List.reverse_reverse]

theorem toList_index (i : Nat) : (Path.index i).toList = '[' :: ((toString i).toList ++ [']']) := by
  rw [Path.index, Path.element, String.toList_append, String.toList_append]
  rfl

end Place

namespace Path

/-! ## Joined texts -/

/-- What follows a segment in a joined text. -/
def suffix (inner : String) : List Char :=
  if inner = "" then [] else if inner.toList.head? = some '[' then inner.toList else '.' :: inner.toList

theorem toList_join {segment : String} (hne : segment ≠ "") (inner : String) :
    (join segment inner).toList = segment.toList ++ suffix inner := by
  rw [join, suffix, if_neg hne]
  split
  · rw [List.append_nil]
  · split
    · rw [String.toList_append]
    · rw [String.toList_append, String.toList_append, List.append_assoc]
      rfl

/-- A segment is followed by a dot or a bracket. -/
theorem head?_suffix (inner : String) : ∀ c ∈ (suffix inner).head?, c = '.' ∨ c = '[' := by
  intro c hc
  rw [suffix] at hc
  split at hc
  · cases hc
  · split at hc
    · rename_i hbracket
      rw [hbracket, Option.mem_some_iff] at hc
      exact .inr hc.symm
    · rw [List.head?_cons, Option.mem_some_iff] at hc
      exact .inl hc.symm

/-- Without a dot in front it is the inner text again. -/
theorem suffix_inj {inner inner' : String} (h : suffix inner = suffix inner') : inner = inner' := by
  have hback (inner : String) :
      (if (suffix inner).head? = some '.' then (suffix inner).tail else suffix inner) = inner.toList := by
    by_cases hnil : inner = ""
    · simp [suffix, hnil]
    · by_cases hbracket : inner.toList.head? = some '[' <;> simp [suffix, hnil, hbracket]
  rw [← String.toList_inj, ← hback, h, hback]

/-- The first characters of two texts up to one of those that cannot stand in them. -/
theorem append_inj_of_stop {stops : Char → Bool} {front front' back back' : List Char}
    (hfront : ∀ c ∈ front, stops c = false) (hfront' : ∀ c ∈ front', stops c = false)
    (hback : ∀ c ∈ back.head?, stops c = true) (hback' : ∀ c ∈ back'.head?, stops c = true)
    (h : front ++ back = front' ++ back') : front = front' ∧ back = back' := by
  have htake {front back : List Char} (hfront : ∀ c ∈ front, stops c = false)
      (hback : ∀ c ∈ back.head?, stops c = true) : (front ++ back).takeWhile (fun c => !stops c) = front := by
    rw [List.takeWhile_append_of_pos fun c hc => by rw [hfront c hc]; rfl]
    cases back with
    | nil => rw [List.takeWhile_nil, List.append_nil]
    | cons c back => rw [List.takeWhile_cons_of_neg (by simp [hback c rfl]), List.append_nil]
  have hsame : front = front' := by rw [← htake hfront hback, h, htake hfront' hback']
  exact ⟨hsame, List.append_cancel_left (hsame ▸ h)⟩

/-- A name in front of a text, and the rest of it. -/
theorem join_name_inj {name name' inner inner' : String} (hname : IsName name) (hname' : IsName name')
    (h : join name inner = join name' inner') : name = name' ∧ inner = inner' := by
  have hfree {name : String} (hname : IsName name) : ∀ c ∈ name.toList, (c == '.' || c == '[') = false := by
    intro c hc
    rw [Bool.or_eq_false_iff, beq_eq_false_iff_ne, beq_eq_false_iff_ne]
    exact ⟨fun heq => hname.dot (heq ▸ hc), fun heq => hname.bracket (heq ▸ hc)⟩
  have hstop (inner : String) : ∀ c ∈ (suffix inner).head?, (c == '.' || c == '[') = true := by
    intro c hc
    rw [Bool.or_eq_true, beq_iff_eq, beq_iff_eq]
    exact head?_suffix inner c hc
  rw [← String.toList_inj, toList_join hname.nonempty, toList_join hname'.nonempty] at h
  obtain ⟨hsame, hback⟩ := append_inj_of_stop (hfree hname) (hfree hname') (hstop _) (hstop _) h
  exact ⟨String.toList_inj.1 hsame, suffix_inj hback⟩

theorem index_ne_empty (i : Nat) : index i ≠ "" := by
  rw [ne_eq, ← String.toList_inj, Place.toList_index]
  exact List.cons_ne_nil _ _

/-- An index in front of a text, and the rest of it. -/
theorem join_index_inj {i j : Nat} {inner inner' : String} (h : join (index i) inner = join (index j) inner') :
    i = j ∧ inner = inner' := by
  have hdigits (k : Nat) : ∀ c ∈ (toString k).toList, (c == ']') = false := by
    intro c hc
    rw [beq_eq_false_iff_ne]
    rintro rfl
    exact Place.not_mem_digits (by decide) k hc
  rw [← String.toList_inj, toList_join (index_ne_empty i), toList_join (index_ne_empty j), Place.toList_index,
    Place.toList_index, List.cons_append, List.cons_append, List.append_assoc, List.append_assoc, List.cons.injEq] at h
  obtain ⟨hsame, hback⟩ := append_inj_of_stop (hdigits i) (hdigits j) (by simp) (by simp) h.2
  refine ⟨?_, suffix_inj (List.cons.inj hback).2⟩
  rw [← Place.ofDigitChars_digits i, hsame, Place.ofDigitChars_digits j]

theorem join_ne_empty {segment : String} (hne : segment ≠ "") (inner : String) : join segment inner ≠ "" := by
  rw [ne_eq, ← String.toList_inj, toList_join hne]
  simpa using fun h => absurd h hne

end Path

namespace Place

/-! ## Segments -/

variable {p m q : Place κ} {name : String} {i : Nat}

/-- The text around an index only serves an error. -/
theorem followIndices_text {text : List Char} (text' : List Char) {indices : List (List Char)}
    (h : followIndices text p indices = .ok q) : followIndices text' p indices = .ok q := by
  induction indices generalizing p with
  | nil => exact h
  | cons index rest ih =>
    rw [followIndices] at h ⊢
    split at h
    · cases h
    · split at h
      · exact ih h
      · cases h

/-- One index, and then the rest. -/
theorem followIndices_digits {text : List Char} {rest : List (List Char)} (hi : i < pow2 64)
    (hm : p.item i = .ok m) :
    followIndices text p (((toString i).toList ++ [']']) :: rest) = followIndices text m rest := by
  simp only [followIndices, dropWhile_bracket, readIndex?_digits hi, hm]

/-- A name with indices after it. -/
theorem followPiece_name (hname : Path.IsName name) (hm : p.field name = .ok m) {indices : List Char}
    (hindices : ∀ c ∈ indices.head?, c = '[') :
    p.followPiece (name.toList ++ indices) = followIndices (name.toList ++ indices) m (pieces '[' indices) := by
  have hfree : ∀ c ∈ name.toList, decide (c ≠ '[') = true :=
    fun c hc => decide_eq_true fun heq => hname.bracket (heq ▸ hc)
  have hhead : indices.takeWhile (fun c => decide (c ≠ '[')) = [] ∧ indices.dropWhile (fun c => decide (c ≠ '['))
      = indices := by
    cases indices with
    | nil => exact ⟨rfl, rfl⟩
    | cons c cs =>
      obtain rfl := hindices c rfl
      exact ⟨rfl, rfl⟩
  rw [followPiece, List.takeWhile_append_of_pos hfree, List.dropWhile_append_of_pos hfree, hhead.1, hhead.2,
    List.append_nil]
  simp [hname.nonempty, hm]

/-- Indices without a name in front. -/
theorem followPiece_indices (indices : List Char) :
    p.followPiece ('[' :: indices) = followIndices ('[' :: indices) p (pieces '[' indices) := by
  rw [followPiece, ← pieces_cons]
  rfl

theorem lookup_empty : p.lookup "" = .ok p := rfl

/-- A piece that is followed by a dot. -/
theorem lookup_dot {piece : String} (hdot : '.' ∉ piece.toList) (hne : piece ≠ "")
    (hm : p.followPiece piece.toList = .ok m) (rest : String) : p.lookup (piece ++ "." ++ rest) = m.lookup rest := by
  have htext : (piece ++ "." ++ rest).toList = piece.toList ++ '.' :: rest.toList := by
    simp [String.toList_append]
  rw [lookup, htext, pieces_append, pieces_of_not_mem hdot (by simpa using hne), List.singleton_append,
    followPieces, hm]
  rfl

/-- A piece alone. -/
theorem lookup_piece {piece : String} (hdot : '.' ∉ piece.toList) (hne : piece ≠ "")
    (hm : p.followPiece piece.toList = .ok m) : p.lookup piece = .ok m := by
  rw [lookup, pieces_of_not_mem hdot (by simpa using hne), followPieces, hm]
  rfl

/-- A piece that goes on with an index. -/
theorem lookup_bracket {front : String} (hdot : '.' ∉ front.toList)
    (hm : ∀ indices q, m.followPiece ('[' :: indices) = .ok q →
      p.followPiece (front.toList ++ '[' :: indices) = .ok q)
    {rest : String} (hhead : rest.toList.head? = some '[') (h : m.lookup rest = .ok q) :
    p.lookup (front ++ rest) = .ok q := by
  obtain ⟨indices, hrest⟩ := List.head?_eq_some_iff.1 hhead
  obtain ⟨piece, others, hcut⟩ := exists_cut '.' indices
  have hback : cut '.' ('[' :: indices) = ('[' :: piece) :: others := by
    rw [cut, if_neg (by decide), hcut]
  have hother : pieces '.' ('[' :: indices) = ('[' :: piece) :: others.filter fun piece => !piece.isEmpty := by
    rw [pieces, hback]
    rfl
  have hfront : pieces '.' (front.toList ++ '[' :: indices)
      = (front.toList ++ '[' :: piece) :: others.filter fun piece => !piece.isEmpty := by
    rw [pieces, cut_append_of_not_mem hdot hback, List.filter_cons_of_pos (by simp)]
  rw [lookup, hrest, hother, followPieces] at h
  rw [lookup, String.toList_append, hrest, hfront, followPieces]
  split at h
  · rename_i n hn
    rw [hm _ _ hn]
    exact h
  · cases h

/-- The rest of a path is found from what its first segment leads to. -/
theorem lookup_join {segment rest : String} (hdot : '.' ∉ segment.toList) (hne : segment ≠ "")
    (hm : p.followPiece segment.toList = .ok m)
    (hindices : ∀ indices q, m.followPiece ('[' :: indices) = .ok q →
      p.followPiece (segment.toList ++ '[' :: indices) = .ok q)
    (h : m.lookup rest = .ok q) : p.lookup (Path.join segment rest) = .ok q := by
  rw [Path.join, if_neg hne]
  split
  · rename_i hrest
    rw [hrest, lookup_empty] at h
    cases h
    exact lookup_piece hdot hne hm
  · split
    · rename_i hhead
      exact lookup_bracket hdot hindices hhead h
    · rw [lookup_dot hdot hne hm]
      exact h

/-- A name, and then the rest. -/
theorem lookup_join_field {rest : String} (hname : Path.IsName name) (hm : p.field name = .ok m)
    (h : m.lookup rest = .ok q) : p.lookup (Path.join name rest) = .ok q := by
  refine lookup_join hname.dot hname.nonempty ?_ (fun indices n hn => ?_) h
  · have hpiece := followPiece_name hname hm (show ∀ c ∈ ([] : List Char).head?, c = '[' from nofun)
    rwa [List.append_nil] at hpiece
  · rw [followPiece_name hname hm (by simp), pieces_cons]
    rw [followPiece_indices] at hn
    exact followIndices_text _ hn

/-- An index, and then the rest. -/
theorem lookup_join_item {rest : String} (hi : i < pow2 64) (hm : p.item i = .ok m) (h : m.lookup rest = .ok q) :
    p.lookup (Path.join (Path.index i) rest) = .ok q := by
  have hfree {c : Char} (hdigit : c.isDigit = false) (hne : c ≠ ']') : c ∉ (toString i).toList ++ [']'] := by
    simpa [hne] using not_mem_digits hdigit i
  have hpieces : pieces '[' ((toString i).toList ++ [']']) = [(toString i).toList ++ [']']] :=
    pieces_of_not_mem (hfree (by decide) (by decide)) (by simp)
  refine lookup_join ?_ ?_ ?_ (fun indices n hn => ?_) h
  · rw [toList_index]
    exact List.not_mem_cons_of_ne_of_not_mem (by decide) (hfree (by decide) (by decide))
  · exact Path.index_ne_empty i
  · rw [toList_index, followPiece_indices, hpieces, followIndices_digits hi hm, followIndices]
  · rw [toList_index, List.cons_append, followPiece_indices, pieces_append, hpieces, List.singleton_append,
      followIndices_digits hi hm]
    rw [followPiece_indices] at hn
    exact followIndices_text _ hn

/-! ## Places with the same members -/

/-- A path leads on from a place that has the members of another one, unless it does not lead away from there at
all. -/
theorem lookup_of_members {text : String}
    (hfield : ∀ name m, q.field name = .ok m → p.field name = .ok m)
    (hitem : ∀ i m, q.item i = .ok m → p.item i = .ok m) (h : q.lookup text = .ok m) :
    p.lookup text = .ok m ∨ m = q := by
  -- Where a piece leads away from the other place, it goes through a member.
  have hindices (text : List Char) (indices : List (List Char)) {n : Place κ}
      (hn : followIndices text q indices = .ok n) :
      followIndices text p indices = .ok n ∨ n = q ∧ followIndices text p indices = .ok p := by
    cases indices with
    | nil =>
      cases hn
      exact .inr ⟨rfl, rfl⟩
    | cons index rest =>
      rw [followIndices] at hn ⊢
      split at hn
      · cases hn
      · split at hn
        · rename_i hitemAt
          rw [hitem _ _ hitemAt]
          exact .inl hn
        · cases hn
  have hpiece (piece : List Char) {n : Place κ} (hn : q.followPiece piece = .ok n) :
      p.followPiece piece = .ok n ∨ n = q ∧ p.followPiece piece = .ok p := by
    rw [followPiece] at hn ⊢
    split
    · rw [if_pos ‹_›] at hn
      exact hindices _ _ hn
    · rw [if_neg ‹_›] at hn
      split at hn
      · rename_i hfieldAt
        rw [hfield _ _ hfieldAt]
        exact .inl hn
      · cases hn
  rw [lookup] at h ⊢
  generalize pieces '.' text.toList = all at h
  induction all with
  | nil =>
    cases h
    exact .inr rfl
  | cons piece rest ih =>
    rw [followPieces] at h ⊢
    split at h
    · rename_i n hn
      rcases hpiece piece hn with hp | ⟨rfl, hp⟩
      · rw [hp]
        exact .inl h
      · rw [hp]
        exact ih h
    · cases h

end Place

end BinaryLayout
