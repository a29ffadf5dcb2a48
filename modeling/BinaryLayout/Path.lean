/-!
# Paths

A path names an atom by the segments from an outer atom down to it: field names, and index segments
such as `[3]` for the elements of arrays. Its text puts a dot between segments, except before an
index, and an empty segment leaves no trace in it.

## Main definitions

* `Path`: the segments, outermost first.
* `Path.index`: the segment of an array element.
* `Path.text`: the written form, such as `header.entries[3].name`.

## Main statements

* `Path.text_append`: a path may be written in two pieces that are joined.
-/

namespace BinaryLayout

/-- The segments from an outer atom to an inner one. -/
abbrev Path := List String

namespace Path

/-- The segment of the array element with the given name. -/
def element (name : String) : String := "[" ++ name ++ "]"

/-- The segment of the array element at `i`. -/
def index (i : Nat) : String := element (toString i)

/-- Two pieces of a written path, one inside the other. -/
def join (outer inner : String) : String :=
  if inner = "" then outer
  else if outer = "" then inner
  else if inner.toList.head? = some '[' then outer ++ inner
  else outer ++ "." ++ inner

def text (path : Path) : String := path.foldl join ""

@[simp] theorem join_empty_right (outer : String) : join outer "" = outer := by simp [join]

@[simp] theorem join_empty_left (inner : String) : join "" inner = inner := by
  unfold join
  split <;> simp_all

/-- Joining does not depend on where a path is taken apart. -/
theorem join_assoc (a b c : String) : join (join a b) c = join a (join b c) := by
  by_cases ha : a = ""
  · simp [ha]
  by_cases hb : b = ""
  · simp [hb]
  by_cases hc : c = ""
  · simp [hc]
  obtain ⟨x, xs, hx⟩ := List.exists_cons_of_ne_nil (l := b.toList) (by simpa using hb)
  by_cases h1 : x = '[' <;> by_cases h2 : c.toList.head? = some '['
  all_goals simp [join, ha, hb, hc, hx, h1, h2, String.append_assoc]

@[simp] theorem text_nil : text [] = "" := rfl

/-- Segments that follow a written path are joined to it. -/
theorem foldl_join (outer : String) (path : Path) :
    path.foldl join outer = join outer (text path) := by
  induction path generalizing outer with
  | nil => simp
  | cons segment path ih =>
    have h : text (segment :: path) = join segment (text path) := by
      rw [text, List.foldl_cons, ih, join_empty_left]
    rw [List.foldl_cons, ih, h, join_assoc]

@[simp] theorem text_cons (segment : String) (path : Path) :
    text (segment :: path) = join segment (text path) := by
  rw [text, List.foldl_cons, foldl_join, join_empty_left]

/-- The text of a path is joined from those of an outer and an inner part. -/
theorem text_append (outer inner : Path) :
    text (outer ++ inner) = join (text outer) (text inner) := by
  induction outer with
  | nil => simp
  | cons segment outer ih => simp [ih, join_assoc]

end Path

end BinaryLayout
