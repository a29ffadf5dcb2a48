import BinaryLayout.Error

/-!
# Registries

A registry maps the tags of one field to what they stand for. A tag is defined once, and a tag that
is not defined stands for a default that may depend on a length. Registries are merged whole or not
at all.

## Main definitions

* `Registry`: a named finite map with a default; no tag stands in it twice.
* `Registry.define`, `Registry.merge`: adding entries.
* `Registry.lookup?`, `Registry.get`: what a tag stands for, without and with the default.
-/

namespace BinaryLayout

/-- Tags with their written form in messages and the order in which they are listed. -/
class Tag (τ : Type) where
  text : τ → String
  le : τ → τ → Bool

instance : Tag Nat where
  text := toString
  le m n := decide (m ≤ n)

instance : Tag String where
  text := Text.quoted
  le s t := decide (s ≤ t)

/-- A named map from tags to entries, with a default for every other tag. -/
structure Registry (τ α : Type) where
  name : String
  /-- The entry of a tag that is not defined. -/
  default : Option Nat → α
  /-- Tags and their entries, in the order of their definition. -/
  entries : List (τ × α) := []
  tags_nodup : (entries.map Prod.fst).Nodup := by exact List.nodup_nil

namespace Registry

variable {τ α : Type}

def tags (r : Registry τ α) : List τ := r.entries.map Prod.fst

def length (r : Registry τ α) : Nat := r.entries.length

variable [BEq τ] [LawfulBEq τ] [Tag τ]

def lookup? (r : Registry τ α) (tag : τ) : Option α := r.entries.lookup tag

def contains (r : Registry τ α) (tag : τ) : Bool := r.tags.contains tag

def getD (r : Registry τ α) (tag : τ) (fallback : α) : α := (r.lookup? tag).getD fallback

/-- The entry of a tag, or the default for a length. -/
def get (r : Registry τ α) (tag : τ) (length? : Option Nat) : α :=
  (r.lookup? tag).getD (r.default length?)

/-- The registry with one more tag. A tag that is there already is refused. -/
def define (r : Registry τ α) (tag : τ) (entry : α) : Except Error (Registry τ α) :=
  if h : r.tags.contains tag then .error (.schema (.tagDefined r.name (Tag.text tag)))
  else
    .ok { r with
      entries := r.entries ++ [(tag, entry)]
      tags_nodup := by
        have absent : tag ∉ r.entries.map Prod.fst := by simpa [tags] using h
        rw [List.map_append, List.nodup_append]
        refine ⟨r.tags_nodup, by simp, ?_⟩
        intro a ha b hb same
        simp only [List.map_cons, List.map_nil, List.mem_singleton] at hb
        exact absent (hb ▸ same ▸ ha) }

/-- The registry with all entries of another. If they share a tag, nothing is added. -/
def merge (r other : Registry τ α) : Except Error (Registry τ α) :=
  match h : other.tags.find? r.tags.contains with
  | some tag => .error (.schema (.tagClash r.name (Tag.text tag) other.name))
  | none =>
    .ok { r with
      entries := r.entries ++ other.entries
      tags_nodup := by
        rw [List.map_append, List.nodup_append]
        refine ⟨r.tags_nodup, other.tags_nodup, ?_⟩
        intro a ha b hb same
        have apart := List.find?_eq_none.mp h b hb
        exact apart (by simpa [tags, same] using ha) }

def sortedTags (r : Registry τ α) : List τ := r.tags.mergeSort Tag.le

end Registry

end BinaryLayout
