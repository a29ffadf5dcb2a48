import BinaryLayout.Registry
import Mathlib.Logic.Function.Basic

/-!
# Histories of registries

Tags are defined in several registries, and registries are merged into one another. Each call succeeds or
changes nothing at all, so what a tag stands for in a registry is what was registered first of all that has
reached it, be it by a definition there or by a merge.

## Main definitions

* `Registry.Call`: a definition or a merge among several registries.
* `Registry.runAll`: the registries after calls, some of which may fail.
* `Registry.arrivals`: the registrations that have reached each registry, in the order in which they came.
* `Registry.Call.Atomic`: what a call does, and what it leaves alone.
* `Registry.RegisteredOnce`: what holds of the registries after calls.

## Main statements

* `Registry.Call.result_cases`: a call is refused for a tag that is there, or adds what it brings.
* `Registry.Call.atomic`: what one call does.
* `Registry.entries_runAll`: what is in the registries after calls.
* `Registry.registeredOnce`: every history.
-/

namespace BinaryLayout.Registry

variable {ι τ α : Type} [BEq τ]

/-! ## One registry -/

section One

variable {r other grown : Registry τ α} {tag : τ} {entry : α} {new : List (τ × α)}

/-- The registry with new entries after those that it has. -/
structure Grown (grown r : Registry τ α) (new : List (τ × α)) : Prop where
  entries_eq : grown.entries = r.entries ++ new
  name_eq : grown.name = r.name
  default_eq : grown.default = r.default

/-- Entries that are there come first. -/
theorem Grown.lookup?_eq (h : Grown grown r new) (tag : τ) :
    grown.lookup? tag = (r.lookup? tag).or (new.lookup tag) := by
  rw [lookup?, h.entries_eq, List.lookup_append, lookup?]

theorem Grown.lookup?_of_some (h : Grown grown r new) (hentry : r.lookup? tag = some entry) :
    grown.lookup? tag = some entry := by
  rw [h.lookup?_eq, hentry, Option.some_or]

omit [BEq τ] in
/-- Without new entries it is the registry. -/
theorem Grown.eq_of_nil (h : Grown grown r []) : grown = r := by
  obtain ⟨name, default, entries, nodup⟩ := grown
  obtain ⟨name', default', entries', nodup'⟩ := r
  obtain ⟨hentries, rfl, rfl⟩ := h
  obtain rfl : entries = entries' := by simpa using hentries
  rfl

variable [LawfulBEq τ]

theorem mem_map_fst_of_lookup {entries : List (τ × α)} (h : entries.lookup tag = some entry) :
    tag ∈ entries.map Prod.fst := by
  obtain ⟨before, after, rfl, -⟩ := List.lookup_eq_some_iff.1 h
  simp

/-- New entries of other tags are those that were missing. -/
theorem Grown.lookup?_eq_some_iff (h : Grown grown r new)
    (hapart : ∀ tag ∈ r.tags, tag ∉ new.map Prod.fst) (tag : τ) (entry : α) :
    grown.lookup? tag = some entry ↔ r.lookup? tag = some entry ∨ new.lookup tag = some entry := by
  rw [h.lookup?_eq, Option.or_eq_some_iff]
  constructor
  · exact Or.imp_right And.right
  · rintro (hthere | hnew)
    · exact .inl hthere
    · have habsent : r.lookup? tag = none := by
        cases hthere : r.lookup? tag with
        | none => rfl
        | some other =>
          exact absurd (mem_map_fst_of_lookup hnew) (hapart tag (mem_map_fst_of_lookup hthere))
      exact .inr ⟨habsent, hnew⟩

theorem lookup?_eq_none_iff : r.lookup? tag = none ↔ tag ∉ r.tags := by
  rw [lookup?, List.lookup_eq_none_iff, tags, List.mem_map]
  constructor
  · rintro h ⟨p, hp, rfl⟩
    simpa using h p hp
  · intro h p hp
    have hne : tag ≠ p.1 := fun heq => h ⟨p, hp, heq.symm⟩
    simpa using hne

variable [Tag τ]

/-- A definition is refused for its tag, or adds one entry. -/
theorem define_cases (r : Registry τ α) (tag : τ) (entry : α) :
    tag ∈ r.tags ∧ r.define tag entry = .error (.schema (.tagDefined r.name (Tag.text tag)))
      ∨ tag ∉ r.tags ∧ ∃ grown, r.define tag entry = .ok grown ∧ Grown grown r [(tag, entry)] := by
  rw [define]
  split
  · rename_i h
    exact .inl ⟨List.contains_iff_mem.1 h, rfl⟩
  · rename_i h
    exact .inr ⟨fun hmem => h (List.contains_iff_mem.2 hmem), _, rfl, rfl, rfl, rfl⟩

/-- A merge is refused for a common tag, or adds all entries of the other registry. -/
theorem merge_cases (r other : Registry τ α) :
    (∃ tag, tag ∈ r.tags ∧ tag ∈ other.tags
        ∧ r.merge other = .error (.schema (.tagClash r.name (Tag.text tag) other.name)))
      ∨ (∀ tag ∈ r.tags, tag ∉ other.tags) ∧ ∃ grown, r.merge other = .ok grown
        ∧ Grown grown r other.entries := by
  rw [merge]
  split
  · rename_i tag h
    have hcommon : tag ∈ r.tags := List.contains_iff_mem.1 (List.find?_some h)
    exact .inl ⟨tag, hcommon, List.mem_of_find?_eq_some h, rfl⟩
  · rename_i h
    refine .inr ⟨fun tag htag hother => ?_, _, rfl, rfl, rfl, rfl⟩
    exact List.find?_eq_none.1 h tag hother (List.contains_iff_mem.2 htag)

end One

/-! ## Calls -/

/-- A call on one of several registries. -/
inductive Call (ι τ α : Type) where
  | define (i : ι) (tag : τ) (entry : α)
  /-- The entries of the registry `j` go into the registry `i`. -/
  | merge (i j : ι)

namespace Call

variable {rs : ι → Registry τ α}

def target : Call ι τ α → ι
  | define i _ _ => i
  | merge i _ => i

/-- The registrations that the call brings to its registry, when those in each registry are given. -/
def brings (present : ι → List (τ × α)) : Call ι τ α → List (τ × α)
  | define _ tag entry => [(tag, entry)]
  | merge _ j => present j

/-- A tag that the call brings is there already. -/
def Clashes (rs : ι → Registry τ α) (c : Call ι τ α) (tag : τ) : Prop :=
  tag ∈ (rs c.target).tags ∧ tag ∈ (c.brings fun k => (rs k).entries).map Prod.fst

variable [LawfulBEq τ] [Tag τ]

def result (rs : ι → Registry τ α) : Call ι τ α → Except Error (Registry τ α)
  | define i tag entry => (rs i).define tag entry
  | merge i j => (rs i).merge (rs j)

/-- The error for a tag that is there already. -/
def refusal (rs : ι → Registry τ α) (tag : τ) : Call ι τ α → Error
  | define i _ _ => .schema (.tagDefined (rs i).name (Tag.text tag))
  | merge i j => .schema (.tagClash (rs i).name (Tag.text tag) (rs j).name)

/-- A call is refused for a tag that is there, or adds what it brings. -/
theorem result_cases (rs : ι → Registry τ α) (c : Call ι τ α) :
    (∃ tag, c.Clashes rs tag ∧ c.result rs = .error (c.refusal rs tag))
      ∨ (∀ tag, ¬ c.Clashes rs tag) ∧ ∃ grown, c.result rs = .ok grown
        ∧ Grown grown (rs c.target) (c.brings fun k => (rs k).entries) := by
  cases c with
  | define i tag entry =>
    have hself : ∀ t : τ, t ∈ [(tag, entry)].map Prod.fst ↔ t = tag := by simp
    rcases define_cases (rs i) tag entry with ⟨htag, h⟩ | ⟨htag, grown, h, hgrown⟩
    · exact .inl ⟨tag, ⟨htag, (hself tag).2 rfl⟩, h⟩
    · refine .inr ⟨?_, grown, h, hgrown⟩
      rintro t ⟨ht, hbrought⟩
      exact htag ((hself t).1 hbrought ▸ ht)
  | merge i j =>
    rcases merge_cases (rs i) (rs j) with ⟨tag, htag, hother, h⟩ | ⟨hapart, grown, h, hgrown⟩
    · exact .inl ⟨tag, ⟨htag, hother⟩, h⟩
    · exact .inr ⟨fun t ht => hapart t ht.1 ht.2, grown, h, hgrown⟩

variable [DecidableEq ι]

def run (rs : ι → Registry τ α) (c : Call ι τ α) : ι → Registry τ α :=
  match c.result rs with
  | .ok grown => Function.update rs c.target grown
  | .error _ => rs

theorem run_of_error {c : Call ι τ α} {e : Error} (h : c.result rs = .error e) : c.run rs = rs := by
  rw [run, h]

theorem run_of_ok {c : Call ι τ α} {grown : Registry τ α} (h : c.result rs = .ok grown) :
    c.run rs = Function.update rs c.target grown := by
  rw [run, h]

/-- What a call does, and what it leaves alone. -/
structure Atomic (rs : ι → Registry τ α) (c : Call ι τ α) : Prop where
  /-- It fails exactly when it brings a tag that is there. -/
  fails_iff : (∃ e, c.result rs = .error e) ↔ ∃ tag, c.Clashes rs tag
  /-- The error names such a tag. -/
  named : ∀ e, c.result rs = .error e → ∃ tag, c.Clashes rs tag ∧ e = c.refusal rs tag
  /-- A call that fails changes nothing. -/
  failed : ∀ e, c.result rs = .error e → c.run rs = rs
  /-- A call that succeeds adds all that it brings and nothing else. -/
  added : ∀ grown, c.result rs = .ok grown → c.run rs c.target = grown
    ∧ (∀ tag entry, grown.lookup? tag = some entry ↔ (rs c.target).lookup? tag = some entry
      ∨ (c.brings fun k => (rs k).entries).lookup tag = some entry)
    ∧ grown.length = (rs c.target).length + (c.brings fun k => (rs k).entries).length
  /-- What is merged into a registry stays as it is. -/
  argument : ∀ i j, c = .merge i j → c.run rs j = rs j
  others : ∀ k, k ≠ c.target → c.run rs k = rs k
  name_eq : ∀ k, (c.run rs k).name = (rs k).name
  default_eq : ∀ k, (c.run rs k).default = (rs k).default

theorem atomic (rs : ι → Registry τ α) (c : Call ι τ α) : c.Atomic rs := by
  rcases c.result_cases rs with ⟨tag, hclash, hresult⟩ | ⟨hapart, grown, hresult, hgrown⟩
  · have hrun := run_of_error hresult
    have hno : ∀ grown, c.result rs ≠ .ok grown := fun grown h => nomatch hresult.symm.trans h
    constructor
    · exact ⟨fun _ => ⟨tag, hclash⟩, fun _ => ⟨_, hresult⟩⟩
    · intro e he
      exact ⟨tag, hclash, Except.error.inj (he.symm.trans hresult)⟩
    · exact fun _ _ => hrun
    · exact fun grown h => absurd h (hno grown)
    · exact fun _ j _ => congrFun hrun j
    · exact fun k _ => congrFun hrun k
    · exact fun k => congrArg Registry.name (congrFun hrun k)
    · exact fun k => congrArg Registry.default (congrFun hrun k)
  · have hrun := run_of_ok hresult
    have hno : ∀ e, c.result rs ≠ .error e := fun e h => nomatch hresult.symm.trans h
    have hself : c.run rs c.target = grown := by rw [hrun, Function.update_self]
    have hothers : ∀ k, k ≠ c.target → c.run rs k = rs k := fun k hk => by
      rw [hrun, Function.update_of_ne hk]
    constructor
    · exact ⟨fun ⟨e, he⟩ => absurd he (hno e), fun ⟨tag, hclash⟩ => absurd hclash (hapart tag)⟩
    · exact fun e he => absurd he (hno e)
    · exact fun e he => absurd he (hno e)
    · intro grown' hresult'
      obtain rfl : grown = grown' := Except.ok.inj (hresult.symm.trans hresult')
      refine ⟨hself, hgrown.lookup?_eq_some_iff fun tag ht hb => hapart tag ⟨ht, hb⟩, ?_⟩
      rw [length, hgrown.entries_eq, List.length_append, length]
    · rintro i j rfl
      by_cases hj : j = i
      · -- A registry that goes into itself clashes with itself, unless it has no tags.
        subst hj
        have hnil : (rs j).entries = [] := by
          refine List.eq_nil_iff_forall_not_mem.2 fun p hp => ?_
          have htag : p.1 ∈ (rs j).entries.map Prod.fst := List.mem_map_of_mem hp
          exact hapart p.1 ⟨htag, htag⟩
        have hnew : Grown grown (rs j) [] := hnil ▸ hgrown
        exact hself.trans hnew.eq_of_nil
      · exact hothers j hj
    · exact hothers
    · intro k
      by_cases hk : k = c.target
      · rw [hk, hself, hgrown.name_eq]
      · rw [hothers k hk]
    · intro k
      by_cases hk : k = c.target
      · rw [hk, hself, hgrown.default_eq]
      · rw [hothers k hk]

end Call

/-! ## Histories -/

variable [LawfulBEq τ] [Tag τ] [DecidableEq ι]

/-- The registries after calls, one after another, whether they succeed or fail. -/
def runAll (rs : ι → Registry τ α) (calls : List (Call ι τ α)) : ι → Registry τ α :=
  calls.foldl Call.run rs

/-- The registrations that have reached each registry, in the order in which they came: to those that were there
before, a definition that succeeds adds its own, and a merge that succeeds all that have reached the other
registry. -/
def arrivalsFrom (rs : ι → Registry τ α) (past : ι → List (τ × α)) :
    List (Call ι τ α) → ι → List (τ × α)
  | [] => past
  | c :: calls =>
    arrivalsFrom (c.run rs)
      (if (c.result rs).isOk then Function.update past c.target (past c.target ++ c.brings past) else past)
      calls

/-- The registrations that have reached each registry, in the order in which they came. -/
def arrivals (rs : ι → Registry τ α) (calls : List (Call ι τ α)) : ι → List (τ × α) :=
  arrivalsFrom rs (fun k => (rs k).entries) calls

/-- What one call adds to a registry has just reached it. -/
theorem entries_run (rs : ι → Registry τ α) (c : Call ι τ α) (k : ι) :
    (c.run rs k).entries = (if (c.result rs).isOk then
      Function.update (fun k => (rs k).entries) c.target
        ((rs c.target).entries ++ c.brings fun k => (rs k).entries)
      else fun k => (rs k).entries) k := by
  rcases c.result_cases rs with ⟨tag, -, hresult⟩ | ⟨-, grown, hresult, hgrown⟩
  · rw [Call.run_of_error hresult, hresult]
    rfl
  · have hok : (Except.ok grown : Except Error (Registry τ α)).isOk = true := rfl
    rw [Call.run_of_ok hresult, hresult, if_pos hok]
    by_cases hk : k = c.target
    · subst hk
      rw [Function.update_self, Function.update_self, hgrown.entries_eq]
    · rw [Function.update_of_ne hk, Function.update_of_ne hk]

/-- What is in the registries is what has reached them. -/
theorem entries_runAll (rs : ι → Registry τ α) (calls : List (Call ι τ α)) :
    (fun k => (runAll rs calls k).entries) = arrivals rs calls := by
  rw [arrivals]
  induction calls generalizing rs with
  | nil => rfl
  | cons c calls ih =>
    have hstep := funext fun k => entries_run rs c k
    rw [arrivalsFrom, ← hstep]
    exact ih (c.run rs)

/-- A tag that stands for an entry stands for it after any call. -/
theorem lookup?_run {rs : ι → Registry τ α} {k : ι} {tag : τ} {entry : α} (c : Call ι τ α)
    (h : (rs k).lookup? tag = some entry) : (c.run rs k).lookup? tag = some entry := by
  rcases c.result_cases rs with ⟨_, -, hresult⟩ | ⟨-, grown, hresult, hgrown⟩
  · rwa [Call.run_of_error hresult]
  · rw [Call.run_of_ok hresult]
    by_cases hk : k = c.target
    · subst hk
      rw [Function.update_self]
      exact hgrown.lookup?_of_some h
    · rwa [Function.update_of_ne hk]

theorem lookup?_runAll {rs : ι → Registry τ α} {k : ι} {tag : τ} {entry : α} (calls : List (Call ι τ α))
    (h : (rs k).lookup? tag = some entry) : (runAll rs calls k).lookup? tag = some entry := by
  induction calls generalizing rs with
  | nil => exact h
  | cons c calls ih => exact ih (lookup?_run c h)

theorem default_runAll (rs : ι → Registry τ α) (calls : List (Call ι τ α)) (k : ι) :
    (runAll rs calls k).default = (rs k).default := by
  induction calls generalizing rs with
  | nil => rfl
  | cons c calls ih => exact (ih (c.run rs)).trans ((c.atomic rs).default_eq k)

/-- What holds of the registries after calls. -/
structure RegisteredOnce (start : ι → Registry τ α) (calls : List (Call ι τ α)) : Prop where
  /-- A tag stands for the first registration of it that has reached the registry. -/
  first : ∀ k tag, (runAll start calls k).lookup? tag = (arrivals start calls k).lookup tag
  /-- No second one ever does. -/
  once : ∀ k, ((arrivals start calls k).map Prod.fst).Nodup
  /-- Whatever comes, the tag stands for it. -/
  kept : ∀ k tag entry more, (runAll start calls k).lookup? tag = some entry →
    (runAll start (calls ++ more) k).lookup? tag = some entry
  /-- The next call fails whole or succeeds whole. -/
  next : ∀ c : Call ι τ α, c.Atomic (runAll start calls)
  /-- A tag is found when it is there. -/
  found : ∀ k tag length? entry, (runAll start calls k).lookup? tag = some entry →
    (runAll start calls k).get tag length? = entry
  /-- The default stands in exactly when it is not. -/
  absent : ∀ k tag, ((runAll start calls k).lookup? tag = none ↔ tag ∉ (runAll start calls k).tags)
    ∧ (tag ∉ (runAll start calls k).tags →
      ∀ length?, (runAll start calls k).get tag length? = (start k).default length?)

/-- **Registration is once and atomic**, in every history of definitions and merges among any registries: a tag
stands for the first registration that has reached the registry and for no later one, a call fails exactly
when it brings a tag that is there and then changes nothing, a call that succeeds adds all that it brings, and
a tag that is nowhere stands for the default. -/
theorem registeredOnce (start : ι → Registry τ α) (calls : List (Call ι τ α)) :
    RegisteredOnce start calls := by
  have hentries := congrFun (entries_runAll start calls)
  constructor
  · intro k tag
    rw [← hentries k, lookup?]
  · intro k
    rw [← hentries k]
    exact (runAll start calls k).tags_nodup
  · intro k tag entry more h
    rw [runAll, List.foldl_append]
    exact lookup?_runAll more h
  · exact fun c => c.atomic _
  · intro k tag length? entry h
    rw [get, h, Option.getD_some]
  · intro k tag
    refine ⟨lookup?_eq_none_iff, fun h length? => ?_⟩
    rw [get, lookup?_eq_none_iff.2 h, Option.getD_none, default_runAll]

/-- Two registries of which one takes over the other, until both have the tag 1. -/
theorem registeredOnce_of_refused_merge :
    let start : Bool → Registry Nat Nat := fun _ => { name := "r", default := fun length? => length?.getD 7 }
    let calls : List (Call Bool Nat Nat) :=
      [.define true 1 10, .define false 2 20, .merge true false, .define false 1 30, .merge true false]
    RegisteredOnce start calls ∧ (runAll start calls true).lookup? 1 = some 10
      ∧ (runAll start calls true).lookup? 2 = some 20 ∧ (runAll start calls false).lookup? 1 = some 30
      ∧ (runAll start calls true).get 3 none = 7 :=
  ⟨registeredOnce _ _, by decide, by decide, by decide, by decide⟩

end BinaryLayout.Registry
