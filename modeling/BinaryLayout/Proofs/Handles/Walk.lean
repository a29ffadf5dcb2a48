import BinaryLayout.Proofs.Handles.Forest

/-!
# Walks over handles

Atoms are known by their handles, and a handle leads to the handles of what its atom owns: fields, elements,
members of a union, the root of a host of bits, what a followed pointer refers to. A walk keeps handles on a
stack and puts what the handle on top owns there in its stead, the last one first. In a forest it comes to an
end, and what it has visited is what the recursion over the handles gives: each atom at or below the first one
once, and none before the atoms that contain it.

## Main definitions

* `Document.owned`: the handles of what an atom owns.
* `Document.Visits`: the walk with a stack, to its end.
* `Document.Traverses`: the recursion.
* `Document.Walks`: what the walk from a handle visits.

## Main statements

* `Document.Traverses.visits`: the stack does what the recursion does.
* `Place.mem_after_of_mem_parts`: what is inside an atom comes after it.
* `Document.Forest.traverses_preorder`: the recursion over the handles of a forest is that over its trees.
* `Document.Forest.walks`: walks in a forest.
-/

namespace BinaryLayout

variable {κ : Type}

namespace Place

variable {p q r : Place κ}

/-! ## Order and repetition -/

/-- What is in an atom is inside all that the atom is inside. -/
theorem frames_suffix (h : r ∈ p.preorder) : p.frames <:+ r.frames := by
  induction p using induction_parts with
  | h p ih =>
    rw [preorder_eq, List.mem_cons, List.mem_flatMap] at h
    rcases h with rfl | ⟨q, hq, hr⟩
    · exact List.suffix_rfl
    · obtain ⟨before, after, -, hframes⟩ := mem_partsAmong.1 hq
      exact (hframes ▸ List.suffix_cons _ _).trans (ih q hq hr)

theorem length_frames_of_mem_parts (h : q ∈ p.parts) : q.frames.length = p.frames.length + 1 := by
  obtain ⟨before, after, -, hframes⟩ := mem_partsAmong.1 h
  rw [hframes, List.length_cons]

/-- No two parts stand at one place. -/
theorem pairwise_partsAmong (frames : List (Frame κ)) (info : Info κ) (content : Content)
    (left as : List (Atom κ)) :
    (partsAmong frames info content left as).Pairwise fun q r => q.frames ≠ r.frames := by
  induction as generalizing left with
  | nil => exact List.Pairwise.nil
  | cons a as ih =>
    rw [partsAmong, List.pairwise_cons]
    refine ⟨fun q hq hsame => ?_, ih (a :: left)⟩
    -- A later part has more parts to its left.
    obtain ⟨before, after, -, hframes⟩ := mem_partsAmong.1 hq
    have hleft := congrArg (fun fs => fs.head?.map fun f => f.left.length) (hsame.trans hframes)
    simp at hleft
    omega

/-- The traversal comes to no place twice. -/
theorem nodup_preorder (p : Place κ) : p.preorder.Nodup := by
  induction p using induction_parts with
  | h p ih =>
    rw [preorder_eq, List.nodup_cons, List.nodup_flatMap]
    refine ⟨fun hself => ?_, ih, (pairwise_partsAmong _ _ _ _ _).imp_of_mem ?_⟩
    · obtain ⟨q, hq, hself⟩ := List.mem_flatMap.1 hself
      have hle := (frames_suffix hself).length_le
      rw [length_frames_of_mem_parts hq] at hle
      omega
    · intro q r hq hr hne x hxq hxr
      have hlength : q.frames.length = r.frames.length := by
        rw [length_frames_of_mem_parts hq, length_frames_of_mem_parts hr]
      have hsuffix := List.suffix_of_suffix_length_le (frames_suffix hxq) (frames_suffix hxr) hlength.le
      exact hne (hsuffix.eq_of_length hlength)

/-- A list of lists that is cut inside is cut inside one of them. -/
theorem exists_cut_of_flatMap {α β : Type} {f : α → List β} {as : List α} {before after : List β} {b : β}
    (h : as.flatMap f = before ++ b :: after) :
    ∃ a ∈ as, ∃ front back rest, f a = front ++ b :: back ∧ after = back ++ rest := by
  induction as generalizing before with
  | nil => simp at h
  | cons a as ih =>
    rw [List.flatMap_cons, List.append_eq_append_iff] at h
    rcases h with ⟨more, rfl, hmore⟩ | ⟨more, hmore, hrest⟩
    · obtain ⟨c, hc, hcut⟩ := ih hmore
      exact ⟨c, List.mem_cons_of_mem _ hc, hcut⟩
    · cases more with
      | nil =>
        have hfirst : as.flatMap f = [] ++ b :: after := hrest.symm
        obtain ⟨c, hc, hcut⟩ := ih hfirst
        exact ⟨c, List.mem_cons_of_mem _ hc, hcut⟩
      | cons b' more =>
        obtain ⟨rfl, rfl⟩ := List.cons.inj hrest
        exact ⟨a, List.mem_cons_self, before, more, as.flatMap f, hmore, rfl⟩

/-- What is inside an atom comes after it. -/
theorem mem_after_of_mem_parts {before after : List (Place κ)} (h : p.preorder = before ++ q :: after)
    (hr : r ∈ q.parts.flatMap preorder) : r ∈ after := by
  induction p using induction_parts generalizing before after with
  | h p ih =>
    rw [preorder_eq] at h
    cases before with
    | nil =>
      obtain ⟨rfl, rfl⟩ := List.cons.inj h
      exact hr
    | cons _ before =>
      obtain ⟨-, h⟩ := List.cons.inj h
      obtain ⟨part, hpart, front, back, rest, hcut, rfl⟩ := exists_cut_of_flatMap h
      exact List.mem_append_left _ (ih part hpart hcut)

end Place

namespace Document

variable {d : Document κ} {p q r : Place κ} {h inner : Nat}

/-! ## Stacks of handles -/

/-- The handles of what the atom with a handle owns, in order. -/
def owned (d : Document κ) (h : Nat) : List Nat :=
  match d.find? h with
  | some p => p.atom.parts.map fun a => a.info.id
  | none => []

/-- One turn of a walk: the last handle on the stack is visited, and what it owns takes its place there, the
last one first. -/
def turn? (d : Document κ) (stack : List Nat) : Option (Nat × List Nat) :=
  stack.getLast?.map fun h => (h, stack.dropLast ++ (d.owned h).reverse)

/-- The walk from a stack visits these handles, one after another, and then the stack is empty. -/
inductive Visits (d : Document κ) : List Nat → List Nat → Prop
  | done {stack : List Nat} (hturn : d.turn? stack = none) : Visits d stack []
  | turn {stack rest out : List Nat} {h : Nat} (hturn : d.turn? stack = some (h, rest))
      (hrest : Visits d rest out) : Visits d stack (h :: out)

/-- The recursive traversal of handles, one after another: each comes before what it owns. -/
inductive Traverses (d : Document κ) : List Nat → List Nat → Prop
  | nil : Traverses d [] []
  | cons {h : Nat} {hs below rest : List Nat} (hbelow : Traverses d (d.owned h) below)
      (hrest : Traverses d hs rest) : Traverses d (h :: hs) (h :: below ++ rest)

theorem turn?_append (d : Document κ) (stack : List Nat) (h : Nat) :
    d.turn? (stack ++ [h]) = some (h, stack ++ (d.owned h).reverse) := by
  simp [turn?]

/-- A walk has one course. -/
theorem Visits.unique {stack out out' : List Nat} (hout : d.Visits stack out) (hout' : d.Visits stack out') :
    out = out' := by
  induction hout generalizing out' with
  | done hturn =>
    cases hout' with
    | done => rfl
    | turn hturn' => exact nomatch hturn.symm.trans hturn'
  | turn hturn hrest ih =>
    cases hout' with
    | done hturn' => exact nomatch hturn'.symm.trans hturn
    | turn hturn' hrest' =>
      obtain ⟨rfl, rfl⟩ := Prod.mk.inj (Option.some.inj (hturn.symm.trans hturn'))
      rw [ih hrest']

/-- The stack does what the recursion does: what stands on top of it in reverse is traversed, and then the rest
of the stack is visited. -/
theorem Traverses.visits {hs out stack rest : List Nat} (hout : d.Traverses hs out)
    (hrest : d.Visits stack rest) : d.Visits (stack ++ hs.reverse) (out ++ rest) := by
  induction hout generalizing stack rest with
  | nil => simpa using hrest
  | @cons h hs below others _ _ ihbelow ihothers =>
    rw [List.reverse_cons, ← List.append_assoc, List.cons_append, List.cons_append, List.append_assoc below]
    exact .turn (d.turn?_append _ h) (ihbelow (ihothers hrest))

theorem Traverses.append {hs hs' out out' : List Nat} (hout : d.Traverses hs out) (hout' : d.Traverses hs' out') :
    d.Traverses (hs ++ hs') (out ++ out') := by
  induction hout with
  | nil => exact hout'
  | cons hbelow _ _ ih =>
    rw [List.cons_append, List.append_assoc]
    exact .cons hbelow ih

/-! ## Forests -/

theorem mem_places_of_mem_parts (hp : p ∈ d.places) (hq : q ∈ p.parts) : q ∈ d.places :=
  mem_places_of_root (Place.root_up? (Place.mem_parts.1 hq)).symm hp

theorem mem_places_of_mem_preorder (hp : p ∈ d.places) (hq : q ∈ p.preorder) : q ∈ d.places :=
  mem_places_of_root (Place.root_of_mem_preorderIn p.frames p.atom hq) hp

theorem inside_of_mem_parts (hp : p ∈ d.places) (hq : q ∈ p.parts) :
    d.Inside q.atom.info.id p.atom.info.id :=
  ⟨q, mem_places_of_mem_parts hp hq, p, Place.mem_parts.1 hq, rfl, rfl⟩

/-- What the traversal of an atom comes to is at or below it. -/
theorem inside_of_mem_preorder (hp : p ∈ d.places) (hq : q ∈ p.preorder) :
    Relation.ReflTransGen d.Inside q.atom.info.id p.atom.info.id := by
  induction p using Place.induction_parts with
  | h p ih =>
    rw [Place.preorder_eq, List.mem_cons, List.mem_flatMap] at hq
    rcases hq with rfl | ⟨part, hpart, hq⟩
    · exact .refl
    · exact (ih part hpart (mem_places_of_mem_parts hp hpart) hq).tail (inside_of_mem_parts hp hpart)

namespace Forest

/-- A handle tells its place. -/
theorem eq_of_id (hd : d.Forest) (hp : p ∈ d.places) (hq : q ∈ d.places)
    (h : p.atom.info.id = q.atom.info.id) : p = q :=
  Option.some.inj ((hd.found p hp).symm.trans (h ▸ hd.found q hq))

theorem owned_eq (hd : d.Forest) (hp : p ∈ d.places) :
    d.owned p.atom.info.id = p.parts.map fun q => q.atom.info.id := by
  rw [owned, hd.found p hp, p.parts_ids]

theorem exists_part_of_inside (hd : d.Forest) (hp : p ∈ d.places) (h : d.Inside inner p.atom.info.id) :
    ∃ q ∈ p.parts, q.atom.info.id = inner := by
  obtain ⟨q, hq, p', hup, hinner, hid⟩ := h
  have hp' : p' ∈ d.places := mem_places_of_root (Place.root_up? hup) hq
  obtain rfl := hd.eq_of_id hp' hp hid
  exact ⟨q, Place.mem_parts.2 hup, hinner⟩

/-- What is below an atom is in the traversal of one of its parts. -/
theorem exists_of_below (hd : d.Forest) (hp : p ∈ d.places)
    (h : Relation.TransGen d.Inside inner p.atom.info.id) :
    ∃ q ∈ p.parts.flatMap Place.preorder, q.atom.info.id = inner := by
  induction h using Relation.TransGen.head_induction_on with
  | single h =>
    obtain ⟨q, hq, hinner⟩ := hd.exists_part_of_inside hp h
    exact ⟨q, List.mem_flatMap.2 ⟨q, hq, q.self_mem_preorder⟩, hinner⟩
  | head h _ ih =>
    obtain ⟨middle, hmiddle, hid⟩ := ih
    obtain ⟨part, hpart, hmem⟩ := List.mem_flatMap.1 hmiddle
    have hplace := mem_places_of_mem_preorder (mem_places_of_mem_parts hp hpart) hmem
    obtain ⟨q, hq, hinner⟩ := hd.exists_part_of_inside hplace (hid ▸ h)
    exact ⟨q, List.mem_flatMap.2 ⟨part, hpart, Place.subset_preorderIn _ _ hmem q hq⟩, hinner⟩

/-- The recursion over the handles of a forest is that over its trees. -/
theorem traverses_preorder (hd : d.Forest) (hp : p ∈ d.places) :
    d.Traverses [p.atom.info.id] (p.preorder.map fun q => q.atom.info.id) := by
  induction p using Place.induction_parts with
  | h p ih =>
    have hparts : ∀ qs : List (Place κ), (∀ q ∈ qs, q ∈ p.parts) →
        d.Traverses (qs.map fun q => q.atom.info.id)
          ((qs.flatMap Place.preorder).map fun q => q.atom.info.id) := by
      intro qs hqs
      induction qs with
      | nil => exact .nil
      | cons q qs ihqs =>
        have hq := hqs q List.mem_cons_self
        rw [List.flatMap_cons, List.map_append]
        exact (ih q hq (mem_places_of_mem_parts hp hq)).append
          (ihqs fun q hq => hqs q (List.mem_cons_of_mem _ hq))
    have hbelow := hparts p.parts fun _ hq => hq
    rw [← hd.owned_eq hp] at hbelow
    rw [Place.preorder_eq, List.map_cons]
    simpa using Traverses.cons hbelow .nil

end Forest

/-- What the walk from a handle visits: these handles and no others, in this order. -/
structure Walks (d : Document κ) (h : Nat) (out : List Nat) : Prop where
  /-- The walk comes to an end, and it has one course. -/
  visits : ∀ out', d.Visits [h] out' ↔ out' = out
  /-- It is that of the recursion. -/
  traverses : ∀ out', d.Traverses [h] out' ↔ out' = out
  /-- Nothing is visited twice. -/
  nodup : out.Nodup
  /-- All that is at or below the first atom is visited, and nothing else. -/
  mem_iff : ∀ inner, inner ∈ out ↔ Relation.ReflTransGen d.Inside inner h
  /-- What is below an atom comes after it. -/
  order : ∀ before outer after, out = before ++ outer :: after →
    ∀ inner, Relation.TransGen d.Inside inner outer → inner ∈ after

/-- **The walk is the recursive traversal.** From any live handle of a forest the walk with a stack comes to an
end, and it has visited the atoms of the recursion over what each atom owns in the order of that recursion:
everything at or below the first atom, each once, and containers before what they contain. -/
theorem Forest.walks (hd : d.Forest) (hp : p ∈ d.places) :
    d.Walks p.atom.info.id (p.walk.map fun q => q.atom.info.id) := by
  have htraverses := hd.traverses_preorder hp
  have hvisits {out : List Nat} (hout : d.Traverses [p.atom.info.id] out) : d.Visits [p.atom.info.id] out := by
    have hdone : d.Visits [] [] := .done rfl
    simpa using hout.visits hdone
  rw [Place.walk_eq_preorder]
  constructor
  · intro out'
    constructor
    · intro hout'
      exact hout'.unique (hvisits htraverses)
    · rintro rfl
      exact hvisits htraverses
  · intro out'
    constructor
    · intro hout'
      exact (hvisits hout').unique (hvisits htraverses)
    · rintro rfl
      exact htraverses
  · refine p.nodup_preorder.map_on fun q hq r hr hid => ?_
    exact hd.eq_of_id (mem_places_of_mem_preorder hp hq) (mem_places_of_mem_preorder hp hr) hid
  · intro inner
    rw [List.mem_map]
    constructor
    · rintro ⟨q, hq, rfl⟩
      exact inside_of_mem_preorder hp hq
    · intro h
      rcases Relation.reflTransGen_iff_eq_or_transGen.1 h with heq | hbelow
      · exact ⟨p, p.self_mem_preorder, heq⟩
      · obtain ⟨q, hq, hinner⟩ := hd.exists_of_below hp hbelow
        exact ⟨q, by rw [Place.preorder_eq]; exact List.mem_cons_of_mem _ hq, hinner⟩
  · intro before outer after hout inner hbelow
    obtain ⟨front, rest, hcut, rfl, hrest⟩ := List.map_eq_append_iff.1 hout
    obtain ⟨q, back, rfl, rfl, rfl⟩ := List.map_eq_cons_iff.1 hrest
    have hq : q ∈ p.preorder := hcut ▸ List.mem_append_right _ List.mem_cons_self
    obtain ⟨r, hr, hinner⟩ := hd.exists_of_below (mem_places_of_mem_preorder hp hq) hbelow
    exact List.mem_map.2 ⟨r, Place.mem_after_of_mem_parts hcut hr, hinner⟩

namespace WalkedRecord

/-- A pointer, and a host of bits with two numbers in it. -/
def layout : Layout Empty :=
  .record "R" [⟨"p", .given (.pointer .u8 (.int .u8) .absolute), none, none⟩,
    ⟨"b", .given (.bits (.record "B" [⟨"x", .given (.int 4 false)⟩, ⟨"y", .given (.int 4 false)⟩]) .big),
      none, none⟩]

def loaded : Document Empty :=
  ((Operation.loadNew layout "r" 0).run.run
    { env := ⟨{}, ⟨nofun, nofun, nofun, nofun, nofun, nofun, nofun, nofun⟩⟩
      sources := [.memory #[2, 0x34, 5] false 0]
      source := 0 }).2

def followed : Document Empty := ((Operation.dereference 1).run.run loaded).2

/-- What the pointer refers to was loaded last and is visited third. -/
theorem walks_followed : followed.Forest ∧ followed.Walks 0 [0, 1, 6, 2, 3, 4, 5] := by
  have hloaded : loaded.Reachable := .step (.loadNew layout "r" 0) (.empty ..) nofun
  have hfollowed : followed.Reachable :=
    .step (.dereference 1) hloaded (List.forall_mem_singleton.2 (by decide +kernel))
  have hforest := hfollowed.balanced.isForest
  obtain ⟨p, hp, -, hid, hwalk⟩ := shown_of_live (show followed.Live 0 by decide +kernel)
    (fun p => (p.walk.map fun q => q.atom.info.id) == [0, 1, 6, 2, 3, 4, 5]) (by decide +kernel)
  have hwalks := Forest.walks hforest hp
  rw [hid, eq_of_beq hwalk] at hwalks
  exact ⟨hforest, hwalks⟩

end WalkedRecord

end Document

end BinaryLayout
