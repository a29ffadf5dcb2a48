import BinaryLayout.Edit.Assign
import BinaryLayout.Edit.Surroundings
import BinaryLayout.Proofs.Run

/-!
# Rules for edits

What holds after each of the steps that edits are made of, whatever is to be proved of them.

Members and elements are assigned alike in bits and in bytes, so there is one loop for each to be
reasoned about. A later field of a record is laid out in two steps: first a rule may decide its layout,
and then one may decide its extent. The members of a union are loaded one after another, but for the
changed one.

## Main definitions

* `EditM.assignMembers`, `EditM.assignElements`: the loops over members and over elements.
* `followLayout`, `followExtent`: the two steps of a later field.
* `reloadMember`: one member of a union.

## Main statements

* `Value.of_inductive`: what a step shows of every value holds of every value.
* `EditM.yields_atPart`: an edit of a part, seen from the part.
* `EditM.yields_remake`, `EditM.yields_around`: the atom at the place made anew, and what surrounds
  it replaced.
* `followField_eq`, `reloadMembers_cons`: later fields and members in their steps.
-/

namespace BinaryLayout

variable {κ α : Type}

namespace Value

/-- What a step shows of every value from its members or elements. -/
def Inductive (P : Value → Prop) : Prop :=
  ∀ v : Value, (∀ members, v = .fields members → ∀ m ∈ members, P m.2)
    → (∀ elements, v = .items elements → ∀ e ∈ elements, P e) → P v

variable {P : Value → Prop}

mutual

/-- What holds of a value when it holds of its members and elements holds of every value. -/
theorem of_inductive (h : Inductive P) : ∀ v : Value, P v
  | .fields members => h _ (fun _ hv => by cases hv; exact members_of_inductive h members) nofun
  | .items elements => h _ nofun fun _ hv => by cases hv; exact items_of_inductive h elements
  | .unsigned _ | .signed _ | .bool _ | .float _ | .text _ | .bytes _ | .bits _ => h _ nofun nofun

theorem members_of_inductive (h : Inductive P) : ∀ members : List (String × Value),
    ∀ m ∈ members, P m.2
  | [] => nofun
  | (_, v) :: members => List.forall_mem_cons.2 ⟨of_inductive h v, members_of_inductive h members⟩

theorem items_of_inductive (h : Inductive P) : ∀ elements : List Value, ∀ e ∈ elements, P e
  | [] => nofun
  | v :: elements => List.forall_mem_cons.2 ⟨of_inductive h v, items_of_inductive h elements⟩

end

end Value

namespace EditM

variable {s : Workplace κ} {failed : Error → Workplace κ → Prop}

theorem yields_atom (s : Workplace κ) :
    Yields atom s (fun a t => a = s.place.atom ∧ t = s) failed := ⟨rfl, rfl⟩

theorem yields_place (s : Workplace κ) :
    Yields place s (fun p t => p = s.place ∧ t = s) failed := ⟨rfl, rfl⟩

theorem yields_partSize (i : Nat) (s : Workplace κ) :
    Yields (partSize i) s
      (fun n t => n = (s.place.atom.parts[i]?.map Atom.size).getD 0 ∧ t = s) failed := ⟨rfl, rfl⟩

/-- A computation on handles does not move the place. -/
theorem yields_ofLedger {m : LedgerM κ α} {post : α → Ledger κ → Prop} (h : Ends m s.ledger post) :
    Yields (ofLedger m) s (fun a t => t.place = s.place ∧ post a t.ledger) failed := ⟨rfl, h⟩

theorem yields_setAtom {ok : Unit → Workplace κ → Prop} {a : Atom κ}
    (h : ok () { s with place := ⟨a, s.place.frames⟩ }) : Yields (setAtom a) s ok failed := h

theorem yields_ofExcept {ok : α → Workplace κ → Prop} {result : Except Error α}
    (hok : ∀ a, result = .ok a → ok a s) (he : ∀ e, result = .error e → failed e s) :
    Yields (ofExcept result) s ok failed := by
  cases result with
  | ok a => exact hok a rfl
  | error e => exact he e rfl

theorem yields_check {ok : Unit → Workplace κ → Prop} {error? : Option Error}
    (hok : error? = none → ok () s) (he : ∀ e, error? = some e → failed e s) :
    Yields (check error?) s ok failed := by
  cases error? with
  | none => exact hok rfl
  | some e => exact he e rfl

/-- An error seen from further out is still one. -/
theorem yields_within {ok : α → Workplace κ → Prop} {m : EditM κ α} (outer : Path)
    (h : Yields m s ok fun e t => failed (e.within outer) t) : Yields (within outer m) s ok failed :=
  h.adapt fun _ _ ht => ht

/-- The atom at the place made anew. -/
theorem yields_remake {part : LoadPart (LedgerM κ) κ} {ok : Unit → Workplace κ → Prop}
    (h : Ends (part s.place.frames s.place.atom) s.ledger fun out l =>
      (out.error? = none → ok () ⟨l, ⟨out.atom, s.place.frames⟩⟩)
        ∧ ∀ e, out.error? = some e → failed e ⟨l, ⟨out.atom, s.place.frames⟩⟩) :
    Yields (remake part) s ok failed := by
  refine (yields_place s).bind fun p t hp => ?_
  obtain ⟨rfl, rfl⟩ := hp
  refine (yields_ofLedger h).bind fun out u hout => ?_
  obtain ⟨hplace, hok, he⟩ := hout
  obtain ⟨l, q⟩ := u
  subst hplace
  refine Yields.via (fun _ v => v = ⟨l, ⟨out.atom, t.place.frames⟩⟩) rfl fun _ v hv => ?_
  subst hv
  exact yields_check hok he

/-- What surrounds the atom at the place replaced. -/
theorem yields_around {follow : Atom κ → List (Frame κ) → LedgerM κ (Surroundings κ)}
    {ok : Unit → Workplace κ → Prop}
    (h : Ends (follow s.place.atom s.place.frames) s.ledger fun out l =>
      (out.error? = none → ok () ⟨l, ⟨s.place.atom, out.frames⟩⟩)
        ∧ ∀ e, out.error? = some e → failed e ⟨l, ⟨s.place.atom, out.frames⟩⟩) :
    Yields (around follow) s ok failed := by
  refine (yields_place s).bind fun p t hp => ?_
  obtain ⟨rfl, rfl⟩ := hp
  refine (yields_ofLedger h).bind fun out u hout => ?_
  obtain ⟨hplace, hok, he⟩ := hout
  obtain ⟨l, q⟩ := u
  subst hplace
  refine Yields.via (fun _ v => v = ⟨l, ⟨t.place.atom, out.frames⟩⟩) rfl fun _ v hv => ?_
  subst hv
  exact yields_check hok he

/-- An edit of a part, seen from the part. -/
theorem yields_atPart {i : Nat} {m : EditM κ Unit} {ok : Unit → Workplace κ → Prop}
    (hnone : s.place.down? i = none → ok () s)
    (hm : ∀ p, s.place.down? i = some p → Yields m { s with place := p }
      (fun _ t => ok () { t with place := t.place.up?.getD t.place })
      fun e t => failed e { t with place := t.place.up?.getD t.place }) :
    Yields (atPart i m) s ok failed := by
  simp only [Yields, ExceptT.run, atPart] at hm ⊢
  cases hdown : s.place.down? i with
  | none => exact hnone hdown
  | some p =>
    have hpart := hm p hdown
    obtain ⟨result, t⟩ := m { s with place := p }
    exact hpart

/-! ## Members and elements -/

/-- Assigns members by name. -/
def assignMembers (assign : Value → EditM κ Unit) : List (String × Value) → EditM κ Unit
  | [] => pure ()
  | (name, v) :: members => do
    atMember name (assign v)
    assignMembers assign members

/-- Assigns elements, from the one at `index` on. -/
def assignElements (assign : Value → EditM κ Unit) (index : Nat) : List Value → EditM κ Unit
  | [] => pure ()
  | v :: elements => do
    within [Path.index index] (atPart index (assign v))
    assignElements assign (index + 1) elements

variable (env : Env κ)

theorem setBitFields_eq (members : List (String × Value)) :
    setBitFields env members = assignMembers (setBits env) members := by
  induction members with
  | nil => rw [setBitFields, assignMembers]
  | cons member members ih => rw [setBitFields, assignMembers, ih]

theorem setBitElements_eq (index : Nat) (elements : List Value) :
    setBitElements env index elements = assignElements (setBits env) index elements := by
  induction elements generalizing index with
  | nil => rw [setBitElements, assignElements]
  | cons v elements ih => rw [setBitElements, assignElements, ih]

theorem setFields_eq (members : List (String × Value)) :
    setFields env members = assignMembers (setBytes env) members := by
  induction members with
  | nil => rw [setFields, assignMembers]
  | cons member members ih => rw [setFields, assignMembers, ih]

theorem setElements_eq (index : Nat) (elements : List Value) :
    setElements env index elements = assignElements (setBytes env) index elements := by
  induction elements generalizing index with
  | nil => rw [setElements, assignElements]
  | cons v elements ih => rw [setElements, assignElements, ih]

end EditM

/-! ## Steps of following a change -/

/-- The field under the layout that its rule decides, if it has one. -/
def followLayout (env : Env κ) (frames : List (Frame κ)) (f : Frame κ)
    (field : Field κ (Layout κ)) (a : Atom κ) : LedgerM κ (Outcome κ) :=
  match field.layout with
  | .given _ => return ⟨a, none⟩
  | .computed rule =>
    match env.resolve ⟨f.plug a, frames⟩ f.left.length (.computed rule) with
    | .error e => return ⟨a, some e⟩
    | .ok layout => rebuild env (f :: frames) a layout

/-- The field with the extent that its rule decides, if it has one. -/
def followExtent (env : Env κ) (frames : List (Frame κ)) (f : Frame κ)
    (field : Field κ (Layout κ)) (out : Outcome κ) : Outcome κ :=
  match out.error?, field.extent? with
  | some e, _ => ⟨out.atom, some e⟩
  | none, none => out
  | none, some rule =>
    match env.extent ⟨f.plug out.atom, frames⟩ f.left.length rule with
    | .error e => ⟨out.atom, some e⟩
    | .ok extent => ⟨out.atom.forceExtent env.config extent, none⟩

theorem followField_eq (env : Env κ) (frames : List (Frame κ)) (f : Frame κ)
    (field : Field κ (Layout κ)) (a : Atom κ) :
    followField env frames f field a =
      (do return followExtent env frames f field (← followLayout env frames f field a)) := by
  have hrest (out : Outcome κ) :
      (match out.error?, field.extent? with
        | some e, _ => pure ⟨out.atom, some e⟩
        | none, none => pure out
        | none, some rule =>
          match env.extent ⟨f.plug out.atom, frames⟩ f.left.length rule with
          | .error e => pure ⟨out.atom, some e⟩
          | .ok extent => pure ⟨out.atom.forceExtent env.config extent, none⟩ :
        LedgerM κ (Outcome κ)) = pure (followExtent env frames f field out) := by
    rw [followExtent]
    split
    · rfl
    · rfl
    · split <;> rfl
  unfold followField followLayout
  cases field.layout with
  | given layout => exact bind_congr hrest
  | computed rule =>
    dsimp only
    cases env.resolve ⟨f.plug a, frames⟩ f.left.length (.computed rule) with
    | error e => exact bind_congr hrest
    | ok layout => exact bind_congr hrest

/-- Loads a member of a union anew, unless it is the one at `kept`. -/
def reloadMember (env : Env κ) (frames : List (Frame κ)) (f : Frame κ) (backing : Bytes) (kept : Nat)
    (a : Atom κ) : LedgerM κ (Outcome κ) :=
  if f.left.length = kept then return ⟨a, none⟩
  else LedgerM.fromBytes backing f.info.offset (load env Layout.nestingLimit (f :: frames) a)

theorem reloadMembers_cons (env : Env κ) (frames : List (Frame κ)) (info : Info κ) (backing : Bytes)
    (kept : Nat) (left right : List (Atom κ)) (a : Atom κ) :
    reloadMembers env frames info backing kept left (a :: right) = (do
      let out ← reloadMember env frames ⟨info, .overlay backing, left, right⟩ backing kept a
      match out.error? with
      | some e => return ⟨out.atom :: right, some (e.within [a.info.name])⟩
      | none =>
        let later ← reloadMembers env frames info backing kept (out.atom :: left) right
        return { later with parts := out.atom :: later.parts }) := by
  rw [reloadMembers, reloadMember]
  split <;> rfl

end BinaryLayout
