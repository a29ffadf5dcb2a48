import BinaryLayout.Proofs.Document.Places
import BinaryLayout.Proofs.Edit.Rules
import BinaryLayout.Proofs.Placement.Load
import BinaryLayout.Proofs.Tree.Walk

/-!
# Rules for operations on documents

What holds after each of the steps that operations are made of, whatever is to be proved of them.

A new outermost atom is the newest one, so its handle leads to it, and it stays the newest one while it
is loaded. Loading it is loading a blank atom from the source of the document; if that fails there is no
new atom.

## Main definitions

* `Document.Throughout`: a property of all atoms of a document.
* `Document.next`, `Document.loadingNext`: the atom that is made next, and where loading it starts.

## Main statements

* `DocumentM.yields_found`, `DocumentM.yields_place`: the place of a handle.
* `Document.yields_edit_found`, `Document.yields_edit`: an edit of the atom with a handle.
* `Document.yields_loadNew_next`: a new outermost atom is there when it was loaded, and only then.
-/

namespace BinaryLayout

variable {κ α : Type}

namespace DocumentM

variable {d : Document κ} {failed : Error → Document κ → Prop}

theorem yields_get (d : Document κ) :
    Yields (get : DocumentM κ (Document κ)) d (fun e t => e = d ∧ t = d) failed := ⟨rfl, rfl⟩

/-- What is done with the document as it is. -/
theorem yields_got {f : Document κ → DocumentM κ α} {ok : α → Document κ → Prop}
    (h : Yields (f d) d ok failed) : Yields (get >>= f) d ok failed :=
  h

theorem yields_ofExcept {ok : α → Document κ → Prop} {result : Except Error α}
    (hok : ∀ a, result = .ok a → ok a d) (he : ∀ e, result = .error e → failed e d) :
    Yields (ofExcept result) d ok failed := by
  cases result with
  | ok a => exact hok a rfl
  | error e => exact he e rfl

/-- The place that a handle leads to. -/
theorem yields_found {id : Nat} {p : Place κ} {ok : Place κ → Document κ → Prop}
    (hfind : d.find? id = some p) (h : ok p d) : Yields (place id) d ok failed := by
  refine yields_got ?_
  rw [Document.place, hfind]
  exact Yields.pure h

/-- The place of a live handle. -/
theorem yields_place {id : Nat} (h : d.Live id) :
    Yields (place id) d (fun p t => (p ∈ d.places ∧ d.find? id = some p ∧ p.atom.info.id = id)
      ∧ t = d) failed := by
  obtain ⟨p, hp, hfind, hid⟩ := Document.find?_of_live h
  exact yields_found hfind ⟨⟨hp, hfind, hid⟩, rfl⟩

/-- A computation on handles alone. -/
theorem yields_ofLedger {m : LedgerM κ α} {post : α → Ledger κ → Prop} (h : Ends m d.ledger post) :
    Yields (ofLedger m) d (fun a t => ∃ l, t = { d with ledger := l } ∧ post a l) failed :=
  ⟨_, rfl, h⟩

/-- A computation that loads from the source of the document. -/
theorem yields_ofLoad {m : LoadM κ α} {post : α → LoadState κ → Prop}
    (h : Ends m ⟨d.ledger, d.sources, .source d.source⟩ post) :
    Yields (ofLoad m) d (fun a t => ∃ s, t = { d with ledger := s.ledger, sources := s.sources }
      ∧ post a s) failed :=
  ⟨_, rfl, h⟩

/-- A computation on the open sources. -/
theorem yields_ofSources {path : Path} {m : Sources → Except SourceError α × Sources}
    {ok : α → Document κ → Prop} (hok : ∀ a, ok a { d with sources := (m d.sources).2 })
    (he : ∀ e, failed e { d with sources := (m d.sources).2 }) :
    Yields (ofSources path m) d ok failed := by
  refine (yields_get d).bind fun e t ht => ?_
  obtain ⟨rfl, rfl⟩ := ht
  refine Yields.via (fun _ u => u = { t with sources := (m t.sources).2 }) rfl fun _ u hu => ?_
  subst hu
  exact yields_ofExcept (fun a _ => hok a) fun e _ => he e

end DocumentM

namespace Document

variable {d : Document κ} {failed : Error → Document κ → Prop}

/-- An edit of the atom that a handle leads to. -/
theorem yields_edit_found {id : Nat} {p : Place κ} (hfind : d.find? id = some p) {m : EditM κ Unit}
    {ok : Unit → Document κ → Prop} (hm : Yields m ⟨d.ledger, p⟩
      (fun _ s => ok () ({ d with ledger := s.ledger }.put s.place))
      fun e s => failed (e.within p.path) ({ d with ledger := s.ledger }.put s.place)) :
    Yields (edit id m) d ok failed := by
  refine Yields.via (fun q t => q = p ∧ t = d) (DocumentM.yields_found hfind ⟨rfl, rfl⟩)
    fun q t ht => ?_
  obtain ⟨rfl, rfl⟩ := ht
  refine (DocumentM.yields_get t).bind fun e u hu => ?_
  obtain ⟨rfl, rfl⟩ := hu
  simp only [Yields, ExceptT.run] at hm
  generalize m ⟨u.ledger, q⟩ = run at hm ⊢
  obtain ⟨result, s⟩ := run
  refine Yields.via (fun _ t => t = { u with ledger := s.ledger }.put s.place)
    (Yields.modified rfl) fun _ t ht => ?_
  subst ht
  cases result with
  | ok a => exact hm
  | error e => exact hm

/-- An edit of the atom with a live handle. -/
theorem yields_edit {id : Nat} (h : d.Live id) {m : EditM κ Unit} {ok : Unit → Document κ → Prop}
    (hm : ∀ p ∈ d.places, d.find? id = some p → p.atom.info.id = id → Yields m ⟨d.ledger, p⟩
      (fun _ s => ok () ({ d with ledger := s.ledger }.put s.place))
      fun e s => failed (e.within p.path) ({ d with ledger := s.ledger }.put s.place)) :
    Yields (edit id m) d ok failed := by
  obtain ⟨p, hp, hfind, hid⟩ := find?_of_live h
  exact yields_edit_found hfind (hm p hp hfind hid)

/-! ## Properties of all atoms -/

/-- What is outermost when a changed place was put back: its own outermost atom, and others as before. -/
theorem mem_roots_put {p : Place κ} {a : Atom κ} (h : a ∈ (d.put p).roots) :
    a = p.root.atom ∨ a ∈ d.roots := by
  rw [put] at h
  split at h
  · obtain ⟨b, hb, rfl⟩ := List.mem_map.1 h
    split
    · exact .inl rfl
    · exact .inr (List.mem_filter.1 hb).1
  · exact .inr h

def Throughout (P : Atom κ → Prop) (d : Document κ) : Prop := ∀ a ∈ d.roots, Atom.Everywhere P a

namespace Throughout

variable {P : Atom κ → Prop}

theorem place (hd : d.Throughout P) {p : Place κ} (hp : p ∈ d.places) :
    Atom.Everywhere P p.root.atom :=
  hd _ (mem_places.1 hp)

/-- A changed place put back. -/
theorem put (hd : d.Throughout P) {p : Place κ} (hp : Atom.Everywhere P p.root.atom) (l : Ledger κ)
    (sources : Sources) : ({ d with ledger := l, sources }.put p).Throughout P := by
  intro a ha
  rcases mem_roots_put ha with rfl | ha
  · exact hp
  · exact hd a ha

/-- One more outermost atom. -/
theorem add (hd : d.Throughout P) {a : Atom κ} (ha : Atom.Everywhere P a) (l : Ledger κ) :
    ({ d with ledger := l }.add a).Throughout P := by
  intro b hb
  rcases List.mem_cons.1 hb with rfl | hb
  · exact ha
  · exact hd b (List.mem_filter.1 hb).1

/-- One outermost atom less. -/
theorem remove (hd : d.Throughout P) (a : Atom κ) : (d.remove a).Throughout P :=
  fun b hb => hd b (List.mem_filter.1 hb).1

end Throughout

end Document

/-! ## Loading an outermost atom -/

open Atom

namespace Document

variable {d : Document κ} {a : Atom κ} {rest : List (Atom κ)}

/-- The first outermost atom is found by its handle. -/
theorem find?_of_roots (h : d.roots = a :: rest) : d.find? a.info.id = some ⟨a, []⟩ := by
  obtain ⟨info, content, parts⟩ := a
  rw [find?, h, List.findSome?_cons, info_node, Place.withHandleIn, if_pos rfl]

/-- The first outermost atom stays the first one when it is changed. -/
theorem roots_put (h : d.roots = a :: rest) {b : Atom κ} (hid : b.info.id = a.info.id) :
    ∃ others, (d.put ⟨b, []⟩).roots = b :: others := by
  have hany : d.roots.any (fun c => decide (c.info.id = b.info.id)) = true := by
    rw [h, List.any_cons, decide_eq_true hid.symm, Bool.true_or]
  have hput : (d.put ⟨b, []⟩).roots = replace b (d.roots.filter fun c =>
      decide (c.info.id = b.info.id) || !anyHolds c.info.id b.parts) := by
    rw [put]
    exact congrArg roots (if_pos hany)
  rw [hput, h, List.filter_cons, decide_eq_true hid.symm, Bool.true_or, if_pos rfl, replace,
    List.map_cons, if_pos hid.symm]
  exact ⟨_, rfl⟩

/-- A changed place leaves the rules and the settings as they are. -/
theorem env_put (d : Document κ) (p : Place κ) : (d.put p).env = d.env := by
  rw [put]
  split <;> rfl

/-- No handle is handed out or given back when the first outermost atom is changed. -/
theorem ledger_put (h : d.roots = a :: rest) {b : Atom κ} (hid : b.info.id = a.info.id) :
    (d.put ⟨b, []⟩).ledger = d.ledger := by
  have hany : d.roots.any (fun c => decide (c.info.id = b.info.id)) = true := by
    rw [h, List.any_cons, decide_eq_true hid.symm, Bool.true_or]
  rw [put]
  exact (congrArg ledger (if_pos hany) :)

/-- The atom that is made next, without content. -/
def next (d : Document κ) (layout : Layout κ) (name : String) (offset : Nat) : Atom κ :=
  .blank d.ledger.take.1 name (.bytes layout) offset

/-- Where loading the atom that is made next starts. -/
def loadingNext (d : Document κ) : LoadState κ := ⟨d.ledger.take.2, d.sources, .source d.source⟩

/-- The first outermost atom is loaded, and stays the first one. -/
theorem yields_loadAtom_first (hroots : d.roots = a :: rest) (hnull : a.info.null = false) :
    Yields (loadAtom a.info.id) d
      (fun _ t => ∃ out s others, load d.env Layout.nestingLimit [] a
          ⟨d.ledger, d.sources, .source d.source⟩ = (out, s)
        ∧ out.error? = none ∧ out.atom.info.id = a.info.id ∧ t.roots = out.atom :: others
        ∧ t.ledger = s.ledger ∧ t.env = d.env)
      fun _ _ => ∃ out s, load d.env Layout.nestingLimit [] a
        ⟨d.ledger, d.sources, .source d.source⟩ = (out, s) ∧ out.error? ≠ none := by
  have hplace : Yields (DocumentM.place a.info.id) d (fun p t => p = ⟨a, []⟩ ∧ t = d)
      fun _ _ => ∃ out s, load d.env Layout.nestingLimit [] a
        ⟨d.ledger, d.sources, .source d.source⟩ = (out, s) ∧ out.error? ≠ none := by
    refine DocumentM.yields_got ?_
    rw [Document.place, find?_of_roots hroots]
    exact Yields.pure ⟨rfl, rfl⟩
  refine hplace.bind fun p t ht => ?_
  obtain ⟨rfl, rfl⟩ := ht
  dsimp only
  rw [hnull, if_neg Bool.false_ne_true]
  refine DocumentM.yields_got ?_
  have hload := (Ends.trivial (load t.env Layout.nestingLimit [] a)
    ⟨t.ledger, t.sources, .source t.source⟩).and
      (laid_load t.env Layout.nestingLimit [] a ⟨t.ledger, t.sources, .source t.source⟩)
  refine (DocumentM.yields_ofLoad hload).bind fun out u hu => ?_
  obtain ⟨s, rfl, hrun, hlaid⟩ := hu
  split
  · rename_i e herror
    refine Yields.via (fun _ _ => True) trivial fun _ _ _ => Yields.throw ⟨out, s, hrun.symm, ?_⟩
    rw [herror]
    exact Option.some_ne_none e
  · rename_i herror
    obtain ⟨-, hsite⟩ := hlaid herror
    have hid := Info.id_of_site hsite
    let u : Document κ := { t with ledger := s.ledger, sources := s.sources }
    obtain ⟨others, hput⟩ := roots_put (d := u) hroots hid
    exact Yields.modified ⟨out, s, others, hrun.symm, herror, hid, hput,
      ledger_put (d := u) hroots hid, env_put u _⟩

/-- A new outermost atom is there when it was loaded, and only then. -/
theorem yields_loadNew_next (d : Document κ) (layout : Layout κ) (name : String) (offset : Nat) :
    Yields (loadNew layout name offset) d
      (fun id t => ∃ out s others, load d.env Layout.nestingLimit [] (d.next layout name offset)
          d.loadingNext = (out, s)
        ∧ out.error? = none ∧ out.atom.info.id = id ∧ t.roots = out.atom :: others
        ∧ t.ledger = s.ledger ∧ t.env = d.env)
      fun _ _ => ∃ out s, load d.env Layout.nestingLimit [] (d.next layout name offset)
        d.loadingNext = (out, s) ∧ out.error? ≠ none := by
  have hcreate : Yields (create layout name offset) d
      (fun id t => t = ({ d with ledger := d.ledger.take.2 } : Document κ).add
        (d.next layout name offset) ∧ (d.next layout name offset).info.id = id)
      fun _ _ => ∃ out s, load d.env Layout.nestingLimit [] (d.next layout name offset)
        d.loadingNext = (out, s) ∧ out.error? ≠ none := ⟨rfl, rfl⟩
  refine hcreate.bind fun id t ht => ?_
  obtain ⟨rfl, rfl⟩ := ht
  refine Yields.via (fun _ u => ∃ out s others, load d.env Layout.nestingLimit []
      (d.next layout name offset) d.loadingNext = (out, s) ∧ out.error? = none
      ∧ out.atom.info.id = (d.next layout name offset).info.id ∧ u.roots = out.atom :: others
      ∧ u.ledger = s.ledger ∧ u.env = d.env) ?_ fun _ u hu => Yields.pure hu
  refine Yields.tryCatch (yields_loadAtom_first rfl rfl) fun e u hfailed => ?_
  exact ((Yields.trivial _ u).mono (fun _ _ h => h) fun _ _ _ => hfailed).bind fun p v _ =>
    Yields.via (fun _ _ => True) (Yields.modified trivial) fun _ _ _ => Yields.throw hfailed

end Document

end BinaryLayout
