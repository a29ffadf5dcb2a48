import BinaryLayout.Proofs.Handles.Operations
import BinaryLayout.Proofs.Naming.Document
import BinaryLayout.Proofs.Naming.Members

/-!
# Paths lead back

The path from one atom down to another one, as it is written, leads from the one to the other. A member
of a record or a union is found by its name, and an element by its index. The root of bits has no name; its members are found from the host.

Paths do not lead through pointers, and so not from a pointer to anything in what it refers to.

## Main definitions

* `Place.LeadsTo`: where paths lead from an atom.

## Main statements

* `Place.lookup_join_part`: one part, and then the rest.
* `Document.Reachable.lookup_inside`: paths lead back, in every document that operations make.
* `PathsOfMembers.lookup_inside_ne_of_pointer`: not from a pointer.
-/

namespace BinaryLayout

variable {κ : Type}

open Atom

def Content.isPointer : Content → Bool
  | .pointer _ => true
  | _ => false

/-- The part has no name. -/
def Content.isHost : Content → Bool
  | .host _ => true
  | _ => false

namespace Place

variable {p q r x : Place κ}

/-! ## Members -/

theorem member?_of_content (hcontent : p.atom.content = .group ∨ ∃ backing, p.atom.content = .overlay backing)
    (i : Nat) : p.member? i = p.down? i := by
  rw [member?]
  rcases hcontent with hcontent | ⟨backing, hcontent⟩ <;> rw [hcontent]

/-- The segment of a member, and then the rest. -/
theorem lookup_join_part (hq : q ∈ p.parts)
    (hcontent : p.atom.content = .group ∨ ∃ backing, p.atom.content = .overlay backing)
    (hconforms : p.atom.Conforms) (hshaped : p.atom.Shaped) (hlegible : p.atom.info.layout.Legible)
    (hcount : p.atom.parts.length ≤ pow2 64) {rest : String} (h : q.lookup rest = .ok x) :
    p.lookup (Path.join (segment p.atom.info q.atom.info.name) rest) = .ok x := by
  obtain ⟨i, hpart, hdown⟩ := down?_of_mem_parts hq
  have hadmits := hshaped.admits
  have hpointer : ∀ wire, p.atom.content ≠ .pointer wire := by
    rcases hcontent with hcontent | ⟨backing, hcontent⟩ <;> rw [hcontent] <;> exact nofun
  have hmarks := hconforms.marks hpart
    (hshaped.layout_ne_pointer (List.ne_nil_of_mem (List.mem_of_getElem? hpart)) hpointer)
  generalize hsegment : segment p.atom.info q.atom.info.name = mark at hmarks
  cases hmarks with
  | name hname =>
    have hnamed : p.atom.info.layout.memberNames ≠ [] := List.ne_nil_of_mem (List.mem_of_getElem? hname)
    have hsame := AtomLayout.Declares.memberName (hconforms.declares hpart) hnamed
    obtain rfl : q.atom.info.name = mark := Option.some.inj (hsame.symm.trans hname)
    refine lookup_join_field (hlegible.names _ (List.mem_of_getElem? hname)) ?_ h
    have hnodup := hconforms.nodup_names hnamed hlegible.distinct
    rw [field, memberNamed?, indexOf?_of_part hcontent hnodup hpart, Option.bind_some,
      member?_of_content hcontent, hdown]
  | index harray =>
    have hi : i < p.atom.parts.length := (List.getElem?_eq_some_iff.1 hpart).1
    refine lookup_join_item (Nat.lt_of_lt_of_le hi hcount) ?_ h
    rw [item, member?_of_content hcontent, hdown]
  | root hlayout =>
    rw [hlayout] at hadmits
    rcases hcontent with hcontent | ⟨backing, hcontent⟩ <;> rw [hcontent] at hadmits <;> cases hadmits

/-- The root of bits leaves no trace in a path. -/
theorem segment_of_host (hq : q ∈ p.parts) {pad : Bitmap} (hcontent : p.atom.content = .host pad)
    (hconforms : p.atom.Conforms) (hshaped : p.atom.Shaped) :
    segment p.atom.info q.atom.info.name = "" := by
  obtain ⟨i, hpart, -⟩ := down?_of_mem_parts hq
  have hdeclares := hconforms.declares hpart
  have hadmits := hshaped.admits
  rw [hcontent] at hadmits
  rw [segment]
  generalize p.atom.info.layout = layout at hadmits hdeclares ⊢
  rcases layout with layout | layout <;> cases layout <;> try cases hadmits
  exact hdeclares.2.1

/-- The root of bits is the only part of its host. -/
theorem root_of_host (hq : q ∈ p.parts) {pad : Bitmap} (hcontent : p.atom.content = .host pad)
    (hshaped : p.atom.Shaped) : p.atom.parts = [q.atom] ∧ q.atom.isBits = true ∧ p.down? 0 = some q := by
  have hholds := hshaped.holds
  rw [hcontent] at hholds
  obtain ⟨root, hparts, hbits⟩ := hholds
  have hroot : q.atom = root := by
    have hmem := mem_parts_atom hq
    rwa [hparts, List.mem_singleton] at hmem
  obtain ⟨i, hpart, hdown⟩ := down?_of_mem_parts hq
  obtain rfl : i = 0 := by
    have hi := (List.getElem?_eq_some_iff.1 hpart).1
    rw [hparts, List.length_singleton] at hi
    omega
  rw [← hroot] at hparts hbits
  exact ⟨hparts, hbits, hdown⟩

/-- What is measured in bits is no host. -/
theorem content_ne_host (hshaped : q.atom.Shaped) (hbits : q.atom.isBits = true) (pad : Bitmap) :
    q.atom.content ≠ .host pad := by
  intro heq
  have hadmits := hshaped.admits
  rw [isBits] at hbits
  rw [heq] at hadmits
  generalize q.atom.info.layout = layout at hadmits hbits
  rcases layout with layout | layout
  · cases hbits
  · cases layout <;> cases hadmits

theorem members_of_not_host {a : Atom κ} (hhost : ∀ pad, a.content ≠ .host pad) : a.members = a.ownMembers := by
  obtain ⟨info, content, parts⟩ := a
  cases content with
  | host pad => exact absurd rfl (hhost pad)
  | _ => rfl

theorem members_of_host {a root : Atom κ} {pad : Bitmap} (hcontent : a.content = .host pad)
    (hparts : a.parts = [root]) : a.members = root.ownMembers := by
  obtain ⟨info, content, parts⟩ := a
  obtain rfl : content = .host pad := hcontent
  obtain rfl : parts = [root] := hparts
  rfl

/-- The members of a host are those of its root. -/
theorem lookup_of_root (hq : q ∈ p.parts) {pad : Bitmap} (hcontent : p.atom.content = .host pad)
    (hp : p.atom.Shaped) (hshaped : q.atom.Shaped) {text : String} (h : q.lookup text = .ok x) :
    p.lookup text = .ok x ∨ x = q := by
  obtain ⟨hparts, hbits, hdown⟩ := root_of_host hq hcontent hp
  have hhost := content_ne_host hshaped hbits
  have hmember (i : Nat) {m : Place κ} (hm : q.member? i = some m) : p.member? i = some m := by
    rw [member?] at hm ⊢
    simp only [hcontent, hdown]
    split at hm
    · rwa [‹q.atom.content = _›]
    · rwa [‹q.atom.content = _›]
    · exact absurd ‹q.atom.content = _› (hhost _)
    · cases hm
  have hmembers : p.atom.members = q.atom.members :=
    (members_of_host hcontent hparts).trans (members_of_not_host hhost).symm
  refine lookup_of_members (fun name m hm => ?_) (fun i m hm => ?_) h
  · rw [field] at hm ⊢
    split at hm
    · rename_i n hn
      obtain ⟨i, hi, hn⟩ := Option.bind_eq_some_iff.1 hn
      have hfound : p.memberNamed? name = some n := by
        rw [memberNamed?, indexOf?, hmembers, ← indexOf?, hi, Option.bind_some, hmember _ hn]
      rw [hfound]
      exact hm
    · cases hm
  · rw [item] at hm ⊢
    split at hm
    · rename_i n hn
      rw [hmember _ hn]
      exact hm
    · cases hm

/-- Paths lead from one atom to another one inside it: there is no pointer around it, from the one on, and it is
not the root of bits. -/
structure LeadsTo (r x : Place κ) : Prop where
  inside : x ∈ r.preorder
  pointer : ∀ y ∈ r.preorder, x ∈ y.preorder → y ≠ x → y.atom.content.isPointer = false
  host : ∀ y ∈ r.preorder, x ∈ y.parts → y.atom.content.isHost = false

/-- The path down to an atom leads there. -/
theorem lookup_text_inside (hconforms : Everywhere Conforms r.atom) (hshaped : Everywhere Shaped r.atom)
    (hlegible : Everywhere (fun a => a.info.layout.Legible ∧ a.parts.length ≤ pow2 64) r.atom)
    (hx : r.LeadsTo x) : r.lookup (r.inside x).text = .ok x := by
  induction r using induction_parts with
  | h r ih =>
    have hmem := hx.inside
    rw [preorder_eq, List.mem_cons, List.mem_flatMap] at hmem
    rcases hmem with rfl | ⟨q, hq, hqx⟩
    · rw [inside_self]
      exact lookup_empty
    have hpart := mem_parts_atom hq
    have hrest := ih q hq (hconforms.part hpart) (hshaped.part hpart) (hlegible.part hpart)
      ⟨hqx, fun y hy => hx.pointer y (mem_preorder_of_part hq hy), fun y hy => hx.host y (mem_preorder_of_part hq hy)⟩
    have hdown := inside_part hq hqx
    have hne : r ≠ x := by
      rintro rfl
      rw [inside_self] at hdown
      cases hdown
    rw [hdown, Path.text_cons]
    have hholds := hshaped.here.holds
    cases hcontent : r.atom.content with
    | group =>
      exact lookup_join_part hq (.inl hcontent) hconforms.here hshaped.here hlegible.here.1 hlegible.here.2 hrest
    | overlay backing =>
      exact lookup_join_part hq (.inr ⟨backing, hcontent⟩) hconforms.here hshaped.here hlegible.here.1
        hlegible.here.2 hrest
    | pointer wire =>
      have hfree := hx.pointer r r.self_mem_preorder hx.inside hne
      rw [hcontent] at hfree
      cases hfree
    | host pad =>
      rw [segment_of_host hq hcontent hconforms.here hshaped.here, Path.join_empty_left]
      refine (lookup_of_root hq hcontent hshaped.here (hshaped.part hpart).here hrest).resolve_right ?_
      rintro rfl
      have hfree := hx.host r r.self_mem_preorder hq
      rw [hcontent] at hfree
      cases hfree
    | _ =>
      rw [hcontent] at hholds
      have hnil : r.atom.parts = [] := hholds
      rw [hnil] at hpart
      cases hpart

end Place

/-! ## Documents -/

/-- In every document that operations make, the path from one atom down to another one, as it is written, leads
from the one to the other. -/
theorem Document.Reachable.lookup_inside {d : Document κ} (hd : d.Reachable) {r x : Place κ} (hr : r ∈ d.places)
    (hlegible : ∀ y ∈ r.preorder, y.atom.info.layout.Legible) (hcount : ∀ y ∈ r.preorder, y.atom.parts.length ≤ pow2 64)
    (hx : r.LeadsTo x) : r.lookup (r.inside x).text = .ok x :=
  Place.lookup_text_inside (hd.conforms.place hr).of_assemble (hd.balanced.shaped_place hr).of_assemble
    (Place.everywhere_preorder.1 fun y hy => ⟨hlegible y hy, hcount y hy⟩) hx

namespace PathsOfMembers

open Document

/-- Nothing is computed. -/
def empty : Document Empty where
  env := ⟨{}, ⟨nofun, nofun, nofun, nofun, nofun, nofun, nofun, nofun⟩⟩
  sources := [.memory #[1, 0x2B] false 0]
  source := 0

/-- A number, and a host of bits with an array in it. -/
def layout : Layout Empty :=
  .record "R" [⟨"n", .given (.int .u8), none, none⟩,
    ⟨"b", .given (.bits (.record "B" [⟨"low", .given (.int 4 false)⟩,
      ⟨"high", .given (.array (.int 2 false) (.counted 2))⟩]) .big), none, none⟩]

def record : Document Empty := ((Operation.loadNew layout "r" 0).run.run empty).2

/-- An element of bits is found from the record. -/
theorem lookup_inside_bits : ∃ r ∈ record.places, ∃ x ∈ r.preorder,
    r.inside x = ["b", "", "high", "[1]"] ∧ r.lookup "b.high[1]" = .ok x := by
  have hrecord : Reachable record := .step (.loadNew layout "r" 0) (.empty ..) nofun
  obtain ⟨r, hr, -, -, hshown⟩ := shown_of_live (show record.Live 0 by decide +kernel)
    (fun r => decide (∀ y ∈ r.preorder, (y.atom.info.layout.Legible ∧ y.atom.parts.length ≤ pow2 64)
        ∧ y.atom.content.isPointer = false)
      && r.preorder.any fun x => x.up?.all (fun y => !y.atom.content.isHost) && r.inside x == ["b", "", "high", "[1]"])
    (by decide +kernel)
  rw [Bool.and_eq_true, decide_eq_true_iff, List.any_eq_true] at hshown
  obtain ⟨hall, x, hx, hshown⟩ := hshown
  rw [Bool.and_eq_true, beq_iff_eq] at hshown
  refine ⟨r, hr, x, hx, hshown.2, ?_⟩
  have hhost (y : Place Empty) (hy : x ∈ y.parts) : y.atom.content.isHost = false := by
    have hup := hshown.1
    rwa [Place.mem_parts.1 hy, Option.all_some, Bool.not_eq_true'] at hup
  have hfound := hrecord.lookup_inside hr (fun y hy => (hall y hy).1.1) (fun y hy => (hall y hy).1.2)
    ⟨hx, fun y hy _ _ => (hall y hy).2, fun y _ => hhost y⟩
  rwa [hshown.2] at hfound

def pointer : Layout Empty :=
  .pointer .u8 (.record "R" [⟨"f", .given (.int .u8), none, none⟩]) .absolute

def followed : Document Empty :=
  ((Operation.dereference 0).run.run ((Operation.loadNew pointer "p" 0).run.run empty).2).2

/-- The path from a pointer to a field of what it refers to, with no other pointer between them, leads nowhere. -/
theorem lookup_inside_ne_of_pointer : followed.Reachable ∧ ∃ r ∈ followed.places, ∃ x ∈ r.preorder,
    (∀ y ∈ r.preorder, y.atom.info.layout.Legible)
      ∧ (∀ y ∈ r.preorder, x ∈ y.preorder → y ≠ r → y.atom.content.isPointer = false)
      ∧ (∀ y : Place Empty, x ∈ y.parts → y.atom.content.isPointer = false ∧ y.atom.content.isHost = false)
      ∧ r.lookup (r.inside x).text ≠ .ok x := by
  have hloaded : Reachable ((Operation.loadNew pointer "p" 0).run.run empty).2 :=
    .step (.loadNew pointer "p" 0) (.empty ..) nofun
  refine ⟨.step (.dereference 0) hloaded (List.forall_mem_singleton.2 (by decide +kernel)), ?_⟩
  obtain ⟨r, hr, -, -, hshown⟩ := shown_of_live (show followed.Live 0 by decide +kernel)
    (fun r => decide (∀ y ∈ r.preorder, y.atom.info.layout.Legible)
      && decide (∀ y ∈ r.parts.flatMap Place.preorder, y.atom.content.isPointer = false)
      && r.preorder.any fun x =>
        x.up?.all (fun y => !y.atom.content.isPointer && !y.atom.content.isHost)
          && (r.lookup (r.inside x).text).toOption.isNone)
    (by decide +kernel)
  simp only [Bool.and_eq_true, decide_eq_true_iff, List.any_eq_true] at hshown
  obtain ⟨⟨hlegible, hfree⟩, x, hx, hup, hnone⟩ := hshown
  refine ⟨r, hr, x, hx, hlegible, fun y hy _ hne => ?_, fun y hy => ?_, fun hfound => ?_⟩
  · rw [Place.preorder_eq, List.mem_cons] at hy
    exact hfree y (hy.resolve_left hne)
  · rw [Place.mem_parts.1 hy, Option.all_some] at hup
    simpa using hup
  · rw [hfound] at hnone
    cases hnone

end PathsOfMembers

end BinaryLayout
