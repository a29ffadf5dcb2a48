import BinaryLayout.Proofs.Replay.Follow
import BinaryLayout.Proofs.Tree.Walk

/-!
# Setting an atom to the value that it has

A value that was read from an atom takes the same way back: fields go to the members of their names,
elements to those of their numbers, and what has no parts is encoded to the bytes that it was decoded
from. Each of these edits is followed by everything that follows a change, and leaves the tree as it
was, up to handles and flags. So the next one finds what the first one found.

## Main definitions

* `Retraces`: an edit that succeeds and leaves everything as it was.

## Main statements

* `EditM.retraces_setValue`: setting an atom of a sound tree to its value.
-/

namespace BinaryLayout

variable {κ : Type}

open Atom

/-- The edit succeeds and leaves everything as it was, up to handles and flags. -/
def Retraces (m : EditM κ Unit) (s : Workplace κ) : Prop :=
  Yields m s (fun _ t => t.place.plain = s.place.plain) fun _ _ => False

/-- The workplace is a place in a sound tree. -/
def Workplace.Sound (env : Env κ) (s : Workplace κ) : Prop := SoundAround env s.place.atom s.place.frames

variable {env : Env κ} {s t : Workplace κ}

theorem Workplace.Sound.of_plain (h : s.Sound env)
    (hplain : t.place.plain = s.place.plain) : t.Sound env :=
  SoundAround.of_plain h (congrArg Place.atom hplain.symm) (congrArg Place.frames hplain.symm)

/-- The atom at the place of a sound workplace. -/
theorem Workplace.Sound.atom (h : s.Sound env) : s.place.atom.Sound env := (SoundAround.atom h).here

namespace Retraces

theorem pure (s : Workplace κ) : Retraces (Pure.pure () : EditM κ Unit) s := rfl

theorem bind {m : EditM κ Unit} {f : Unit → EditM κ Unit} (hm : Retraces m s)
    (hf : ∀ t : Workplace κ, t.place.plain = s.place.plain → Retraces (f ()) t) : Retraces (m >>= f) s :=
  Yields.bind hm fun _ t ht => (hf t ht).mono (fun _ _ hu => hu.trans ht) fun _ _ h => h

theorem within {m : EditM κ Unit} (outer : Path) (hm : Retraces m s) : Retraces (EditM.within outer m) s :=
  EditM.yields_within outer hm

end Retraces

namespace Place

theorem plain_mk (a : Atom κ) (frames : List (Frame κ)) :
    plain ⟨a, frames⟩ = ⟨a.plain, frames.map Frame.plain⟩ := rfl

/-- Going out of two places that agree leads to two places that agree. -/
theorem up?_of_plain {p q outer : Place κ} (h : p.plain = q.plain) (hq : q.up? = some outer) :
    ∃ outer', p.up? = some outer' ∧ outer'.plain = outer.plain := by
  obtain ⟨a, frames⟩ := p
  obtain ⟨b, frames'⟩ := q
  rw [plain_mk, plain_mk, Place.mk.injEq] at h
  obtain ⟨hatom, hframes⟩ := h
  cases frames' with
  | nil => cases hq
  | cons g frames' =>
    cases hq
    obtain ⟨f, frames, rfl, hf, hrest⟩ := List.map_eq_cons_iff.1 hframes
    refine ⟨_, rfl, ?_⟩
    rw [plain_mk, plain_mk, Frame.plug_of_plain hf hatom, hrest]

end Place

/-! ## Values -/

namespace Atom

/-- Where the value of an atom is from. -/
inductive Worth (path : Path) (a : Atom κ) : Value → Prop
  | number {bits : Nat} {signed : Bool} {value : Bitmap} (hlayout : a.info.layout = .bits (.int bits signed))
    (hcontent : a.content = .bits value) : Worth path a value.toValue
  | bitFields {name : String} {fields : List (BitField κ (BitLayout κ))} {members : List (String × Value)}
    (hlayout : a.info.layout = .bits (.record name fields)) (hcontent : a.content = .group)
    (hvalues : fieldsAt path a.info a.parts = .ok members) : Worth path a (.fields members)
  | bitElements {element : BitLayout κ} {shape : BitShape κ} {elements : List Value}
    (hlayout : a.info.layout = .bits (.array element shape)) (hcontent : a.content = .group)
    (hvalues : itemsAt path a.info a.parts = .ok elements) : Worth path a (.items elements)
  | fields {name : String} {fields : List (Field κ (Layout κ))} {members : List (String × Value)}
    (hlayout : a.info.layout = .bytes (.record name fields)) (hcontent : a.content = .group)
    (hvalues : fieldsAt path a.info a.parts = .ok members) : Worth path a (.fields members)
  | members {name : String} {layouts : List (String × Layout κ)} {size : Nat} {backing : Bytes}
    {members : List (String × Value)} (hlayout : a.info.layout = .bytes (.union name layouts size))
    (hcontent : a.content = .overlay backing) (hvalues : fieldsAt path a.info a.parts = .ok members) :
    Worth path a (.fields members)
  | elements {element : Layout κ} {shape : Shape κ} {elements : List Value}
    (hlayout : a.info.layout = .bytes (.array element shape)) (hcontent : a.content = .group)
    (hvalues : itemsAt path a.info a.parts = .ok elements) : Worth path a (.items elements)
  | host {root : BitLayout κ} {order : ByteOrder} {pad : Bitmap} {v : Value}
    (hlayout : a.info.layout = .bytes (.bits root order)) (hcontent : a.content = .host pad)
    (hvalue : rootAt path a.info a.parts = .ok v) : Worth path a v
  | pointer {wire : IntFormat} {target : Layout κ} {policy : AddressPolicy κ} {raw : Bytes}
    (hlayout : a.info.layout = .bytes (.pointer wire target policy)) (hcontent : a.content = .pointer raw) :
    Worth path a (wire.toValue raw)
  | leaf {layout : Layout κ} {raw : Bytes} {v : Value} (hlayout : a.info.layout = .bytes layout)
    (hleaf : layout.isLeaf = true) (hcontent : a.content = .raw raw) (hvalue : layout.decode raw = .ok v) :
    Worth path a v

variable {path : Path} {a : Atom κ} {v : Value}

/-- The value of a layout without parts is decoded from its bytes. -/
theorem decode_of_scalarAt {layout : Layout κ} {raw : Bytes} (h : scalarAt path layout (.raw raw) = .ok v) :
    layout.decode raw = .ok v := by
  rw [scalarAt, rawAt] at h
  dsimp only at h
  split at h
  · split at h
    · rename_i hdecode
      rw [hdecode]
      exact h
    · cases h
  · exact h

/-- An atom that has a value is not what a null pointer refers to, and it has content. -/
theorem readable_of_valueAt (h : valueAt path a = .ok v) : a.info.null = false ∧ a.content ≠ .empty := by
  obtain ⟨info, content, parts⟩ := a
  rw [valueAt.eq_def] at h
  cases hreadable : readable path info.null content with
  | error e =>
    dsimp only at h
    rw [hreadable] at h
    cases h
  | ok _ =>
    rw [readable] at hreadable
    split at hreadable
    · cases hreadable
    · rename_i hnull
      split at hreadable
      · cases hreadable
      · rename_i hcontent
        exact ⟨by simpa using hnull, hcontent⟩

/-- The value of an atom whose content fits its layout. -/
theorem worth_of_valueAt (hshaped : a.Shaped) (h : valueAt path a = .ok v) : a.Worth path v := by
  obtain ⟨hnull, hempty⟩ := readable_of_valueAt h
  have hadmits := hshaped.admits
  have hreadable : readable path a.info.null a.content = .ok () := by
    rw [readable, hnull, if_neg Bool.false_ne_true, if_neg hempty]
  obtain ⟨info, content, parts⟩ := a
  rw [valueAt.eq_def] at h
  dsimp only [info_node, content_node] at h hempty hadmits hreadable
  rw [hreadable] at h
  dsimp only at h
  cases hlayout : info.layout with
  | bits layout =>
    rw [hlayout] at h hadmits
    cases layout with
    | int bits signed =>
      cases content with
      | bits value =>
        cases h
        exact .number hlayout rfl
      | empty => exact absurd rfl hempty
      | raw | group | overlay | pointer | host => cases hadmits
    | record name fields =>
      cases content with
      | group =>
        obtain ⟨members, hmembers, rfl⟩ := ok_of_map h
        exact .bitFields hlayout rfl hmembers
      | empty => exact absurd rfl hempty
      | raw | bits | overlay | pointer | host => cases hadmits
    | array element shape =>
      cases content with
      | group =>
        obtain ⟨elements, helements, rfl⟩ := ok_of_map h
        exact .bitElements hlayout rfl helements
      | empty => exact absurd rfl hempty
      | raw | bits | overlay | pointer | host => cases hadmits
  | bytes layout =>
    rw [hlayout] at h hadmits
    cases layout with
    | record name fields =>
      cases content with
      | group =>
        obtain ⟨members, hmembers, rfl⟩ := ok_of_map h
        exact .fields hlayout rfl hmembers
      | empty => exact absurd rfl hempty
      | raw | bits | overlay | pointer | host => cases hadmits
    | union name members size =>
      cases content with
      | overlay backing =>
        obtain ⟨members, hmembers, rfl⟩ := ok_of_map h
        exact .members hlayout rfl hmembers
      | empty => exact absurd rfl hempty
      | raw | bits | group | pointer | host => cases hadmits
    | array element shape =>
      cases content with
      | group =>
        obtain ⟨elements, helements, rfl⟩ := ok_of_map h
        exact .elements hlayout rfl helements
      | empty => exact absurd rfl hempty
      | raw | bits | overlay | pointer | host => cases hadmits
    | bits root order =>
      cases content with
      | host pad => exact .host hlayout rfl h
      | empty => exact absurd rfl hempty
      | raw | bits | group | overlay | pointer => cases hadmits
    | pointer wire target policy =>
      cases content with
      | pointer raw =>
        cases h
        exact .pointer hlayout rfl
      | empty => exact absurd rfl hempty
      | raw | bits | group | overlay | host => cases hadmits
    | int | float | fixed | varint | text | block | constant | padding | align =>
      cases content with
      | raw bytes => exact .leaf hlayout rfl rfl (decode_of_scalarAt h)
      | empty => exact absurd rfl hempty
      | group | bits | overlay | pointer | host => cases hadmits

/-- The first of several fields that have values. -/
theorem fieldsAt_cons {info : Info κ} {as : List (Atom κ)} {name : String} {members : List (String × Value)}
    (h : fieldsAt path info as = .ok ((name, v) :: members)) :
    ∃ a rest, as = a :: rest ∧ a.info.name = name
      ∧ valueAt (path ++ [Place.segment info a.info.name]) a = .ok v
      ∧ fieldsAt path info rest = .ok members := by
  cases as with
  | nil => cases h
  | cons a rest =>
    rw [fieldsAt] at h
    cases hvalue : valueAt (path ++ [Place.segment info a.info.name]) a with
    | error e =>
      rw [hvalue] at h
      cases h
    | ok w =>
      rw [hvalue] at h
      obtain ⟨others, hrest, hsame⟩ := ok_of_map h
      cases hsame
      exact ⟨a, rest, rfl, rfl, hvalue, hrest⟩

/-- The first of several elements that have values. -/
theorem itemsAt_cons {info : Info κ} {as : List (Atom κ)} {elements : List Value}
    (h : itemsAt path info as = .ok (v :: elements)) :
    ∃ a rest, as = a :: rest ∧ valueAt (path ++ [Place.segment info a.info.name]) a = .ok v
      ∧ itemsAt path info rest = .ok elements := by
  cases as with
  | nil => cases h
  | cons a rest =>
    rw [itemsAt] at h
    cases hvalue : valueAt (path ++ [Place.segment info a.info.name]) a with
    | error e =>
      rw [hvalue] at h
      cases h
    | ok w =>
      rw [hvalue] at h
      obtain ⟨others, hrest, hsame⟩ := ok_of_map h
      cases hsame
      exact ⟨a, rest, rfl, hvalue, hrest⟩

theorem length_itemsAt {info : Info κ} {as : List (Atom κ)} {elements : List Value}
    (h : itemsAt path info as = .ok elements) : elements.length = as.length := by
  induction elements generalizing as with
  | nil =>
    cases as with
    | nil => rfl
    | cons a rest =>
      rw [itemsAt] at h
      split at h
      · cases h
      · obtain ⟨others, -, hsame⟩ := ok_of_map h
        cases hsame
  | cons v elements ih =>
    obtain ⟨a, rest, rfl, -, hrest⟩ := itemsAt_cons h
    rw [List.length_cons, List.length_cons, ih hrest]

end Atom

namespace EditM

/-! ## What goes around an edit -/

/-- What surrounds an atom follows. -/
theorem retraces_around {follow : Atom κ → List (Frame κ) → LedgerM κ (Surroundings κ)}
    (h : ∀ l, Ends (follow s.place.atom s.place.frames) l fun out _ =>
      out.error? = none ∧ out.frames.map Frame.plain = s.place.frames.map Frame.plain) :
    Retraces (around follow) s := by
  refine yields_around ((h s.ledger).mono fun out l hout => ⟨fun _ => ?_, fun e he => ?_⟩)
  · exact congrArg (Place.mk s.place.atom.plain) hout.2
  · rw [hout.1] at he
    cases he

theorem retraces_afterChange (hs : s.Sound env) :
    Retraces (afterChange env) s := by
  refine Retraces.bind (retraces_around fun l => retraced_followDependents hs l) fun t ht => ?_
  have hsound := hs.of_plain ht
  refine Retraces.bind (s := t) ?_ fun u hu => ?_
  · refine Yields.modified ?_
    show t.place.reflow.plain = t.place.plain
    rw [Place.reflow, Place.reflow_self hsound]
  refine Retraces.bind (retraces_around fun l => retraced_syncUnions (hsound.of_plain hu) l)
    fun v _ => Yields.modified ?_
  show Place.plain ⟨v.place.atom, markDirty v.place.frames⟩ = v.place.plain
  rw [Place.plain, plain_markDirty]
  rfl

/-- The atom is replaced by one that is the same. -/
theorem retraces_setAtom {a : Atom κ} (h : a.plain = s.place.atom.plain) : Retraces (setAtom a) s :=
  yields_setAtom (congrArg (Place.mk · (s.place.frames.map Frame.plain)) h)

theorem retraces_finish (hs : s.Sound env) : Retraces (finish env) s := by
  refine (yields_atom s).bind fun a t ht => ?_
  obtain ⟨rfl, rfl⟩ := ht
  refine Retraces.bind (retraces_setAtom (plain_ready _)) fun u hu => ?_
  exact retraces_afterChange (hs.of_plain hu)

/-- What has a value needs no preparation. -/
theorem retraces_prepare {path : Path} {v : Value} (hv : s.place.atom.valueAt path = .ok v) :
    Yields (prepare env) s (fun _ t => t = s) fun _ _ => False := by
  obtain ⟨hnull, hcontent⟩ := readable_of_valueAt hv
  refine (yields_atom s).bind fun a t ht => ?_
  obtain ⟨rfl, rfl⟩ := ht
  dsimp only
  rw [hnull, if_neg Bool.false_ne_true, if_neg hcontent]
  rfl

/-! ## Parts -/

/-- An edit of a part of a place that was come back to. -/
theorem retraces_atPart (hs : s.Sound env) (ht : t.place.plain = s.place.plain)
    {i : Nat} {a : Atom κ} (hpart : s.place.atom.parts[i]? = some a) {m : EditM κ Unit}
    (hm : ∀ u : Workplace κ, u.Sound env → u.place.atom.plain = a.plain → Retraces m u) :
    Retraces (atPart i m) t := by
  have hatom : t.place.atom.plain = s.place.atom.plain := congrArg Place.atom ht
  obtain ⟨b, hown, hb⟩ := exists_of_plain (parts_of_plain hatom) hpart
  obtain ⟨q, hdown, rfl⟩ := Place.down?_of_part hown
  refine yields_atPart (fun hnone => ?_) fun p hp => ?_
  · cases hdown.symm.trans hnone
  · obtain rfl : p = q := Option.some.inj (hp.symm.trans hdown)
    have hsound : Workplace.Sound env { t with place := p } := by
      have hwhole : Place.assemble p.atom p.frames = Place.assemble t.place.atom t.place.frames :=
        congrArg Place.atom (Place.root_down? hp)
      rw [Workplace.Sound, SoundAround, hwhole]
      exact hs.of_plain ht
    refine (hm _ hsound hb).mono (fun _ u hu => ?_) fun _ _ h => h
    obtain ⟨outer, hup, hplain⟩ := Place.up?_of_plain hu (Place.up?_down? hp)
    rw [hup, Option.getD_some]
    exact hplain

/-- An edit of a member, by its name. -/
theorem retraces_atMember (hs : s.Sound env) (ht : t.place.plain = s.place.plain)
    (hcontent : s.place.atom.content = .group ∨ ∃ backing, s.place.atom.content = .overlay backing)
    (hnodup : (s.place.atom.parts.map fun a => a.info.name).Nodup) {i : Nat} {a : Atom κ}
    (hpart : s.place.atom.parts[i]? = some a) {m : EditM κ Unit}
    (hm : ∀ u : Workplace κ, u.Sound env → u.place.atom.plain = a.plain → Retraces m u) :
    Retraces (atMember a.info.name m) t := by
  have hatom : t.place.atom.plain = s.place.atom.plain := congrArg Place.atom ht
  obtain ⟨b, hown, hb⟩ := exists_of_plain (parts_of_plain hatom) hpart
  have hindex : Place.indexOf? t.place.atom a.info.name = some i := by
    rw [← name_of_plain hb]
    refine Place.indexOf?_of_part ?_ ?_ hown
    · rw [content_of_plain hatom]
      exact hcontent
    · rw [names_of_plain (parts_of_plain hatom)]
      exact hnodup
  refine (yields_atom t).bind fun b u hu => ?_
  obtain ⟨rfl, rfl⟩ := hu
  rw [hindex]
  exact Retraces.within _ (retraces_atPart hs ht hpart hm)

/-- An edit that leaves every atom that has the value as it was. -/
def RetracesValue (env : Env κ) (inBits : Bool) (v : Value) (m : EditM κ Unit) : Prop :=
  ∀ {s : Workplace κ} {path : Path}, s.Sound env → s.place.atom.isBits = inBits →
    s.place.atom.valueAt path = .ok v → Retraces m s

section Parts

variable {assign : Value → EditM κ Unit} {inBits : Bool}

/-- Fields and members that are set to their values, from the one at `index` on. -/
theorem retraces_assignMembers (hs : s.Sound env)
    (hcontent : s.place.atom.content = .group ∨ ∃ backing, s.place.atom.content = .overlay backing)
    (hnodup : (s.place.atom.parts.map fun a => a.info.name).Nodup)
    (hbits : ∀ part ∈ s.place.atom.parts, part.isBits = inBits) {members : List (String × Value)}
    (hmembers : ∀ m ∈ members, RetracesValue env inBits m.2 (assign m.2)) {path : Path} (index : Nat)
    (hv : fieldsAt path s.place.atom.info (s.place.atom.parts.drop index) = .ok members)
    (ht : t.place.plain = s.place.plain) : Retraces (assignMembers assign members) t := by
  induction members generalizing index t with
  | nil => exact Retraces.pure t
  | cons member members ih =>
    obtain ⟨name, v⟩ := member
    rw [List.forall_mem_cons] at hmembers
    obtain ⟨a, rest, hdrop, rfl, hvalue, hrest⟩ := fieldsAt_cons hv
    have hpart : s.place.atom.parts[index]? = some a := by rw [← List.head?_drop, hdrop, List.head?_cons]
    have hlater : rest = s.place.atom.parts.drop (index + 1) := by rw [← List.tail_drop, hdrop, List.tail_cons]
    rw [assignMembers]
    refine Retraces.bind (retraces_atMember hs ht hcontent hnodup hpart fun u hu hplain => ?_)
      fun u hu => ih hmembers.2 (index + 1) (hlater ▸ hrest) (hu.trans ht)
    refine hmembers.1 hu ?_ ((valueAt_of_plain hplain _).trans hvalue)
    rw [isBits_of_plain hplain]
    exact hbits a (List.mem_of_getElem? hpart)

/-- Elements that are set to their values, from the one at `index` on. -/
theorem retraces_assignElements (hs : s.Sound env)
    (hbits : ∀ part ∈ s.place.atom.parts, part.isBits = inBits) {elements : List Value}
    (helements : ∀ v ∈ elements, RetracesValue env inBits v (assign v)) {path : Path} (index : Nat)
    (hv : itemsAt path s.place.atom.info (s.place.atom.parts.drop index) = .ok elements)
    (ht : t.place.plain = s.place.plain) : Retraces (assignElements assign index elements) t := by
  induction elements generalizing index t with
  | nil => exact Retraces.pure t
  | cons v elements ih =>
    rw [List.forall_mem_cons] at helements
    obtain ⟨a, rest, hdrop, hvalue, hrest⟩ := itemsAt_cons hv
    have hpart : s.place.atom.parts[index]? = some a := by rw [← List.head?_drop, hdrop, List.head?_cons]
    have hlater : rest = s.place.atom.parts.drop (index + 1) := by rw [← List.tail_drop, hdrop, List.tail_cons]
    rw [assignElements]
    refine Retraces.bind (Retraces.within _ (retraces_atPart hs ht hpart fun u hu hplain => ?_))
      fun u hu => ih helements.2 (index + 1) (hlater ▸ hrest) (hu.trans ht)
    refine helements.1 hu ?_ ((valueAt_of_plain hplain _).trans hvalue)
    rw [isBits_of_plain hplain]
    exact hbits a (List.mem_of_getElem? hpart)

end Parts

/-! ## Bits -/

/-- An atom of bits that is set to its value. -/
theorem retraces_setBits (v : Value) :
    RetracesValue env true v (setBits env v) := by
  refine Value.of_inductive (P := fun v => RetracesValue env true v (setBits env v))
    (fun v hmembers helements s path hs hbits hv => ?_) v
  have hsteady := hs.atom.steady
  have hholds := hs.atom.shaped.holds
  have hworth := worth_of_valueAt hs.atom.shaped hv
  rw [setBits]
  refine (retraces_prepare hv).bind fun _ t ht => ?_
  subst ht
  have hfinish (u : Workplace κ) (hu : u.place.plain = t.place.plain) : Retraces (finish env) u :=
    retraces_finish (hs.of_plain hu)
  refine (yields_atom t).bind fun a u hu => ?_
  obtain ⟨rfl, rfl⟩ := hu
  cases hworth with
  | @number bits signed value hlayout hcontent =>
    rw [IsSteady, hlayout] at hsteady
    rw [SteadyBits, hlayout] at hsteady
    obtain ⟨own, hown, hparts, rfl, rfl, hle⟩ := hsteady
    obtain rfl : own = value := by
      rw [hcontent] at hown
      exact (Content.bits.inj hown).symm
    rw [hlayout]
    dsimp only
    rw [encodeBits_toValue own hle]
    refine Yields.via (fun encoded w => encoded = own ∧ w = u) ⟨rfl, rfl⟩ fun encoded w hw => ?_
    obtain ⟨rfl, rfl⟩ := hw
    refine (yields_atom w).bind fun a u hu => ?_
    obtain ⟨rfl, rfl⟩ := hu
    refine Retraces.bind (retraces_setAtom ?_) hfinish
    exact plain_ext rfl hcontent.symm (by rw [parts_fill, hparts])
  | bitFields hlayout hcontent hvalues =>
    rw [hcontent, hbits] at hholds
    rw [IsSteady, hlayout] at hsteady
    rw [SteadyBits, hlayout] at hsteady
    obtain ⟨-, hnames, hnodup, -⟩ := hsteady
    rw [hlayout]
    dsimp only
    rw [setBitFields_eq]
    exact Retraces.bind (retraces_assignMembers hs (.inl hcontent) (hnames ▸ hnodup) hholds
      (hmembers _ rfl) 0 hvalues rfl) hfinish
  | bitElements hlayout hcontent hvalues =>
    rw [hcontent, hbits] at hholds
    rw [hlayout]
    dsimp only
    refine Yields.via (fun _ w => w = u) ?_ fun _ w hw => ?_
    · refine (yields_atom u).bind fun a w hw => ?_
      obtain ⟨rfl, rfl⟩ := hw
      rw [if_neg (by rw [length_itemsAt hvalues]; exact not_not_intro rfl)]
      rfl
    subst hw
    rw [setBitElements_eq]
    exact Retraces.bind (retraces_assignElements hs hholds (helements _ rfl) 0 hvalues rfl) hfinish
  | fields hlayout | members hlayout | elements hlayout | host hlayout | pointer hlayout | leaf hlayout =>
    rw [isBits, hlayout] at hbits
    cases hbits

/-! ## Bytes -/

/-- Bytes that are stored over themselves. -/
theorem retraces_setScalar {layout : Layout κ} {raw : Bytes} {v : Value} (hencode : layout.encode v = .ok raw)
    (hcontent : s.place.atom.content = layout.stored raw) (hparts : s.place.atom.parts = []) :
    Retraces (setScalar layout v) s := by
  rw [setScalar, hencode]
  refine Yields.via (fun bytes t => bytes = raw ∧ t = s) ⟨rfl, rfl⟩ fun bytes t ht => ?_
  obtain ⟨rfl, rfl⟩ := ht
  refine (yields_atom t).bind fun a u hu => ?_
  obtain ⟨rfl, rfl⟩ := hu
  refine Yields.via (fun _ w => w.place = u.place) rfl fun _ w hw => ?_
  refine Yields.mono (retraces_setAtom ?_) (fun _ _ h => h.trans (congrArg Place.plain hw)) fun _ _ h => h
  rw [withBytes_eq, hw]
  exact plain_ext (by rw [info_fill, info_mapInfo]; rfl) hcontent.symm (by rw [parts_fill, hparts])

/-- An atom of bytes that is set to its value. -/
theorem retraces_setBytes (v : Value) :
    RetracesValue env false v (setBytes env v) := by
  refine Value.of_inductive (P := fun v => RetracesValue env false v (setBytes env v))
    (fun v hmembers helements s path hs hbits hv => ?_) v
  have hsteady := hs.atom.steady
  have hholds := hs.atom.shaped.holds
  have hworth := worth_of_valueAt hs.atom.shaped hv
  rw [setBytes]
  refine (retraces_prepare hv).bind fun _ t ht => ?_
  subst ht
  have hfinish (u : Workplace κ) (hu : u.place.plain = t.place.plain) : Retraces (finish env) u :=
    retraces_finish (hs.of_plain hu)
  refine (yields_atom t).bind fun a u hu => ?_
  obtain ⟨rfl, rfl⟩ := hu
  cases hworth with
  | number hlayout | bitFields hlayout | bitElements hlayout =>
    rw [isBits, hlayout] at hbits
    cases hbits
  | fields hlayout hcontent hvalues =>
    rw [hcontent, hbits] at hholds
    rw [IsSteady, hlayout] at hsteady
    obtain ⟨hnames, hnodup, -⟩ := hsteady
    rw [hlayout]
    dsimp only
    rw [setFields_eq]
    exact Retraces.bind (retraces_assignMembers hs (.inl hcontent) (hnames ▸ hnodup) hholds
      (hmembers _ rfl) 0 hvalues rfl) hfinish
  | members hlayout hcontent hvalues =>
    rw [hcontent] at hholds
    rw [IsSteady, hlayout] at hsteady
    rw [hlayout]
    dsimp only
    rw [setFields_eq]
    exact Retraces.bind (retraces_assignMembers hs (.inr ⟨_, hcontent⟩) hsteady.1 hholds
      (hmembers _ rfl) 0 hvalues rfl) hfinish
  | elements hlayout hcontent hvalues =>
    rw [hcontent, hbits] at hholds
    rw [hlayout]
    dsimp only
    refine (yields_atom u).bind fun a w hw => ?_
    obtain ⟨rfl, rfl⟩ := hw
    rw [if_pos (length_itemsAt hvalues), setElements_eq]
    exact Retraces.bind (retraces_assignElements hs hholds (helements _ rfl) 0 hvalues rfl) hfinish
  | host hlayout hcontent hvalue =>
    rw [hcontent] at hholds
    obtain ⟨root, hparts, hroot⟩ := hholds
    rw [hparts, rootAt] at hvalue
    rw [hlayout]
    dsimp only
    refine (yields_atom u).bind fun a w hw => ?_
    obtain ⟨rfl, rfl⟩ := hw
    rw [hcontent]
    refine Retraces.bind (retraces_atPart hs rfl (i := 0) (a := root) ?_ fun t ht hplain => ?_) hfinish
    · rw [hparts]
      rfl
    · exact retraces_setBits v ht ((isBits_of_plain hplain).trans hroot)
        ((valueAt_of_plain hplain _).trans hvalue)
  | @pointer wire target policy raw hlayout hcontent =>
    rw [IsSteady, hlayout] at hsteady
    obtain ⟨own, hown, hparts, hwidth⟩ := hsteady
    obtain rfl : raw = own := by
      rw [hcontent] at hown
      exact Content.pointer.inj hown
    rw [hlayout]
    exact Retraces.bind (retraces_setScalar (wire.encode_toValue hwidth) hcontent hparts) hfinish
  | @leaf layout raw v hlayout hleaf hcontent hvalue =>
    rw [IsSteady, hlayout] at hsteady
    rw [hlayout]
    cases layout
    case record | union | array | bits | pointer => cases hleaf
    all_goals
      obtain ⟨own, hown, hparts, hraw⟩ := hsteady
      obtain rfl : raw = own := by
        rw [hcontent] at hown
        exact Content.raw.inj hown
      exact Retraces.bind (retraces_setScalar (Layout.encode_of_decode hraw
        (fun _ _ _ h => by cases h) hvalue) hcontent hparts)
        hfinish

/-- An atom of a sound tree that is set to its value. -/
theorem retraces_setValue {v : Value} {path : Path} (hs : s.Sound env)
    (hv : s.place.atom.valueAt path = .ok v) : Retraces (setValue env v) s := by
  refine (yields_atom s).bind fun a t ht => ?_
  obtain ⟨rfl, rfl⟩ := ht
  split
  · rename_i hbits
    exact retraces_setBits v hs hbits hv
  · rename_i hbits
    exact retraces_setBytes v hs (by simpa using hbits) hv

end EditM

end BinaryLayout
