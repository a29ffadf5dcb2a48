import BinaryLayout.Proofs.Exact.Document

/-!
# Refused values

A value that an atom cannot hold is refused before anything is done with it. So the atom is left as it was,
with its bytes, its flags and what its pointer was followed to, and so is everything else in the document. An
atom that was only created is different: it is allocated before the value is looked at, and it keeps its
default content when the value is refused.

## Main definitions

* `AtomLayout.Refuses`: the values that pointers and atoms without parts do not take.
* `EditM.Made`: what allocating makes of such an atom.
* `Atom.swap`: a tree with another atom in the place of one of its own.

## Main statements

* `EditM.refused_setValue`: a refused value changes nothing after the atom has content.
* `Document.Balanced.put_swap`: a changed place put back is a swap.
* `Document.Reachable.assign_refused`: a refused value and the document.
-/

namespace BinaryLayout

variable {κ : Type}

open Atom

/-- A value goes into atoms of the layout as a whole: they have no fields, members, elements or bits. -/
def Layout.isEncoded : Layout κ → Bool
  | .record .. | .array .. | .union .. | .bits .. => false
  | _ => true

/-- The encoding of a value for such an atom, or for an integer of bits, is refused. -/
inductive AtomLayout.Refuses (v : Value) (e : Error) : AtomLayout κ → Prop
  | bytes {layout : Layout κ} (hlayout : layout.isEncoded = true) (h : layout.encode v = .error e) :
    Refuses v e (.bytes layout)
  | bits {width : Nat} {signed : Bool} (h : encodeBits width signed v = .error e) :
    Refuses v e (.bits (.int width signed))

/-! ## Edits -/

namespace EditM

variable {env : Env κ} {s : Workplace κ} {v : Value} {e : Error}

theorem refused_setScalar {layout : Layout κ} (h : layout.encode v = .error e) :
    Yields (setScalar layout v) s (fun _ _ => False) fun error t => error = e ∧ t = s := by
  refine Yields.via (fun _ _ => False) ?_ fun _ _ h => h.elim
  rw [h]
  exact ⟨rfl, rfl⟩

/-- An atom that has content is ready. -/
theorem yields_prepare_of_content (env : Env κ) (hnull : s.place.atom.info.null = false)
    (hcontent : s.place.atom.content ≠ .empty) :
    Yields (prepare env) s (fun _ t => t = s) fun _ _ => False := by
  refine (yields_atom s).bind fun a t ht => ?_
  obtain ⟨rfl, rfl⟩ := ht
  dsimp only
  rw [hnull, if_neg Bool.false_ne_true, if_neg hcontent]
  exact Yields.pure rfl

/-- An atom without content is made anew, and what this leaves is what is left. -/
theorem yields_prepare_of_empty (hnull : s.place.atom.info.null = false)
    (hempty : s.place.atom.content = .empty) {out : Outcome κ} {l : Ledger κ}
    (hout : (allocate env Layout.nestingLimit s.place.frames s.place.atom).run s.ledger = (out, l)) :
    Yields (prepare env) s
      (fun _ t => out.error? = none ∧ t = ⟨l, ⟨out.atom, s.place.frames⟩⟩)
      fun error t => out.error? = some error ∧ t = ⟨l, ⟨out.atom, s.place.frames⟩⟩ := by
  refine (yields_atom s).bind fun a t ht => ?_
  obtain ⟨rfl, rfl⟩ := ht
  dsimp only
  rw [hnull, if_neg Bool.false_ne_true, if_pos hempty]
  apply yields_remake
  have hends : Ends (allocate env Layout.nestingLimit t.place.frames t.place.atom) t.ledger
      fun out' l' => out' = out ∧ l' = l := ⟨congrArg Prod.fst hout, congrArg Prod.snd hout⟩
  apply hends.mono
  rintro _ _ ⟨rfl, rfl⟩
  exact ⟨fun hok => ⟨hok, rfl⟩, fun error herror => ⟨herror, rfl⟩⟩

/-- A value that is refused leaves what there was before it was looked at. -/
theorem refused_setValue {failed : Error → Workplace κ → Prop}
    (hrefuses : s.place.atom.info.layout.Refuses v e)
    (hprepare : Yields (prepare env) s
      (fun _ t => t.place.atom.info.layout = s.place.atom.info.layout ∧ failed e t) failed) :
    Yields (setValue env v) s (fun _ _ => False) failed := by
  refine (yields_atom s).bind fun a t ht => ?_
  obtain ⟨rfl, rfl⟩ := ht
  generalize hsame : t.place.atom.info.layout = layout at hrefuses hprepare
  cases hrefuses with
  | @bytes layout hlayout h =>
    have hbits : t.place.atom.isBits = false := by rw [isBits, hsame]; rfl
    rw [hbits, if_neg Bool.false_ne_true, setBytes.eq_def]
    refine hprepare.bind fun _ u hu => ?_
    refine (yields_atom u).bind fun a w hw => ?_
    obtain ⟨rfl, rfl⟩ := hw
    have hassigned : Yields (do
        setScalar layout v
        finish env : EditM κ Unit) w (fun _ _ => False) failed := by
      refine Yields.bind ((refused_setScalar h).mono (fun _ _ h => h) fun error x hx => ?_)
        fun _ _ h => h.elim
      rw [hx.1, hx.2]
      exact hu.2
    rw [hu.1]
    cases layout with
    | record | array | union | bits => cases hlayout
    | _ => exact hassigned
  | @bits width signed h =>
    have hbits : t.place.atom.isBits = true := by rw [isBits, hsame]; rfl
    rw [hbits, if_pos rfl, setBits.eq_def]
    refine hprepare.bind fun _ u hu => ?_
    refine (yields_atom u).bind fun a w hw => ?_
    obtain ⟨rfl, rfl⟩ := hw
    rw [hu.1]
    dsimp only
    rw [h]
    exact hu.2

/-- An atom that is allocated as a whole: it is initialized and has content, unless that cannot be made. -/
structure Made (a : Atom κ) (l : Ledger κ) (out : Outcome κ) (m : Ledger κ) : Prop where
  ledger : m = l
  layout : out.atom.info.layout = a.info.layout
  initialized : out.error? = none → out.atom.info.initialized = true
  content : out.error? = none → out.atom.content ≠ .empty

theorem made_allocateLeaf (env : Env κ) (frames : List (Frame κ)) (layout : Layout κ) (a : Atom κ)
    (l : Ledger κ) : Made a l (allocateLeaf env layout frames a.cleared) l := by
  obtain ⟨info, content, parts⟩ := a
  rw [allocateLeaf]
  split
  · exact ⟨rfl, rfl, fun h => absurd h (Option.some_ne_none _), fun h => absurd h (Option.some_ne_none _)⟩
  · rw [withBytes_eq]
    exact ⟨rfl, rfl, fun _ => rfl, fun _ => layout.stored_ne_empty _⟩

/-- Default content takes nothing from the ledger. -/
theorem ends_allocate_refuses (env : Env κ) (frames : List (Frame κ)) {a : Atom κ}
    (hrefuses : a.info.layout.Refuses v e) (hparts : a.parts = []) (l : Ledger κ) :
    Ends (allocate env Layout.nestingLimit frames a) l (Made a l) := by
  obtain ⟨info, content, parts⟩ := a
  obtain rfl : parts = [] := hparts
  generalize hsame : (node info content []).info.layout = layout at hrefuses
  have hlimit : Layout.nestingLimit = 999999 + 1 := rfl
  rw [hlimit, allocate, hsame]
  cases hrefuses with
  | @bytes layout hlayout h =>
    have hends : Ends (pure (allocateLeaf env layout frames (node info content []).cleared) : LedgerM κ _) l
        (Made (node info content []) l) := made_allocateLeaf env frames layout _ l
    cases layout with
    | record | array | union | bits => cases hlayout
    | _ => exact hends
  | @bits width signed h =>
    dsimp only
    rw [allocateBits, hsame]
    have hne : Content.bits (Bitmap.ofNat 0 width signed) ≠ .empty := by simp
    exact ⟨rfl, rfl, fun _ => rfl, fun _ => hne⟩

end EditM

/-! ## Swaps -/

namespace Atom

mutual

/-- The tree in which the atom with the handle `id` is `b`. -/
def swap (id : Nat) (b : Atom κ) : Atom κ → Atom κ
  | .node info content parts =>
    if info.id = id then b else .node info content (swapAll id b parts)

/-- The trees, each with that atom. -/
def swapAll (id : Nat) (b : Atom κ) : List (Atom κ) → List (Atom κ)
  | [] => []
  | a :: as => swap id b a :: swapAll id b as

end

variable (id : Nat) (b : Atom κ)

theorem swapAll_eq (as : List (Atom κ)) : swapAll id b as = as.map (swap id b) := by
  induction as with
  | nil => rfl
  | cons a as ih => rw [swapAll, ih, List.map_cons]

theorem swap_self (a : Atom κ) : swap a.info.id b a = b := by
  cases a
  simp [swap]

mutual

/-- A tree without the handle stays as it is. -/
theorem swap_of_absent : ∀ {a : Atom κ}, a.tally id = 0 → swap id b a = a
  | .node info content parts, h => by
    rw [tally] at h
    have hne : info.id ≠ id := by
      intro heq
      rw [if_pos heq] at h
      omega
    rw [swap, if_neg hne, swapAll_of_absent (by omega)]

theorem swapAll_of_absent : ∀ {as : List (Atom κ)}, tallies id as = 0 → swapAll id b as = as
  | [], _ => rfl
  | a :: as, h => by
    rw [tallies] at h
    rw [swapAll, swap_of_absent (by omega), swapAll_of_absent (by omega)]

end

end Atom

/-- Around the gap nothing has the handle. -/
theorem Frame.plug_swap {id : Nat} {f : Frame κ} (h : f.tally id = 0) (b a : Atom κ) :
    Atom.swap id b (f.plug a) = f.plug (Atom.swap id b a) := by
  rw [Frame.tally] at h
  have hne : f.info.id ≠ id := by
    intro heq
    rw [if_pos heq] at h
    omega
  have hleft : f.left.map (Atom.swap id b) = f.left := by
    rw [← Atom.swapAll_eq, Atom.swapAll_of_absent id b (by omega)]
  have hright : f.right.map (Atom.swap id b) = f.right := by
    rw [← Atom.swapAll_eq, Atom.swapAll_of_absent id b (by omega)]
  rw [Frame.plug, Frame.plug, Atom.swap, if_neg hne, Atom.swapAll_eq]
  simp [hleft, hright]

namespace Place

theorem assemble_swap {id : Nat} {frames : List (Frame κ)} (h : Frame.tallies id frames = 0) (b a : Atom κ) :
    Atom.swap id b (assemble a frames) = assemble (Atom.swap id b a) frames := by
  induction frames generalizing a with
  | nil => rfl
  | cons f frames ih =>
    rw [Frame.tallies, List.map_cons, List.sum_cons] at h
    have hframes : Frame.tallies id frames = 0 := by
      rw [Frame.tallies]
      omega
    rw [assemble, assemble, ih hframes, Frame.plug_swap (by omega)]

end Place

namespace Document

/-- The document in which the atom with the handle `id` is `b`. -/
def swap (id : Nat) (b : Atom κ) (d : Document κ) : Document κ :=
  { d with roots := d.roots.map (Atom.swap id b) }

variable {d : Document κ} {p : Place κ} {b : Atom κ}

/-- A changed place put back is a swap, when all handles are accounted for. -/
theorem Balanced.put_swap (hd : d.Balanced) (hp : p ∈ d.places)
    (hb : Accounts p.root.atom d.ledger (Place.root ⟨b, p.frames⟩).atom d.ledger) :
    d.put ⟨b, p.frames⟩ = d.swap p.atom.info.id b := by
  obtain ⟨before, after, hroots, hput, -⟩ :=
    hd.put (mem_places.1 hp) (Info.id_of_site hb.site) hb.shaped hb.balance
  have hwhole : p.root.atom.tally p.atom.info.id
      = p.atom.tally p.atom.info.id + Frame.tallies p.atom.info.id p.frames :=
    Place.tally_assemble p.atom.info.id p.atom p.frames
  have hpos := p.atom.tally_pos
  -- The handle occurs once in all the trees, and that is at the place.
  have hle := hd.tallies_le p.atom.info.id
  rw [hroots, tallies_append, tallies] at hle
  have habsent (as : List (Atom κ)) (has : tallies p.atom.info.id as = 0) :
      as.map (Atom.swap p.atom.info.id b) = as := by
    rw [← swapAll_eq, swapAll_of_absent _ b has]
  have hroot : Atom.swap p.atom.info.id b p.root.atom = (Place.root ⟨b, p.frames⟩).atom := by
    refine (Place.assemble_swap (by omega) b p.atom).trans ?_
    rw [swap_self]
    rfl
  rw [swap, hroots, List.map_append, List.map_cons, habsent before (by omega),
    habsent after (by omega), hroot]
  exact hput

/-- An assignment that fails, by what it leaves of the place. -/
theorem Balanced.run_assign_of_refused (hd : d.Balanced) (hp : p ∈ d.places) {v : Value} {error : Error}
    (h : Yields (EditM.setValue d.env v) ⟨d.ledger, p⟩ (fun _ _ => False)
      fun e s => e = error ∧ s = ⟨d.ledger, ⟨b, p.frames⟩⟩) :
    (assign p.atom.info.id v).run d = (.error (error.within p.path), d.put ⟨b, p.frames⟩) := by
  have hassign : Yields (assign p.atom.info.id v) d (fun _ _ => False)
      fun e t => e = error.within p.path ∧ t = d.put ⟨b, p.frames⟩ := by
    refine DocumentM.yields_got (yields_edit (live_of_mem hp) fun p' hp' _ hid => ?_)
    obtain rfl := hd.eq_of_id hp' hp hid
    refine h.mono (fun _ _ h => h) fun e s hs => ?_
    rw [hs.1, hs.2]
    exact ⟨rfl, rfl⟩
  obtain ⟨e, t, hrun, rfl, rfl⟩ := hassign.fails fun _ _ h => h
  exact hrun

/-- **A refused value leaves an atom alone.** If the atom has content, the document is exactly what it was. If
it has none, then it gets what allocating makes of it, and nothing else in the document changes: this comes
before the value is looked at, and stays. The error is that of the allocation where default content cannot be
made, and otherwise the atom is initialized and has content. -/
theorem Reachable.assign_refused (hd : d.Reachable) (hp : p ∈ d.places)
    (hnull : p.atom.info.null = false) {v : Value} {e : Error}
    (hrefuses : p.atom.info.layout.Refuses v e) :
    (p.atom.content ≠ .empty → (assign p.atom.info.id v).run d = (.error (e.within p.path), d))
      ∧ (p.atom.content = .empty →
        ∃ out, (allocate d.env Layout.nestingLimit p.frames p.atom).run d.ledger = (out, d.ledger)
          ∧ (out.error? = none → out.atom.info.initialized = true ∧ out.atom.content ≠ .empty)
          ∧ (assign p.atom.info.id v).run d
            = (.error ((out.error?.getD e).within p.path), d.swap p.atom.info.id out.atom)) := by
  have hbalanced := hd.balanced
  have hshaped := hbalanced.shaped_place hp
  constructor
  · intro hcontent
    have hprepare := EditM.yields_prepare_of_content (s := ⟨d.ledger, p⟩) d.env hnull hcontent
    have hrun := hbalanced.run_assign_of_refused (b := p.atom) hp (EditM.refused_setValue hrefuses
      (hprepare.mono (fun _ s hs => ⟨by rw [hs], rfl, hs⟩) fun _ _ h => h.elim))
    rw [hrun]
    exact congrArg _ (hbalanced.put_unchanged hp)
  · intro hempty
    have hparts : p.atom.parts = [] := by
      have hholds := (Everywhere.of_assemble hshaped).here.holds
      rw [hempty] at hholds
      exact hholds
    have hends := EditM.ends_allocate_refuses d.env p.frames hrefuses hparts d.ledger
    have haccounts := accounts_allocate d.env Layout.nestingLimit p.frames (Everywhere.of_assemble hshaped)
      d.ledger
    cases hout : (allocate d.env Layout.nestingLimit p.frames p.atom).run d.ledger with
    | mk out l =>
      have hmade : allocate d.env Layout.nestingLimit p.frames p.atom d.ledger = (out, l) := hout
      rw [Ends, hmade] at hends haccounts
      obtain ⟨rfl, hlayout, hinitialized, hcontent⟩ := hends
      have hprepare := EditM.yields_prepare_of_empty (s := ⟨d.ledger, p⟩) hnull hempty hout
      have hrefused : Yields (EditM.setValue d.env v) ⟨d.ledger, p⟩ (fun _ _ => False)
          fun error s => error = out.error?.getD e ∧ s = ⟨d.ledger, ⟨out.atom, p.frames⟩⟩ := by
        refine EditM.refused_setValue hrefuses (hprepare.mono (fun _ s hs => ?_) fun error s hs => ?_)
        · rw [hs.1, hs.2]
          exact ⟨hlayout, rfl, rfl⟩
        · rw [hs.1, hs.2]
          exact ⟨rfl, rfl⟩
      refine ⟨out, rfl, fun hok => ⟨hinitialized hok, hcontent hok⟩, ?_⟩
      rw [hbalanced.run_assign_of_refused hp hrefused,
        hbalanced.put_swap hp (haccounts.1.assemble hshaped)]

/-- A document with a byte that was created, or loaded, from a source of one byte. -/
def byteOf (op : Layout Empty → String → Nat → Operation Empty) : Document Empty :=
  ((op (.int .u8) "n" 0).run.run (overBytes #[7])).2

def bytePlace (initialized : Bool) (content : Content) : Place Empty :=
  ⟨.node { id := 0, name := "n", layout := .bytes (.int .u8), offset := 0, initialized } content [], []⟩

/-- A text is refused by a byte that was loaded, and by one that was created. -/
theorem assign_refused_of_byte :
    (byteOf .loadNew).Reachable ∧ bytePlace true (.raw [7]) ∈ (byteOf .loadNew).places
      ∧ (assign 0 (.text "x")).run (byteOf .loadNew)
        = (.error (.located ["n"] (.value (.mismatch "an integer" "text"))), byteOf .loadNew)
      ∧ (byteOf .create).Reachable ∧ bytePlace false .empty ∈ (byteOf .create).places
      ∧ (assign 0 (.text "x")).run (byteOf .create)
        = (.error (.located ["n"] (.value (.mismatch "an integer" "text"))),
          (byteOf .create).swap 0 (bytePlace true (.raw [0])).atom) := by
  have hloaded : (byteOf .loadNew).Reachable := .step (.loadNew (.int .u8) "n" 0) (.empty _ _ _) nofun
  have hcreated : (byteOf .create).Reachable := .step (.create (.int .u8) "n" 0) (.empty _ _ _) nofun
  have hp : bytePlace true (.raw [7]) ∈ (byteOf .loadNew).places := List.mem_of_getElem? (i := 0) rfl
  have hq : bytePlace false .empty ∈ (byteOf .create).places := List.mem_of_getElem? (i := 0) rfl
  have hrefuses : (AtomLayout.bytes (Layout.int (κ := Empty) .u8)).Refuses (.text "x")
      (mismatch "an integer" (.text "x")) := .bytes rfl rfl
  have hkept := (hloaded.assign_refused hp rfl hrefuses).1 nofun
  obtain ⟨out, hout, -, hmade⟩ := (hcreated.assign_refused hq rfl hrefuses).2 rfl
  obtain rfl : ⟨(bytePlace true (.raw [0])).atom, none⟩ = out := (congrArg Prod.fst hout :)
  exact ⟨hloaded, hp, hkept, hcreated, hq, hmade⟩

/-- A byte that was created is not initialized, and it is after it has refused a text. -/
theorem assign_refused_ne_of_created :
    ((assign 0 (.text "x")).run (byteOf .create)).1.toOption = none
      ∧ ¬ ((((assign 0 (.text "x")).run (byteOf .create)).2.find? 0).map fun q =>
          (q.atom.info.initialized, q.serialize .big))
        = ((byteOf .create).find? 0).map fun q => (q.atom.info.initialized, q.serialize .big) := by
  decide +kernel

end Document

end BinaryLayout
