import BinaryLayout.Proofs.Frame.Load
import BinaryLayout.Proofs.Handles.Document
import BinaryLayout.Proofs.Handles.Forest

/-!
# Operations that edit nothing, or edit elsewhere

New outermost atoms, copies of atoms and followed pointers come beside what a document has. Every
atom that was there stays as it was, except that a pointer that is followed for the first time gets
what it refers to as its part. An operation that fails leaves the same atoms.

Nothing else in the tree of such a pointer changes. Told by the pointer's handle, every place of the old tree has
its counterpart in the new one.

An outermost atom is a tree of its own. An operation changes the tree of the atom that it is applied to
and no other, whether it succeeds or fails. So an outermost atom stays as it is, with everything below
it, as long as no operation is applied to an atom in it.

## Main definitions

* `Atom.graft`, `Place.graft`: a tree whose atom with a certain handle has a certain part.
* `Document.Operation.AddsOnly`: the operations that edit nothing.
* `Document.Framed`: nothing but one pointer's part changed.
* `Document.Operation.changes`: the atoms that an operation may change.
* `Document.RunsBeside`: operations, one after another, that are applied to other trees.

## Main statements

* `Place.root_graft`: places of the old tree are places of the new one.
* `Document.Balanced.notIn_frames`: an atom without parts is around no other.
* `Document.Reachable.framed`: the operations that edit nothing frame the document.
* `Document.Keeping.run`: one operation beside a tree.
* `Document.RunsBeside.find?_eq`: the places of a tree after a run.
-/

namespace BinaryLayout

section Graft

variable {κ : Type}

namespace Atom

mutual

/-- The tree whose atom with the handle `id` has `b` as its only part. -/
def graft (id : Nat) (b : Atom κ) : Atom κ → Atom κ
  | .node info content parts =>
    .node info content (if info.id = id then [b] else graftAll id b parts)

/-- The trees, each with that part. -/
def graftAll (id : Nat) (b : Atom κ) : List (Atom κ) → List (Atom κ)
  | [] => []
  | a :: as => graft id b a :: graftAll id b as

end

variable (id : Nat) (b : Atom κ)

theorem graftAll_eq (as : List (Atom κ)) : graftAll id b as = as.map (graft id b) := by
  induction as with
  | nil => rfl
  | cons a as ih => rw [graftAll, ih, List.map_cons]

@[simp] theorem info_graft (a : Atom κ) : (graft id b a).info = a.info := by
  cases a
  rw [graft]
  rfl

@[simp] theorem content_graft (a : Atom κ) : (graft id b a).content = a.content := by
  cases a
  rw [graft]
  rfl

theorem parts_graft (a : Atom κ) :
    (graft id b a).parts = if a.info.id = id then [b] else a.parts.map (graft id b) := by
  cases a
  rw [graft, graftAll_eq]
  rfl

mutual

/-- A tree without the handle stays as it is. -/
theorem graft_of_absent : ∀ {a : Atom κ}, a.tally id = 0 → graft id b a = a
  | .node info content parts, h => by
    rw [tally] at h
    have hne : info.id ≠ id := by
      intro heq
      rw [if_pos heq] at h
      omega
    rw [graft, if_neg hne, graftAll_of_absent (Nat.eq_zero_of_add_eq_zero_left h)]

theorem graftAll_of_absent : ∀ {as : List (Atom κ)}, tallies id as = 0 → graftAll id b as = as
  | [], _ => rfl
  | a :: as, h => by
    rw [tallies] at h
    rw [graftAll, graft_of_absent (Nat.eq_zero_of_add_eq_zero_right h),
      graftAll_of_absent (Nat.eq_zero_of_add_eq_zero_left h)]

end

/-- The handle's own atom, if it had no part, gets one. -/
theorem graft_self {a : Atom κ} (hparts : a.parts = []) : graft a.info.id b a = a.push b := by
  obtain ⟨info, content, parts⟩ := a
  cases hparts
  rw [info_node, graft, if_pos rfl]
  rfl

end Atom

def Frame.graft (id : Nat) (b : Atom κ) (f : Frame κ) : Frame κ :=
  ⟨f.info, f.content, f.left.map (Atom.graft id b), f.right.map (Atom.graft id b)⟩

theorem Frame.plug_graft {id : Nat} {f : Frame κ} (h : f.info.id ≠ id) (b a : Atom κ) :
    (f.graft id b).plug (Atom.graft id b a) = Atom.graft id b (f.plug a) := by
  rw [Frame.plug, Frame.plug, Atom.graft, if_neg h, Atom.graftAll_eq]
  simp [Frame.graft]

/-- A frame without the handle stays as it is. -/
theorem Frame.graft_of_absent {id : Nat} {f : Frame κ} (h : f.tally id = 0) (b : Atom κ) :
    f.graft id b = f := by
  obtain ⟨info, content, left, right⟩ := f
  rw [Frame.tally] at h
  rw [Frame.graft, ← Atom.graftAll_eq, ← Atom.graftAll_eq, Atom.graftAll_of_absent id b (by omega),
    Atom.graftAll_of_absent id b (by omega)]

namespace Place

def graft (id : Nat) (b : Atom κ) (p : Place κ) : Place κ :=
  ⟨Atom.graft id b p.atom, p.frames.map (Frame.graft id b)⟩

variable {id : Nat}

theorem up?_graft {p : Place κ} (h : ∀ f ∈ p.frames, f.info.id ≠ id) (b : Atom κ) :
    (p.graft id b).up? = p.up?.map (graft id b) := by
  obtain ⟨a, frames⟩ := p
  cases frames with
  | nil => rfl
  | cons f frames =>
    exact congrArg (fun a : Atom κ => some (⟨a, frames.map (Frame.graft id b)⟩ : Place κ))
      (Frame.plug_graft (h f List.mem_cons_self) b a)

/-- The place in the grafted tree belongs to the grafted outermost atom. -/
theorem root_graft {p : Place κ} (h : ∀ f ∈ p.frames, f.info.id ≠ id) (b : Atom κ) :
    (p.graft id b).root.atom = Atom.graft id b p.root.atom := by
  obtain ⟨a, frames⟩ := p
  show assemble (Atom.graft id b a) (frames.map (Frame.graft id b))
    = Atom.graft id b (assemble a frames)
  induction frames generalizing a with
  | nil => rfl
  | cons f frames ih =>
    rw [List.map_cons, assemble, assemble, Frame.plug_graft (h f List.mem_cons_self),
      ih _ fun g hg => h g (List.mem_cons_of_mem _ hg)]

/-- Grafting inside frames that do not have the handle. -/
theorem assemble_graft {frames : List (Frame κ)} (h : Frame.tallies id frames = 0) (b a : Atom κ) :
    assemble (Atom.graft id b a) frames = Atom.graft id b (assemble a frames) := by
  induction frames generalizing a with
  | nil => rfl
  | cons f frames ih =>
    rw [Frame.tallies, List.map_cons, List.sum_cons] at h
    have hf : f.tally id = 0 := by omega
    have hne : f.info.id ≠ id := by
      rw [Frame.tally] at hf
      intro heq
      rw [if_pos heq] at hf
      omega
    rw [assemble, assemble, ← ih (by rw [Frame.tallies]; omega), ← Frame.plug_graft hne,
      Frame.graft_of_absent hf]

end Place

namespace Document.Balanced

variable {d : Document κ}

/-- An atom without parts is around no other. -/
theorem notIn_frames (hd : d.Balanced) {q : Place κ} (hq : q ∈ d.places) (hparts : q.atom.parts = [])
    {p : Place κ} (hp : p ∈ d.places) : ∀ f ∈ p.frames, f.info.id ≠ q.atom.info.id := by
  obtain ⟨a, frames⟩ := p
  induction frames generalizing a with
  | nil => exact fun _ hf => absurd hf List.not_mem_nil
  | cons g frames ih =>
    have houter : (⟨g.plug a, frames⟩ : Place κ) ∈ d.places :=
      Document.mem_places_of_root (p := ⟨a, g :: frames⟩) rfl hp
    intro f hf
    rcases List.mem_cons.1 hf with rfl | hf
    · intro hid
      obtain rfl := hd.eq_of_id houter hq hid
      simp [Frame.plug] at hparts
    · exact ih _ houter f hf

/-- Grafting touches no outermost atom but the one that has the handle. -/
theorem map_graft (hd : d.Balanced) {r : Atom κ} {before after : List (Atom κ)}
    (hroots : d.roots = before ++ r :: after) {id : Nat} (hid : 0 < r.tally id) (b : Atom κ) :
    d.roots.map (Atom.graft id b) = before ++ Atom.graft id b r :: after := by
  have hle := hd.tallies_le id
  rw [hroots, Atom.tallies_append, Atom.tallies] at hle
  have hsame (as : List (Atom κ)) (has : Atom.tallies id as = 0) : as.map (Atom.graft id b) = as := by
    rw [← Atom.graftAll_eq, Atom.graftAll_of_absent id b has]
  rw [hroots, List.map_append, List.map_cons, hsame before (by omega), hsame after (by omega)]

end Document.Balanced

end Graft

variable {κ α : Type}

open Atom

namespace Document

/-! ## New outermost atoms -/

/-- What a document leaves for others to see. -/
def record (d : Document κ) : Record := ((.source d.source, d.sources), d.ledger.warnings)

/-- The document has other outermost atoms now. Its sources hold the same, and there may be further
warnings. -/
structure TurnsInto (d : Document κ) (roots : List (Atom κ)) (t : Document κ) : Prop where
  roots : t.roots = roots
  balanced : t.Balanced
  aftermath : Aftermath d.record t.record
  source : t.source = d.source

variable {d t : Document κ} {a b : Atom κ}

theorem Balanced.turnsInto (hd : d.Balanced) : d.TurnsInto d.roots d := ⟨rfl, hd, .refl _, rfl⟩

/-- A changed outermost atom put back. -/
theorem TurnsInto.put (h : d.TurnsInto (a :: d.roots) t) {l : Ledger κ} {sources : Sources}
    (hb : Accounts a t.ledger b l) (hrecord : Aftermath t.record ((.source t.source, sources), l.warnings)) :
    d.TurnsInto (b :: d.roots) ({ t with ledger := l, sources }.put ⟨b, []⟩) := by
  have ht : Balanced { t with sources } := ⟨h.balanced.shaped, h.balanced.balance⟩
  have hroots : t.roots = [] ++ a :: d.roots := h.roots
  obtain ⟨hput, hbalanced⟩ := ht.put_among (m := l) (q := ⟨b, []⟩) hroots (Info.id_of_site hb.site)
    hb.shaped hb.balance
  refine ⟨?_, hbalanced, ?_, ?_⟩
  · exact congrArg Document.roots hput
  · have hsame := congrArg record hput
    rw [hsame]
    exact h.aftermath.trans hrecord
  · exact (congrArg Document.source hput).trans h.source

/-- A new outermost atom is given up again. -/
theorem TurnsInto.remove (h : d.TurnsInto (a :: d.roots) t) : d.TurnsInto d.roots (t.remove a) := by
  have hroots : t.roots = [] ++ a :: d.roots := h.roots
  obtain ⟨hremove, hbalanced⟩ := h.balanced.remove_among hroots
  refine ⟨?_, hbalanced, ?_, ?_⟩
  · rw [hremove, List.nil_append]
  · rw [hremove]
    exact h.aftermath.trans ⟨rfl, (LedgerM.harmless_release a t.ledger).warnings⟩
  · exact (congrArg Document.source hremove).trans h.source

theorem TurnsInto.place (h : d.TurnsInto (a :: d.roots) t) {failed : Error → Document κ → Prop} :
    Yields (DocumentM.place a.info.id) t (fun p u => p = ⟨a, []⟩ ∧ u = t) failed := by
  have ha : a ∈ t.roots := by
    rw [h.roots]
    exact List.mem_cons_self
  refine DocumentM.yields_got ?_
  rw [Document.place, h.balanced.find?_root ha]
  exact Yields.pure ⟨rfl, rfl⟩

/-- However the computation ends, the document has one more outermost atom, with the handle `id`. -/
def Adding (d : Document κ) (id : Nat) (m : DocumentM κ Unit) (t : Document κ) : Prop :=
  Yields m t (fun _ u => ∃ b : Atom κ, b.info.id = id ∧ d.TurnsInto (b :: d.roots) u)
    fun _ u => ∃ b : Atom κ, b.info.id = id ∧ d.TurnsInto (b :: d.roots) u

theorem TurnsInto.adding_loadAtom (h : d.TurnsInto (a :: d.roots) t) :
    Adding d a.info.id (loadAtom a.info.id) t := by
  refine h.place.bind fun p u hu => ?_
  obtain ⟨rfl, rfl⟩ := hu
  dsimp only
  split
  · exact Yields.throw_bind ⟨a, rfl, h⟩
  · refine DocumentM.yields_got ?_
    have ha : Everywhere Shaped a := h.balanced.shaped a (h.roots ▸ List.mem_cons_self)
    have hload := (accounts_load u.env Layout.nestingLimit [] (.inl ha)
      ⟨u.ledger, u.sources, .source u.source⟩).and (harmless_load u.env Layout.nestingLimit [] a _)
    refine (DocumentM.yields_ofLoad hload).bind fun out v hv => ?_
    obtain ⟨s, rfl, hout, hrecord⟩ := hv
    have hput := h.put hout (hrecord.through _)
    split
    · exact Yields.via (fun _ v => ∃ b : Atom κ, b.info.id = a.info.id ∧ d.TurnsInto (b :: d.roots) v)
        (Yields.modified ⟨_, Info.id_of_site hout.site, hput⟩) fun _ v hv => Yields.throw hv
    · exact Yields.modified ⟨_, Info.id_of_site hout.site, hput⟩

/-- An edit of an outermost atom that makes it anew. -/
def Remakes (a : Atom κ) (l : Ledger κ) (s : Workplace κ) : Prop :=
  s.place.frames = [] ∧ Accounts a l s.place.atom s.ledger ∧ l.warnings <:+ s.ledger.warnings

theorem TurnsInto.adding_allocateAtom (h : d.TurnsInto (a :: d.roots) t) :
    Adding d a.info.id (allocateAtom a.info.id) t := by
  have hroot : a ∈ t.roots := h.roots ▸ List.mem_cons_self
  have ha : Everywhere Shaped a := h.balanced.shaped a hroot
  have hlive : t.Live a.info.id := live_of_mem (p := ⟨a, []⟩) (mem_places.2 hroot)
  refine DocumentM.yields_got (yields_edit hlive fun p hp hfind hid => ?_)
  obtain rfl : p = ⟨a, []⟩ := Option.some.inj (hfind.symm.trans (h.balanced.find?_root hroot))
  -- The edit takes place at an outermost atom, so nothing is around it that could change.
  have hremake : Yields (EditM.remake (allocate t.env Layout.nestingLimit))
      (⟨t.ledger, ⟨a, []⟩⟩ : Workplace κ) (fun _ s => Remakes a t.ledger s)
      fun _ s => Remakes a t.ledger s := by
    refine EditM.yields_remake ?_
    refine ((accounts_allocate t.env Layout.nestingLimit [] ha t.ledger).and
      (harmless_allocate t.env Layout.nestingLimit [] a t.ledger)).mono fun out l hl => ?_
    obtain ⟨⟨hout, -⟩, hrecord⟩ := hl
    exact ⟨fun _ => ⟨rfl, hout, hrecord.warnings⟩, fun _ _ => ⟨rfl, hout, hrecord.warnings⟩⟩
  have hput (s : Workplace κ) (hs : Remakes a t.ledger s) :
      ∃ b : Atom κ, b.info.id = a.info.id
        ∧ d.TurnsInto (b :: d.roots) ({ t with ledger := s.ledger }.put s.place) := by
    obtain ⟨l, ⟨b, frames⟩⟩ := s
    obtain ⟨rfl, hb, hwarnings⟩ := hs
    exact ⟨b, Info.id_of_site hb.site, h.put hb ⟨rfl, hwarnings⟩⟩
  refine Yields.bind (hremake.mono (fun _ _ hs => hs) fun _ s hs => hput s hs) fun _ s hs => ?_
  refine Yields.modified (hput _ ?_)
  obtain ⟨l, ⟨b, frames⟩⟩ := s
  obtain ⟨rfl, hs⟩ := hs
  exact ⟨rfl, hs⟩

theorem Balanced.yields_created (hd : d.Balanced) (layout : Layout κ) (name : String) (offset : Nat)
    {failed : Error → Document κ → Prop} :
    Yields (create layout name offset) d
      (fun id t => ∃ a : Atom κ, a.info.id = id ∧ d.TurnsInto (a :: d.roots) t) failed := by
  refine (DocumentM.yields_ofLedger ((Ends.spawn name (.bytes layout) offset d.ledger).and
    (LedgerM.harmless_spawn _ _ _ d.ledger))).bind fun a t ht => ?_
  obtain ⟨l, rfl, ⟨-, -, -, hcame⟩, hrecord⟩ := ht
  obtain ⟨hadd, hbalanced⟩ := hd.add hcame
  refine Yields.via (fun _ u => u = ({ d with ledger := l }.add a)) (Yields.modified rfl)
    fun _ u hu => ?_
  subst hu
  rw [hadd] at hbalanced ⊢
  exact Yields.pure ⟨a, rfl, rfl, hbalanced, ⟨rfl, hrecord.warnings⟩, rfl⟩

/-- What an operation that edits nothing leaves: it adds an outermost atom, or fails and adds none. -/
def Adds (d : Document κ) (m : DocumentM κ α) : Prop :=
  Yields m d (fun _ t => ∃ a : Atom κ, d.TurnsInto (a :: d.roots) t) fun _ t => d.TurnsInto d.roots t

theorem Balanced.adds_createWith (hd : d.Balanced) (layout : Layout κ) (name : String) (offset : Nat)
    {m : Nat → DocumentM κ Unit}
    (hm : ∀ (a : Atom κ) t, d.TurnsInto (a :: d.roots) t → Adding d a.info.id (m a.info.id) t) :
    Adds d (createWith layout name offset m) := by
  refine (hd.yields_created layout name offset).bind fun id t ht => ?_
  obtain ⟨a, rfl, ht⟩ := ht
  refine Yields.via (fun _ u => ∃ b : Atom κ, d.TurnsInto (b :: d.roots) u) ?_ fun _ _ hu =>
    Yields.pure hu
  refine Yields.tryCatch ((hm a t ht).mono (fun _ _ ⟨b, _, hb⟩ => ⟨b, hb⟩) fun _ _ h => h) fun e u hu => ?_
  obtain ⟨b, hid, hu⟩ := hu
  rw [← hid]
  refine hu.place.bind fun p v hv => ?_
  obtain ⟨rfl, rfl⟩ := hv
  exact Yields.via (fun _ w => d.TurnsInto d.roots w) (Yields.modified hu.remove) fun _ _ hw =>
    Yields.throw hw

/-! ## Copies -/

theorem Balanced.adds_cast (hd : d.Balanced) {id : Nat} (hid : d.Live id) (layout : Layout κ) :
    Adds d (cast id layout) := by
  refine (DocumentM.yields_place hid).bind fun p t ht => ?_
  obtain ⟨-, rfl⟩ := ht
  refine DocumentM.yields_got ?_
  refine (DocumentM.yields_ofLedger ((Ends.spawn p.atom.info.name (.bytes layout) p.atom.byteOffset
    t.ledger).and (LedgerM.harmless_spawn _ _ _ t.ledger))).bind fun blank u hu => ?_
  obtain ⟨l, rfl, ⟨hempty, -, -, hcame⟩, hspawned⟩ := hu
  refine (DocumentM.yields_ofLedger (Ends.and
    (LedgerM.ends_fromBytes (accounted_load t.env Layout.nestingLimit [] blank _ hempty))
    (LedgerM.harmless_fromBytes _ _ (harmless_load t.env Layout.nestingLimit [] blank) l))).bind
      fun out v hv => ?_
  obtain ⟨m, rfl, hout, hloaded⟩ := hv
  have hnew := hcame.onto hout
  have hrecord : Aftermath t.record ((.source t.source, t.sources), m.warnings) :=
    ⟨rfl, hspawned.warnings.trans hloaded.warnings⟩
  split
  · refine Yields.via (fun _ w => t.TurnsInto t.roots w) ?_ fun _ _ hw => Yields.throw hw
    refine ⟨rfl, ⟨hd.shaped, fun h => ?_⟩, ?_, rfl⟩
    · show (tallies h t.roots : Int) + (m.release out.atom).balance h = 0
      rw [hnew.drop h]
      exact hd.balance h
    · exact hrecord.trans ⟨rfl, (LedgerM.harmless_release out.atom m).warnings⟩
  · obtain ⟨hadd, hbalanced⟩ := hd.add hnew
    rw [hadd] at hbalanced
    refine Yields.via (fun _ w => w = ({ t with ledger := m }.add out.atom)) (Yields.modified rfl)
      fun _ w hw => ?_
    subst hw
    rw [hadd]
    exact Yields.pure ⟨out.atom, rfl, hbalanced, hrecord, rfl⟩

theorem Balanced.adds_copy (hd : d.Balanced) {id : Nat} (hid : d.Live id) : Adds d (copy id) := by
  refine (DocumentM.yields_place hid).bind fun p t ht => ?_
  obtain ⟨-, rfl⟩ := ht
  split
  · exact hd.adds_cast hid _
  · exact Yields.throw hd.turnsInto

/-! ## Followed pointers -/

theorem harmless_loadReferent (env : Env κ) (p : Place κ) :
    Harmless LoadState.record (loadReferent env p) := by
  rw [loadReferent]
  split
  · exact .pure _
  · exact (LoadM.harmless_ofLedger (LedgerM.harmless_spawn _ _ _)).bind fun a => .pure _
  · refine (LoadM.harmless_ofLedger (LedgerM.harmless_spawn _ _ _)).bind fun blank =>
      (harmless_load env _ _ _).bind fun out => ?_
    split
    · exact .pure _
    · exact (LoadM.harmless_ofLedger (LedgerM.harmless_release _)).bind fun _ => .pure _

/-- What is found when a pointer is followed: what it referred to already, or a new referent for a
pointer that has none. -/
theorem ends_followPointer (env : Env κ) (p : Place κ) (s : LoadState κ) :
    Ends (followPointer env p) s fun result t =>
      Aftermath s.record t.record ∧ match result with
      | .ok q => (q = p ∧ t = s) ∨ ∃ r wire, q = ⟨p.atom.push r, p.frames⟩
          ∧ p.atom.content = .pointer wire ∧ p.atom.referent? = none ∧ p.atom.parts = []
          ∧ Arrives s.ledger false r t.ledger
      | .error _ => ∀ h, t.ledger.balance h = s.ledger.balance h := by
  rw [followPointer]
  split
  · exact Ends.pure ⟨.refl _, fun _ => rfl⟩
  · exact Ends.pure ⟨.refl _, .inl ⟨rfl, rfl⟩⟩
  · rename_i pointer hpointer hreferent
    refine ((harmless_loadReferent env p s).and (arrives_loadReferent env p s)).bind
      fun result t hresult => ?_
    obtain ⟨hrecord, hresult⟩ := hresult
    split
    · exact Ends.pure ⟨hrecord, hresult⟩
    · rename_i r
      obtain ⟨⟨wire, hcontent⟩, hcame⟩ := hresult
      have hparts : p.atom.parts = [] := parts_of_unfollowed hcontent hreferent
      exact Ends.pure ⟨hrecord, .inr ⟨r, wire, rfl, hcontent, hreferent, hparts, hcame⟩⟩

theorem Balanced.yields_dereference (hd : d.Balanced) {id : Nat} (hid : d.Live id) :
    Yields (dereference id) d
      (fun _ t => d.TurnsInto d.roots t ∨ ∃ p r wire, d.find? id = some p ∧ p ∈ d.places
        ∧ p.atom.info.id = id ∧ p.atom.content = .pointer wire ∧ p.atom.parts = []
        ∧ d.TurnsInto (d.roots.map (Atom.graft id r)) t)
      fun _ t => d.TurnsInto d.roots t := by
  refine (DocumentM.yields_place hid).bind fun p t ht => ?_
  obtain ⟨⟨hp, hfind, rfl⟩, rfl⟩ := ht
  refine DocumentM.yields_got ?_
  refine (DocumentM.yields_ofLoad (ends_followPointer t.env p
    ⟨t.ledger, t.sources, .source t.source⟩)).bind fun result u hu => ?_
  obtain ⟨s, rfl, hrecord, hresult⟩ := hu
  split
  · refine Yields.throw ⟨rfl, ⟨hd.shaped, fun h => ?_⟩, hrecord.through _, rfl⟩
    rw [hresult h]
    exact hd.balance h
  · rename_i q
    refine Yields.via (fun _ v => v = ({ t with ledger := s.ledger, sources := s.sources }.put q))
      (Yields.modified rfl) fun _ v hv => Yields.pure ?_
    subst hv
    have hsources : Balanced { t with sources := s.sources } := ⟨hd.shaped, hd.balance⟩
    obtain ⟨before, after, hroots⟩ := List.append_of_mem (mem_places.1 hp)
    rcases hresult with ⟨rfl, rfl⟩ | ⟨r, wire, rfl, hcontent, hreferent, hparts, hcame⟩
    · obtain ⟨hput, hbalanced⟩ := hsources.put_among (m := t.ledger) hroots rfl
        (hd.shaped_place hp) fun _ => rfl
      rw [← hroots] at hput
      exact .inl ⟨congrArg Document.roots hput, hbalanced, by rw [hput]; exact .refl _,
        congrArg Document.source hput⟩
    · have hshaped := hd.shaped_place hp
      have haccounts := (accounts_push_referent (Everywhere.of_assemble hshaped) hcontent hreferent
        hcame).assemble hshaped
      obtain ⟨hput, hbalanced⟩ := hsources.put_among (m := s.ledger)
        (q := ⟨p.atom.push r, p.frames⟩) hroots (Info.id_of_site haccounts.site) haccounts.shaped
        haccounts.balance
      have hself := p.atom.tally_pos
      have hwhole : p.root.atom.tally p.atom.info.id
          = p.atom.tally p.atom.info.id + Frame.tallies p.atom.info.id p.frames :=
        Place.tally_assemble p.atom.info.id p.atom p.frames
      -- The pointer's handle occurs nowhere around it.
      have haround : Frame.tallies p.atom.info.id p.frames = 0 := by
        have hone := hd.tallies_le p.atom.info.id
        have hroot := tallies_pos (mem_places.1 hp) p.atom.info.id
        omega
      have hgraft : (Place.root ⟨p.atom.push r, p.frames⟩).atom
          = Atom.graft p.atom.info.id r p.root.atom := by
        rw [← Atom.graft_self r hparts]
        exact Place.assemble_graft haround r p.atom
      refine .inr ⟨p, r, wire, hfind, hp, rfl, hcontent, hparts, ?_, hbalanced, ?_, ?_⟩
      · rw [hd.map_graft hroots (by omega), ← hgraft]
        exact congrArg Document.roots hput
      · rw [hput]
        exact hrecord.through _
      · rw [hput]

/-! ## Framed documents -/

/-- The operations that edit nothing. -/
def Operation.AddsOnly : Operation κ → Prop
  | create .. | loadNew .. | allocateNew .. | dereference _ | cast .. | copy _ => True
  | _ => False

/-- The atom at a place is what it was: it has the same name, layout, offset, flags, extent and tail,
the same content, and the same parent. -/
structure Untouched (p q : Place κ) : Prop where
  info : q.atom.info = p.atom.info
  content : q.atom.content = p.atom.content
  parent : (q.up?.map fun outer => outer.atom.info.id) = p.up?.map fun outer => outer.atom.info.id

def KeepsParts (p q : Place κ) : Prop :=
  (q.atom.parts.map fun a => a.info.id) = p.atom.parts.map fun a => a.info.id

/-- The operation gave the pointer, which had no referent, its referent. -/
def FirstFollowed (op : Operation κ) (result : Except Error Unit) (p q : Place κ) : Prop :=
  op = .dereference p.atom.info.id ∧ result = .ok () ∧ (∃ wire, p.atom.content = .pointer wire)
    ∧ p.atom.parts = [] ∧ ∃ referent, q.atom.parts = [referent]

/-- An operation on `d`, with its result, left `t`: only a pointer that was followed changed. -/
structure Framed (d : Document κ) (op : Operation κ) (result : Except Error Unit) (t : Document κ) :
    Prop where
  /-- Every atom is found where it was. -/
  atoms : ∀ p ∈ d.places, ∃ q, t.find? p.atom.info.id = some q ∧ Untouched p q
    ∧ (KeepsParts p q ∨ FirstFollowed op result p q)
  contents : t.sources.rewound = d.sources.rewound
  source : t.source = d.source
  warnings : d.warnings <+: t.warnings
  /-- A failed operation leaves the same atoms. -/
  failed : ∀ e, result = .error e → (∀ id, t.Live id ↔ d.Live id) ∧ t.atomCount = d.atomCount

/-- Atoms of outermost atoms that are still there are untouched. -/
theorem TurnsInto.framed_of_subset {roots : List (Atom κ)} (h : d.TurnsInto roots t) (hd : d.Balanced)
    (hsub : d.roots ⊆ roots) (op : Operation κ) {result : Except Error Unit}
    (hfailed : ∀ e, result = .error e → roots = d.roots) : Framed d op result t where
  atoms p hp := by
    have hmem : p ∈ t.places := by
      rw [mem_places] at hp ⊢
      rw [h.roots]
      exact hsub hp
    exact ⟨p, h.balanced.isForest.found p hmem, ⟨rfl, rfl, rfl⟩, .inl rfl⟩
  contents := congrArg Prod.snd h.aftermath.contents
  source := h.source
  warnings := List.reverse_prefix.2 h.aftermath.warnings
  failed e he := by
    have hroots : t.roots = d.roots := h.roots.trans (hfailed e he)
    refine ⟨fun id => ?_, ?_⟩
    · rw [Live, Live, places_eq, places_eq, hroots]
    · rw [h.balanced.isForest.count, hd.isForest.count, hroots]

/-- Atoms around and beside a pointer that was followed are untouched. -/
theorem TurnsInto.framed_graft {p : Place κ} {r : Atom κ} {wire : Bytes} (hd : d.Balanced)
    (hp : p ∈ d.places) (hcontent : p.atom.content = .pointer wire) (hparts : p.atom.parts = [])
    (h : d.TurnsInto (d.roots.map (Atom.graft p.atom.info.id r)) t) :
    Framed d (.dereference p.atom.info.id) (.ok ()) t where
  atoms q hq := by
    have hframes := hd.notIn_frames hp hparts hq
    have hmem : q.graft p.atom.info.id r ∈ t.places := by
      rw [mem_places, Place.root_graft hframes, h.roots]
      exact List.mem_map_of_mem (mem_places.1 hq)
    refine ⟨q.graft p.atom.info.id r, ?_, ⟨Atom.info_graft _ _ _, Atom.content_graft _ _ _, ?_⟩, ?_⟩
    · have hfound := h.balanced.isForest.found _ hmem
      rwa [Place.graft, Atom.info_graft] at hfound
    · rw [Place.up?_graft hframes, Option.map_map]
      congr 1
      funext outer
      exact congrArg Info.id (Atom.info_graft _ _ _)
    · rw [KeepsParts, Place.graft, Atom.parts_graft]
      by_cases hid : q.atom.info.id = p.atom.info.id
      · obtain rfl := hd.eq_of_id hq hp hid
        exact .inr ⟨rfl, rfl, ⟨wire, hcontent⟩, hparts, r,
          (Atom.parts_graft _ r q.atom).trans (if_pos rfl)⟩
      · refine .inl ?_
        rw [if_neg hid, List.map_map]
        exact List.map_congr_left fun a _ => congrArg Info.id (Atom.info_graft _ _ a)
  contents := congrArg Prod.snd h.aftermath.contents
  source := h.source
  warnings := List.reverse_prefix.2 h.aftermath.warnings
  failed := nofun

/-- An operation that adds an outermost atom, or fails. -/
theorem Adds.framing {m : DocumentM κ α} (h : Adds d m) (hd : d.Balanced) (op : Operation κ) :
    Yields (do let _ ← m) d (fun _ t => Framed d op (.ok ()) t) fun e t => Framed d op (.error e) t := by
  refine Yields.bind (h.mono (fun _ _ ht => ht) fun e t ht => ?_) fun _ t ht => Yields.pure ?_
  · exact ht.framed_of_subset hd (List.Subset.refl _) op fun _ _ => rfl
  · obtain ⟨a, ht⟩ := ht
    exact ht.framed_of_subset hd (List.subset_cons_self _ _) op nofun

/-- Operations that edit nothing leave every atom of a reachable document as it was, but for the
referent of a pointer that is followed for the first time. They add warnings at most, leave what the
sources hold, and leave the same atoms if they fail. -/
theorem Reachable.framed (h : Reachable d) {op : Operation κ} (hop : op.AddsOnly)
    (hlive : ∀ id ∈ op.handles, d.Live id) :
    Framed d op (op.run.run d).1 (op.run.run d).2 := by
  have hd := h.balanced
  refine Yields.result (P := Framed d op) ?_
  cases op with
  | create layout name offset =>
    exact Adds.framing ((hd.yields_created layout name offset).mono (fun _ _ ⟨a, _, ht⟩ => ⟨a, ht⟩)
      fun _ _ ht => ht) hd _
  | loadNew layout name offset =>
    exact (hd.adds_createWith layout name offset fun _ _ ht => ht.adding_loadAtom).framing hd _
  | allocateNew layout name =>
    exact (hd.adds_createWith layout name 0 fun _ _ ht => ht.adding_allocateAtom).framing hd _
  | dereference id =>
    have hid : d.Live id := hlive id (List.mem_singleton_self id)
    refine Yields.bind ((hd.yields_dereference hid).mono (fun _ _ ht => ht) fun e t ht => ?_)
      fun _ t ht => Yields.pure ?_
    · exact ht.framed_of_subset hd (List.Subset.refl _) _ fun _ _ => rfl
    · rcases ht with ht | ⟨p, r, wire, -, hp, rfl, hcontent, hparts, ht⟩
      · exact ht.framed_of_subset hd (List.Subset.refl _) _ fun _ _ => rfl
      · exact ht.framed_graft hd hp hcontent hparts
  | cast id layout => exact (hd.adds_cast (hlive id (List.mem_singleton_self id)) layout).framing hd _
  | copy id => exact (hd.adds_copy (hlive id (List.mem_singleton_self id))).framing hd _
  | _ => exact False.elim hop

/-- A pointer is followed to the byte after it, and then a block is loaded from where there are too
few bytes. -/
theorem framed_of_followed :
    let empty : Document Empty :=
      { env := ⟨{}, ⟨nofun, nofun, nofun, nofun, nofun, nofun, nofun, nofun⟩⟩
        sources := [.memory #[1, 7] false 0]
        source := 0 }
    let follow : Operation Empty := .dereference 0
    let misload : Operation Empty := .loadNew (.block 2) "y" 1
    let loaded := ((loadNew (.pointer ⟨1, false, .little, by decide⟩ (.block 1) .absolute) "p" 0).run
      empty).2
    let followed := follow.run.run loaded
    let failed := misload.run.run followed.2
    followed.1.toOption = some () ∧ failed.1.toOption = none ∧ followed.2.atomCount = 2
      ∧ Framed loaded follow followed.1 followed.2 ∧ Framed followed.2 misload failed.1 failed.2 := by
  intro empty follow misload loaded followed failed
  have hloaded : Reachable loaded := by
    have hstep : Reachable ((Operation.loadNew (.pointer ⟨1, false, .little, by decide⟩ (.block 1)
      .absolute) "p" 0).run.run empty).2 := .step _ (.empty ..) nofun
    exact hstep
  have hlive : ∀ id ∈ follow.handles, loaded.Live id :=
    List.forall_mem_singleton.2 (by decide +kernel)
  have hfollowed : Reachable followed.2 := .step follow hloaded hlive
  exact ⟨by decide +kernel, by decide +kernel, by decide +kernel,
    Reachable.framed hloaded trivial hlive, Reachable.framed hfollowed trivial nofun⟩

end Document

/-! ## Operations on other trees -/

namespace Document

/-- The handles of the atoms that the operation may change. What it reads or copies is left out. -/
def Operation.changes : Operation κ → List Nat
  | create .. | loadNew .. | allocateNew .. | cast .. | copy _ | takeWarnings => []
  | loadAtom id | allocateAtom id | assign id _ | assignAt id _ _ | recalculate id | dereference id
  | reference id _ | referenceAtom id _ | relocate id _ | commit id | discard id => [id]

/-- The atom is an outermost one, and all handles are accounted for. -/
structure Keeping (a : Atom κ) (d : Document κ) : Prop where
  balanced : d.Balanced
  root : a ∈ d.roots

variable {d t : Document κ} {a : Atom κ}

theorem Renews.keeping {id : Nat} (h : Renews id d t) (ha : a ∈ d.roots) (helse : a.holds id = false) :
    t.Keeping a :=
  ⟨h.balanced, h.others a ha helse⟩

theorem TurnsInto.keeping {roots : List (Atom κ)} (h : d.TurnsInto roots t) (ha : a ∈ roots) : t.Keeping a :=
  ⟨h.balanced, h.roots.symm ▸ ha⟩

namespace Keeping

/-- The atoms of the tree are found where they are. -/
theorem find?_eq (h : d.Keeping a) {p : Place κ} (hp : p.root.atom = a) :
    d.find? p.atom.info.id = some p :=
  h.balanced.isForest.found p (mem_places.2 (hp.symm ▸ h.root))

/-- Another outermost atom is given up. -/
theorem discarding (h : d.Keeping a) {id : Nat} (hid : d.Live id) (helse : a.holds id = false) :
    Yields (discard id) d (fun _ t => t.Keeping a) fun _ t => t.Keeping a := by
  refine (DocumentM.yields_place hid).bind fun p t ht => ?_
  obtain ⟨⟨hp, -, rfl⟩, rfl⟩ := ht
  dsimp only
  split
  · exact Yields.throw_bind h
  · rename_i hframes
    obtain ⟨b, _ | ⟨f, frames⟩⟩ := p
    · have hroot : b ∈ t.roots := mem_places.1 hp
      obtain ⟨before, after, hroots, hremove, hbalanced⟩ := h.balanced.remove hroot
      have hne : a ≠ b := fun heq => by
        have hown := Place.holds_root ⟨b, []⟩
        rw [heq] at helse
        cases hown.symm.trans helse
      have ha := h.root
      rw [hroots, List.mem_append, List.mem_cons] at ha
      refine Yields.modified ⟨hbalanced, ?_⟩
      dsimp only
      rw [hremove, List.mem_append]
      exact ha.imp_right fun h => h.resolve_left hne
    · exact absurd rfl hframes

/-- An operation that is applied to other trees leaves the atom and all below it as they are. -/
theorem run (h : d.Keeping a) (op : Operation κ) (hlive : ∀ id ∈ op.handles, d.Live id)
    (helse : ∀ id ∈ op.changes, a.holds id = false) : (op.run.run d).2.Keeping a := by
  have hd := h.balanced
  have hid {id : Nat} (hop : op.handles = [id]) : d.Live id := hlive id (hop ▸ List.mem_singleton_self id)
  have hother {id : Nat} (hop : op.changes = [id]) : a.holds id = false :=
    helse id (hop ▸ List.mem_singleton_self id)
  have hrenews {id : Nat} {m : DocumentM κ Unit} (hm : Renewing id d m) (hop : op.changes = [id]) :
      (m.run d).2.Keeping a :=
    (Yields.of_run hm : Renews id d (m.run d).2).keeping h.root (hother hop)
  have hadds {m : DocumentM κ Nat} (hm : Adds d m) :
      ((do let _ ← m : DocumentM κ Unit).run d).2.Keeping a := by
    have hall : Yields (do let _ ← m) d (fun _ t => t.Keeping a) fun _ t => t.Keeping a := by
      refine Yields.bind (hm.mono (fun _ _ ht => ht) fun _ _ ht => ht.keeping h.root) fun _ t ht => ?_
      obtain ⟨b, ht⟩ := ht
      exact Yields.pure (ht.keeping (List.mem_cons_of_mem b h.root))
    exact hall.of_run
  cases op with
  | create layout name offset =>
    exact hadds ((hd.yields_created layout name offset).mono (fun _ _ ⟨b, _, ht⟩ => ⟨b, ht⟩) fun _ _ ht => ht)
  | loadNew layout name offset =>
    exact hadds (hd.adds_createWith layout name offset fun _ _ ht => ht.adding_loadAtom)
  | allocateNew layout name =>
    exact hadds (hd.adds_createWith layout name 0 fun _ _ ht => ht.adding_allocateAtom)
  | loadAtom id => exact hrenews (hd.renewing_loadAtom (hid rfl)) rfl
  | allocateAtom id => exact hrenews (hd.renewing_allocateAtom (hid rfl)) rfl
  | assign id v => exact hrenews (hd.renewing_assign (hid rfl) v) rfl
  | assignAt id path v => exact hrenews (hd.renewing_assignAt (hid rfl) path v) rfl
  | recalculate id => exact hrenews (hd.renewing_recalculate (hid rfl)) rfl
  | dereference id =>
    exact hrenews (Yields.bind (hd.renewing_dereference (hid rfl)) fun _ _ ht => Yields.pure ht) rfl
  | reference id address => exact hrenews (hd.renewing_reference (hid rfl) address) rfl
  | referenceAtom id target =>
    have hsource := hlive id List.mem_cons_self
    have htarget := hlive target (List.mem_cons_of_mem _ List.mem_cons_self)
    exact hrenews (hd.renewing_referenceAtom hsource htarget) rfl
  | relocate id offset => exact hrenews (hd.renewing_relocate (hid rfl) offset) rfl
  | commit id => exact hrenews (hd.renewing_commit (hid rfl)) rfl
  | cast id layout => exact hadds (hd.adds_cast (hid rfl) layout)
  | copy id => exact hadds (hd.adds_copy (hid rfl))
  | discard id => exact Yields.of_run (h.discarding (hid rfl) (hother rfl))
  | takeWarnings => exact ⟨⟨hd.shaped, hd.balance⟩, h.root⟩

end Keeping

/-- Operations on live handles, applied to atoms outside the tree `a`, make `t` of `d`, whether they succeed
or fail. The open sources may change at any time. -/
inductive RunsBeside (a : Atom κ) (d : Document κ) : Document κ → Prop
  | refl : RunsBeside a d d
  | step {t : Document κ} (op : Operation κ) (h : RunsBeside a d t) (hlive : ∀ id ∈ op.handles, t.Live id)
    (helse : ∀ id ∈ op.changes, a.holds id = false) : RunsBeside a d (op.run.run t).2
  | outside {t : Document κ} (sources : Sources) (h : RunsBeside a d t) : RunsBeside a d { t with sources }

namespace RunsBeside

/-- The tree stays. -/
theorem keeping (h : RunsBeside a d t) (hd : d.Keeping a) : t.Keeping a := by
  induction h with
  | refl => exact hd
  | step op _ hlive helse ih => exact ih.run op hlive helse
  | outside sources _ ih => exact ⟨⟨ih.balanced.shaped, ih.balanced.balance⟩, ih.root⟩

/-- Every atom in the tree is found where it was. -/
theorem find?_eq (hd : d.Balanced) {p : Place κ} (hp : p ∈ d.places) (h : RunsBeside p.root.atom d t) :
    t.find? p.atom.info.id = some p :=
  (h.keeping ⟨hd, mem_places.1 hp⟩).find?_eq rfl

end RunsBeside

end Document

end BinaryLayout
