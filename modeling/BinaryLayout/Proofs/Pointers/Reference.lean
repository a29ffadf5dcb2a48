import BinaryLayout.Proofs.Document.Rules
import BinaryLayout.Proofs.Placement.Document
import BinaryLayout.Proofs.Pointers.Inverse

/-!
# Pointing at an address and following there

A pointer that was pointed at an address stores the number that was found for it, and its surroundings follow.
Where everything is laid out nothing moves on the way, so the number means the address afterwards as well. A
pointer that is followed for the first time has its referent at the address that its number means, or it is
refused for having none.

## Main statements

* `EditM.stays_afterChange`: an atom whose surroundings follow it stays as it is.
* `Document.Balanced.yields_reference`: the stored number means the address.
* `Document.Balanced.yields_dereference_of_address`, `Document.Balanced.yields_dereference_of_error`: what a
  pointer is followed to.
-/

namespace BinaryLayout

variable {κ α : Type}

open Atom

/-- Where nothing moved, addresses are the same. -/
theorem Steady.bearings {s t : Workplace κ} (h : Steady s t) : t.place.bearings = s.place.bearings := by
  have hframes {fs gs : List (Frame κ)} (houtline : gs.map Frame.outline = fs.map Frame.outline)
      (hstarts : Frame.starts gs = Frame.starts fs) :
      (Frame.sites gs).map Info.bearing = (Frame.sites fs).map Info.bearing := by
    induction fs generalizing gs with
    | nil => rw [List.map_eq_nil_iff.1 houtline]
    | cons f fs ih =>
      cases gs with
      | nil => cases houtline
      | cons g gs =>
        obtain ⟨hface, hrest⟩ := List.cons.inj houtline
        obtain ⟨hoffset, hothers⟩ := List.cons.inj hstarts
        have hlayout : g.info.layout = f.info.layout := congrArg (fun outline => outline.1.2.2) hface
        exact List.cons_eq_cons.2 ⟨Prod.ext hlayout hoffset, ih hrest hothers⟩
  exact List.cons_eq_cons.2 ⟨Prod.ext h.conserves.layout h.offset,
    hframes h.conserves.frames (List.cons.inj h.starts).2⟩

namespace EditM

variable {env : Env κ} {s : Workplace κ}

/-! ## Pointing at an address -/

theorem stays_around {follow : Atom κ → List (Frame κ) → LedgerM κ (Surroundings κ)} :
    Yields (around follow) s (fun _ t => t.place.atom = s.place.atom) fun _ _ => True :=
  yields_around ((Ends.trivial _ _).mono fun _ _ _ => ⟨fun _ => rfl, fun _ _ => trivial⟩)

/-- What follows a change leaves the changed atom as it is. -/
theorem stays_afterChange (hs : s.Ready) :
    Yields (afterChange env) s (fun _ t => t.place.atom = s.place.atom) fun _ _ => True := by
  have hdependents : Yields (around (followDependents env)) s
      (fun _ t => (Steady s t ∧ t.Ready) ∧ t.place.atom = s.place.atom) fun _ _ => True :=
    (Yields.and (readies_followDependents hs) stays_around).mono (fun _ _ h => h) fun _ _ _ => trivial
  refine hdependents.bind fun _ t ht => ?_
  obtain ⟨⟨-, hready⟩, ht⟩ := ht
  obtain ⟨frames, hreflow, -, -⟩ := laidOut_reflow hready.laid hready.poised
  have hplace : t.place.reflow = ⟨t.place.atom, frames⟩ := hreflow
  refine Yields.via (fun _ u => u.place.atom = s.place.atom) (Yields.modified ?_) fun _ u hu => ?_
  · rw [hplace]
    exact ht
  · exact Yields.bind stays_around fun _ v hv => Yields.modified (hv.trans hu)

/-- What a pointer is after it was pointed at an address. -/
theorem yields_reference (address : Nat) (hs : s.Ready) :
    Yields (reference env address) s
      (fun _ t => ∃ pointer wire raw, pointerAt s.place.atom = .ok pointer
        ∧ env.wireFor pointer.policy s.place address = .ok wire ∧ pointer.wire.encode (.signed wire) = .ok raw
        ∧ t.place.atom = (s.place.atom.fill (.pointer raw) []).ready)
      fun _ _ => True := by
  refine (yields_place s).bind fun p t ht => ?_
  obtain ⟨rfl, rfl⟩ := ht
  refine Yields.via (fun pointer u => u = t ∧ pointerAt t.place.atom = .ok pointer) ?_
    fun pointer u hu => ?_
  · exact yields_ofExcept (fun _ h => ⟨rfl, h⟩) fun _ _ => trivial
  obtain ⟨rfl, hpointer⟩ := hu
  refine Yields.via (fun wire v => v = u ∧ env.wireFor pointer.policy u.place address = .ok wire) ?_
    fun wire v hv => ?_
  · exact yields_ofExcept (fun _ h => ⟨rfl, h⟩) fun _ _ => trivial
  obtain ⟨rfl, hwire⟩ := hv
  refine Yields.via (fun raw w => w = v ∧ pointer.wire.encode (.signed wire) = .ok raw) ?_
    fun raw w hw => ?_
  · exact yields_ofExcept (fun _ h => ⟨rfl, h⟩) fun _ _ => trivial
  obtain ⟨rfl, hraw⟩ := hw
  have hst := Conserves.of_atom hs.shaped (accounts_repoint hpointer raw w.ledger)
  have hlaid : Everywhere LaidOut (w.place.atom.fill (.pointer raw) []) :=
    laidOut_rewire hs.laid hpointer hraw (fun _ h => nomatch h)
  refine Yields.via (fun _ x => x = { w with ledger := w.ledger.releaseAll w.place.atom.parts }) rfl
    fun _ x hx => ?_
  subst hx
  have hstored := hs.of_atom (l := w.ledger.releaseAll w.place.atom.parts) hst.shaped hlaid rfl
  refine Yields.via (fun _ x => x.Ready ∧ x.place.atom = w.place.atom.fill (.pointer raw) [])
    (yields_setAtom ⟨hstored, rfl⟩) fun _ x hx => ?_
  obtain ⟨hready, hatom⟩ := hx
  refine (yields_atom x).bind fun a y hy => ?_
  obtain ⟨rfl, rfl⟩ := hy
  have hmade := Conserves.of_atom hready.shaped (Accounts.refl (Everywhere.of_assemble hready.shaped)).ready
  have hagain := hready.of_atom (l := y.ledger) hmade.shaped hready.laid.laidOut_ready
    (Info.offset_of_site (site_ready _))
  refine Yields.via (fun _ z => z.Ready ∧ z.place.atom = y.place.atom.ready) (yields_setAtom ⟨hagain, rfl⟩)
    fun _ z hz => ?_
  refine (stays_afterChange hz.1).mono (fun _ u hu => ?_) fun _ _ h => h
  exact ⟨pointer, wire, raw, hpointer, hwire, hraw, hu.trans (hatom ▸ hz.2)⟩

end EditM

namespace Document

variable {d : Document κ}

/-- A pointer in a document that has a number, and has not been followed since it got it. -/
structure Pointing (d : Document κ) (id : Nat) (pointer : PointerLayout κ) (raw : Bytes) (p : Place κ) :
    Prop where
  found : d.find? id = some p
  mem : p ∈ d.places
  pointer : pointerAt p.atom = .ok pointer
  content : p.atom.content = .pointer raw
  parts : p.atom.parts = []

/-- A pointer that was pointed at an address has a number which means it. -/
theorem Balanced.yields_reference (hd : d.Balanced) (hplace : d.InPlace) {id : Nat} (hid : d.Live id)
    {address : Nat} (hword : address < pow2 64) :
    Yields (reference id address) d
      (fun _ e => e.Balanced ∧ e.env = d.env ∧ ∃ pointer raw p, e.Pointing id pointer raw p
        ∧ (pointer.policy.isPlain = true →
          e.env.address pointer.policy p (pointer.wire.read raw) = .ok address))
      fun _ _ => True := by
  refine DocumentM.yields_got (yields_edit hid fun p hp hfind hpid => ?_)
  have hready : Workplace.Ready ⟨d.ledger, p⟩ := (hd.tidy hplace hp).ready
  refine (Yields.and (EditM.tidies_reference d.env address hready)
    (EditM.yields_reference address hready)).mono (fun _ t ht => ?_) fun _ _ _ => trivial
  obtain ⟨⟨hsteady, -⟩, pointer, wire, raw, hpointer, hwire, hraw, hatom⟩ := ht
  obtain ⟨hbalanced, hmem⟩ := hd.places_put hp hsteady.conserves.accounts
  have henv : ({ d with ledger := t.ledger }.put t.place).env = d.env := env_put ..
  have hface : t.place.atom.info.face = p.atom.info.face := hsteady.conserves.face
  have hsame : t.place.atom.info.id = id := (congrArg Prod.fst hface).trans hpid
  refine ⟨hbalanced, henv, pointer, raw, t.place, ⟨?_, hmem, ?_, ?_, ?_⟩, fun hplain => ?_⟩
  · rw [← hsame]
    exact hbalanced.isForest.found _ hmem
  · rw [pointerAt, hsteady.conserves.layout]
    exact hpointer
  · rw [hatom, content_ready, content_fill]
  · rw [hatom, parts_ready, parts_fill]
  · rw [henv, Env.address_of_bearings hplain hsteady.bearings]
    exact Env.address_of_wireFor hplain hwire hraw hword

/-! ## Following -/

/-- What a pointer that was not followed yet refers to stands at the address that its number means. Errors
are those of loading it. -/
theorem offset_loadReferent {env : Env κ} {p : Place κ} {pointer : PointerLayout κ} {raw : Bytes}
    {address : Nat} (hpointer : pointerAt p.atom = .ok pointer) (hcontent : p.atom.content = .pointer raw)
    (hwire : pointer.wire.read raw ≠ 0)
    (haddress : env.address pointer.policy p (pointer.wire.read raw) = .ok address) (s : LoadState κ) :
    Ends (loadReferent env p) s fun result _ => match result with
      | .ok a => a.info.offset = address
      | .error e => ∃ fault : Error, e = fault.within ["*"] := by
  have hfound : wireOf pointer p.atom = .ok (pointer.wire.read raw) := by
    rw [wireOf, hcontent]
  rw [loadReferent, hpointer]
  simp only [bind, Except.bind, hfound, if_neg hwire, haddress]
  refine (LoadM.ends_spawn _ _ _ s).bind fun blank t hblank => ?_
  obtain ⟨hempty, -, hoffset, -⟩ := hblank
  refine (accounted_load env Layout.nestingLimit _ _ t hempty).bind fun out u hout => ?_
  split
  · exact Ends.pure ((Info.offset_of_site hout.site).trans hoffset)
  · exact (Ends.trivial _ u).bind fun _ _ _ => Ends.pure ⟨_, rfl⟩

/-- A pointer that means no address is not followed. -/
theorem error_loadReferent {env : Env κ} {p : Place κ} {pointer : PointerLayout κ} {raw : Bytes} {e : Error}
    (hpointer : pointerAt p.atom = .ok pointer) (hcontent : p.atom.content = .pointer raw)
    (hwire : pointer.wire.read raw ≠ 0)
    (haddress : env.address pointer.policy p (pointer.wire.read raw) = .error e) (s : LoadState κ) :
    Ends (loadReferent env p) s fun result _ => result = .error e := by
  have hfound : wireOf pointer p.atom = .ok (pointer.wire.read raw) := by
    rw [wireOf, hcontent]
  rw [loadReferent, hpointer]
  simp only [bind, Except.bind, hfound, if_neg hwire, haddress]
  exact Ends.pure rfl

namespace Pointing

variable {id : Nat} {pointer : PointerLayout κ} {raw : Bytes} {p : Place κ}

theorem referent? (h : d.Pointing id pointer raw p) : p.atom.referent? = none := by
  obtain ⟨⟨info, content, parts⟩, frames⟩ := p
  cases h.content
  cases h.parts
  rfl

/-- Following is loading the referent then. -/
theorem followPointer_eq (h : d.Pointing id pointer raw p) (env : Env κ) :
    followPointer env p = do
      match ← loadReferent env p with
      | .error e => return .error e
      | .ok referent => return .ok ⟨p.atom.push referent, p.frames⟩ := by
  have hfollow := followPointer.eq_def env p
  rw [h.pointer, h.referent?] at hfollow
  exact hfollow

/-- What it is followed to stands at the address that its number means. Errors are those of loading it. -/
theorem offset_followPointer (h : d.Pointing id pointer raw p) {env : Env κ}
    (hwire : pointer.wire.read raw ≠ 0) {address : Nat}
    (haddress : env.address pointer.policy p (pointer.wire.read raw) = .ok address) (s : LoadState κ) :
    Ends (followPointer env p) s fun result t =>
      (∃ fault : Error, result = .error (fault.within ["*"]))
        ∨ ∃ a, result = .ok ⟨p.atom.push a, p.frames⟩ ∧ a.info.offset = address
          ∧ Arrives s.ledger false a t.ledger := by
  rw [h.followPointer_eq]
  refine ((offset_loadReferent h.pointer h.content hwire haddress s).and
    (arrives_loadReferent env p s)).bind fun result t hresult => ?_
  cases result with
  | error e =>
    obtain ⟨⟨fault, rfl⟩, -⟩ := hresult
    exact Ends.pure (.inl ⟨fault, rfl⟩)
  | ok a => exact Ends.pure (.inr ⟨a, rfl, hresult.1, hresult.2.2⟩)

/-- A pointer that got its referent has it as its part. -/
theorem push_referent (h : d.Pointing id pointer raw p) (a : Atom κ) :
    (p.atom.push a).referent? = some a
      ∧ ∃ q, Place.down? ⟨p.atom.push a, p.frames⟩ 0 = some q ∧ q.atom = a := by
  obtain ⟨⟨info, content, parts⟩, frames⟩ := p
  cases h.content
  cases h.parts
  exact ⟨rfl, _, rfl, rfl⟩

/-- A pointer that got its referent leads to it in the document. -/
theorem found_referent (h : d.Pointing id pointer raw p) (hd : d.Balanced) (sources : Sources) {a : Atom κ}
    {l : Ledger κ} (hcame : Arrives d.ledger false a l) :
    (p.atom.push a).referent? = some a ∧ ∃ q,
      ({ d with ledger := l, sources }.put ⟨p.atom.push a, p.frames⟩).find? a.info.id = some q
        ∧ q.atom = a := by
  have hshaped := hd.shaped_place h.mem
  have haccounts := (accounts_push_referent (Everywhere.of_assemble hshaped) h.content h.referent?
    hcame).assemble hshaped
  have hsources : Balanced { d with sources } := ⟨hd.shaped, hd.balance⟩
  obtain ⟨hbalanced, hmem⟩ := hsources.places_put (m := l) (q := ⟨p.atom.push a, p.frames⟩) h.mem haccounts
  obtain ⟨hreferent, q, hdown, rfl⟩ := h.push_referent a
  exact ⟨hreferent, q, hbalanced.isForest.found q (mem_places_of_root (Place.root_down? hdown) hmem), rfl⟩

end Pointing

/-- A pointer whose number means an address is followed to this address. It may be that nothing can be loaded
there, but it is not the pointer then that is at fault. -/
theorem Balanced.yields_dereference_of_address (hd : d.Balanced) {id : Nat} {pointer : PointerLayout κ}
    {raw : Bytes} {p : Place κ} (h : d.Pointing id pointer raw p) (hwire : pointer.wire.read raw ≠ 0)
    {address : Nat} (haddress : d.env.address pointer.policy p (pointer.wire.read raw) = .ok address) :
    Yields (dereference id) d (fun r e => ∃ q, e.find? r = some q ∧ q.atom.info.offset = address)
      fun e _ => ∀ problem, e ≠ .located p.path problem := by
  refine Yields.via (fun q t => q = p ∧ t = d) (DocumentM.yields_found h.found ⟨rfl, rfl⟩) fun q t ht => ?_
  obtain ⟨rfl, rfl⟩ := ht
  refine DocumentM.yields_got ?_
  refine (DocumentM.yields_ofLoad (h.offset_followPointer hwire haddress _)).bind fun result u hu => ?_
  obtain ⟨s, rfl, hresult⟩ := hu
  rcases hresult with ⟨fault, rfl⟩ | ⟨a, rfl, hoffset, hcame⟩
  · refine Yields.throw fun problem hproblem => ?_
    cases fault with
    | schema fault => cases hproblem
    | located path fault => simp [Error.within] at hproblem
  · obtain ⟨hreferent, r, hfound, rfl⟩ := h.found_referent hd s.sources hcame
    refine Yields.via (fun _ v => v = ({ t with ledger := s.ledger, sources := s.sources }.put
      ⟨q.atom.push r.atom, q.frames⟩)) (Yields.modified rfl) fun _ v hv => ?_
    subst hv
    refine Yields.pure ⟨r, ?_, hoffset⟩
    rwa [hreferent]

/-- A pointer whose number means no address is not followed, and is at fault. -/
theorem Balanced.yields_dereference_of_error {id : Nat} {pointer : PointerLayout κ} {raw : Bytes}
    {p : Place κ} (h : d.Pointing id pointer raw p) (hwire : pointer.wire.read raw ≠ 0) {fault : Error}
    (haddress : d.env.address pointer.policy p (pointer.wire.read raw) = .error fault) :
    Yields (dereference id) d (fun _ _ => False) fun e _ => e = fault.within p.path := by
  refine Yields.via (fun q t => q = p ∧ t = d) (DocumentM.yields_found h.found ⟨rfl, rfl⟩) fun q t ht => ?_
  obtain ⟨rfl, rfl⟩ := ht
  refine DocumentM.yields_got ?_
  have hfollow : Ends (followPointer t.env q) ⟨t.ledger, t.sources, .source t.source⟩ fun result _ =>
      result = .error fault := by
    rw [h.followPointer_eq]
    refine (error_loadReferent h.pointer h.content hwire haddress _).bind fun result s hresult => ?_
    subst hresult
    exact Ends.pure rfl
  refine (DocumentM.yields_ofLoad hfollow).bind fun result u hu => ?_
  obtain ⟨s, rfl, rfl⟩ := hu
  exact Yields.throw rfl

end Document

end BinaryLayout
