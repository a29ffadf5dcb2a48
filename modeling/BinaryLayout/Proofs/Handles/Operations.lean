import BinaryLayout.Proofs.Document.Rules
import BinaryLayout.Proofs.Handles.Document

/-!
# Handles under operations

Each operation on live handles leaves a balanced document balanced, whether it succeeds or fails.
Those that change what is there also keep the outermost atoms in their order, and this is what lets
an operation that failed take back the atom that it made. They change the tree of their atom alone.

## Main definitions

* `Document.Renews`: a balanced document with the same outermost handles, and one tree changed.
* `Document.Renewing`, `Document.Balancing`: computations that end so, with or without an error.

## Main statements

* `renewing_assign`, `renewing_loadAtom` and so on: operations on atoms that are there.
* `balancing_loadNew`, `balancing_cast` and so on: operations that make or give up outermost atoms.
-/

namespace BinaryLayout

variable {κ α β : Type}

open Atom

/-- The outermost handle does not depend on what stands further in. -/
theorem Place.id_assemble_of {a b : Atom κ} (h : a.info.id = b.info.id) (frames : List (Frame κ)) :
    (assemble a frames).info.id = (assemble b frames).info.id := by
  cases frames with
  | nil => exact h
  | cons f frames =>
    have hsite : (f.plug a).info.site = (f.plug b).info.site := by rw [Frame.info_plug, Frame.info_plug]
    exact Info.id_of_site (site_assemble_of hsite frames)

/-- An atom with one part more. -/
theorem Atom.tally_push (h : Nat) (a b : Atom κ) :
    (a.push b).tally h = a.tally h + b.tally h := by
  rw [push, tally_eq, tally_eq h a, info_node, parts_node, tallies_append, tallies, tallies]
  omega

/-- A pointer that was not followed yet has no parts. -/
theorem Atom.parts_of_unfollowed {a : Atom κ} {wire : Bytes} (hcontent : a.content = .pointer wire)
    (h : a.referent? = none) : a.parts = [] := by
  obtain ⟨info, content, parts⟩ := a
  cases hcontent
  cases parts with
  | nil => rfl
  | cons part parts => cases h

namespace Document

/-- The document `t` is balanced and has the outermost handles of `d`. Only the tree that has the
handle `id` changed. -/
structure Renews (id : Nat) (d t : Document κ) : Prop where
  balanced : t.Balanced
  handles : (t.roots.map fun a => a.info.id) = d.roots.map fun a => a.info.id
  others : ∀ a ∈ d.roots, a.holds id = false → a ∈ t.roots

/-- However the computation ends, it renews the document. -/
def Renewing (id : Nat) (d : Document κ) (m : DocumentM κ α) : Prop :=
  Yields m d (fun _ t => Renews id d t) fun _ t => Renews id d t

/-- However the computation ends, the document is balanced. -/
def Balancing (d : Document κ) (m : DocumentM κ α) : Prop :=
  Yields m d (fun _ t => t.Balanced) fun _ t => t.Balanced

theorem Renewing.balancing {id : Nat} {d : Document κ} {m : DocumentM κ α} (h : Renewing id d m) :
    Balancing d m :=
  h.mono (fun _ _ h => h.balanced) fun _ _ h => h.balanced

variable {d t : Document κ}

theorem Balanced.renews (hd : d.Balanced) (id : Nat) : Renews id d d := ⟨hd, rfl, fun _ ha _ => ha⟩

/-- The tree of a place is also that of any other place in it. -/
theorem Renews.of_root {p q : Place κ} (hd : d.Balanced) (hp : p ∈ d.places) (hroot : q.root = p.root)
    (h : Renews q.atom.info.id d t) : Renews p.atom.info.id d t :=
  ⟨h.balanced, h.handles, fun a ha helse => h.others a ha (hd.holds_elsewhere ha hp hroot helse)⟩

/-- A changed place put back. -/
theorem Balanced.renews_put (hd : d.Balanced) {p q : Place κ} {m : Ledger κ} {sources : Sources}
    (hp : p ∈ d.places) (hid : q.root.atom.info.id = p.root.atom.info.id)
    (hshaped : Everywhere Shaped q.root.atom)
    (hbalance : ∀ h, q.root.atom.tally h + m.balance h
      = p.root.atom.tally h + d.ledger.balance h) :
    Renews p.atom.info.id d ({ d with ledger := m, sources }.put q) := by
  have hsources : Balanced { d with sources } := ⟨hd.shaped, hd.balance⟩
  obtain ⟨before, after, hroots, hput, hbalanced⟩ :=
    hsources.put (mem_places.1 hp) hid hshaped hbalance
  simp only at hroots
  refine ⟨hbalanced, ?_, fun a ha helse => ?_⟩
  · rw [hput]
    simp [hroots, hid]
  · have hne : a ≠ p.root.atom := fun heq => by
      rw [heq, p.holds_root] at helse
      cases helse
    rw [hroots, List.mem_append, List.mem_cons] at ha
    rw [hput, List.mem_append, List.mem_cons]
    exact ha.imp_right fun h => .inr (h.resolve_left hne)

/-- A changed place put back, whose changes account for all handles. -/
theorem Balanced.renews_accounts (hd : d.Balanced) {p q : Place κ} {m : Ledger κ}
    {sources : Sources} (hp : p ∈ d.places) (h : Accounts p.root.atom d.ledger q.root.atom m) :
    Renews p.atom.info.id d ({ d with ledger := m, sources }.put q) :=
  hd.renews_put hp (Info.id_of_site h.site) h.shaped h.balance

theorem Balanced.shaped_place (hd : d.Balanced) {p : Place κ} (hp : p ∈ d.places) :
    Everywhere Shaped p.root.atom :=
  hd.shaped _ (mem_places.1 hp)

/-! ## Content -/

/-- Edits that conserve what surrounds them. -/
theorem Balanced.renewing_edit (hd : d.Balanced) {id : Nat} (hid : d.Live id) {m : EditM κ Unit}
    (hm : ∀ s : Workplace κ, Everywhere Shaped s.whole → Keeps s m) :
    Renewing id d (edit id m) := by
  refine yields_edit hid fun p hp _ hpid => ?_
  rw [← hpid]
  have hkeeps := hm ⟨d.ledger, p⟩ (hd.shaped_place hp)
  exact Yields.mono hkeeps (fun _ s hs => hd.renews_accounts hp hs.accounts)
    fun _ s hs => hd.renews_accounts hp hs.accounts

theorem Balanced.renewing_assign (hd : d.Balanced) {id : Nat} (hid : d.Live id) (v : Value) :
    Renewing id d (assign id v) :=
  DocumentM.yields_got <| hd.renewing_edit hid fun _ hs => EditM.keeps_setValue d.env v hs

theorem Balanced.renewing_recalculate (hd : d.Balanced) {id : Nat} (hid : d.Live id) :
    Renewing id d (recalculate id) :=
  DocumentM.yields_got <| hd.renewing_edit hid fun _ hs => EditM.keeps_recalculate d.env hs

theorem Balanced.renewing_reference (hd : d.Balanced) {id : Nat} (hid : d.Live id) (address : Nat) :
    Renewing id d (reference id address) :=
  DocumentM.yields_got <| hd.renewing_edit hid fun _ hs => EditM.keeps_reference d.env address hs

theorem Balanced.renewing_allocateAtom (hd : d.Balanced) {id : Nat} (hid : d.Live id) :
    Renewing id d (allocateAtom id) := by
  refine DocumentM.yields_got <| hd.renewing_edit hid fun s hs => ?_
  have hmade : Keeps s (EditM.remake (allocate d.env Layout.nestingLimit)) :=
    (EditM.keeps_remake hs (accounts_allocate d.env _ _ (Everywhere.of_assemble hs) _)).mono
      (fun _ _ h => h.1) fun _ _ h => h
  exact hmade.bind fun _ t ht => Yields.modified (conserves_reflow ht.shaped)

/-- The target of a written path is an atom of the document. -/
theorem Balanced.renewing_assignAt (hd : d.Balanced) {id : Nat} (hid : d.Live id) (path : String)
    (v : Value) : Renewing id d (assignAt id path v) := by
  obtain ⟨p, hp, hfind, rfl⟩ := find?_of_live hid
  refine DocumentM.yields_got ?_
  refine Yields.via (fun q t => t = d ∧ q.root = p.root) ?_ fun q t ht => ?_
  · refine DocumentM.yields_ofExcept (fun q hq => ⟨rfl, ?_⟩) fun _ _ => hd.renews _
    rw [locate, place, hfind] at hq
    exact Place.root_lookup hq
  · obtain ⟨rfl, hroot⟩ := ht
    have hq := hd.renewing_assign (live_of_mem (mem_places_of_root hroot hp)) v
    exact Yields.mono hq (fun _ _ h => h.of_root hd hp hroot) fun _ _ h => h.of_root hd hp hroot

theorem Balanced.renewing_loadAtom (hd : d.Balanced) {id : Nat} (hid : d.Live id) :
    Renewing id d (loadAtom id) := by
  refine (DocumentM.yields_place hid).bind fun p t ht => ?_
  obtain ⟨⟨hp, -, rfl⟩, rfl⟩ := ht
  dsimp only
  split
  · exact Yields.throw_bind (hd.renews _)
  · refine (DocumentM.yields_get t).bind fun e u hu => ?_
    obtain ⟨rfl, rfl⟩ := hu
    have hshaped := hd.shaped_place hp
    have hload := accounts_load u.env Layout.nestingLimit p.frames (.inl (Everywhere.of_assemble hshaped))
      ⟨u.ledger, u.sources, .source u.source⟩
    refine (DocumentM.yields_ofLoad hload).bind fun out t ht => ?_
    obtain ⟨s, rfl, hout⟩ := ht
    have hwhole : Accounts p.root.atom u.ledger (Place.root ⟨out.atom, p.frames⟩).atom s.ledger :=
      hout.assemble hshaped
    split
    · refine Yields.via (fun _ t => Renews p.atom.info.id u t) (Yields.modified ?_) fun _ t ht =>
        Yields.throw ht
      exact hd.renews_accounts hp hwhole
    · exact Yields.modified
        (hd.renews_accounts hp (hwhole.trans (accounts_reflow hwhole.shaped s.ledger)))

theorem Balanced.renewing_relocate (hd : d.Balanced) {id : Nat} (hid : d.Live id) (offset : Nat) :
    Renewing id d (relocate id offset) := by
  refine (DocumentM.yields_place hid).bind fun p t ht => ?_
  obtain ⟨⟨hp, -, rfl⟩, rfl⟩ := ht
  have hsame : (p.atom.relocate offset).unplaced = p.atom.unplaced := by
    rw [Atom.relocate, unplaced_arranged]
    obtain ⟨⟨info, content, parts⟩, frames⟩ := p
    rfl
  have hshaped := hd.shaped_place hp
  have hmoved : Everywhere Shaped (p.atom.relocate offset) := by
    rw [← everywhere_shaped_unplaced, hsame, everywhere_shaped_unplaced]
    exact Everywhere.of_assemble hshaped
  have hbits : p.atom.isBits = (p.atom.relocate offset).isBits := by
    rw [← isBits_unplaced, ← hsame, isBits_unplaced]
  have hinfo : (p.atom.relocate offset).info.id = p.atom.info.id := by
    have := congrArg (fun a => a.info.id) hsame
    simpa only [info_unplaced] using this
  refine Yields.modified (hd.renews_put (m := t.ledger) hp (Place.id_assemble_of hinfo p.frames)
    (shaped_assemble_of hbits hmoved hshaped) fun h => ?_)
  have htally : (p.atom.relocate offset).tally h = p.atom.tally h := by
    rw [← tally_unplaced, hsame, tally_unplaced]
  show ((Place.assemble (p.atom.relocate offset) p.frames).tally h : Int) + _
    = (Place.assemble p.atom p.frames).tally h + _
  rw [Place.tally_assemble, Place.tally_assemble, htally]

/-! ## Pointers -/

/-- What is followed is a pointer that was loaded. -/
theorem pointer_of_found {env : Env κ} {p : Place κ} {found : PointerLayout κ × Option Nat}
    (h : (do
      let pointer ← pointerAt p.atom
      let wire ← wireOf pointer p.atom
      if wire = 0 then return (pointer, none)
      else return (pointer, some (← env.address pointer.policy p wire))) = Except.ok found) :
    ∃ wire, p.atom.content = .pointer wire := by
  cases hpointer : pointerAt p.atom with
  | error e =>
    rw [hpointer] at h
    cases h
  | ok pointer =>
    rw [hpointer] at h
    cases hcontent : p.atom.content with
    | pointer wire => exact ⟨wire, rfl⟩
    | empty | raw | group | overlay | host | bits =>
      have hwire : wireOf pointer p.atom = .error (.initialization .pointerNotLoaded) := by
        rw [wireOf, hcontent]
      simp [hwire, bind, Except.bind] at h

/-- A pointer that gets its referent. -/
theorem accounts_push_referent {a b : Atom κ} {l m : Ledger κ} {wire : Bytes}
    (ha : Everywhere Shaped a) (hcontent : a.content = .pointer wire)
    (hreferent : a.referent? = none) (hb : Arrives l false b m) : Accounts a l (a.push b) m := by
  have hnil := parts_of_unfollowed hcontent hreferent
  obtain ⟨info, content, parts⟩ := a
  cases hcontent
  cases hnil
  refine ⟨rfl, everywhere_iff.2 ⟨⟨ha.here.admits, Nat.le_refl 1, ?_⟩, ?_⟩, fun h => ?_⟩
  · simpa [push] using hb.isBits
  · simpa [push] using hb.shaped
  · have hbalance := hb.balance h
    rw [tally_push]
    omega

/-- A referent comes with handles of its own. Without one, none is used. -/
theorem arrives_loadReferent (env : Env κ) (p : Place κ) (s : LoadState κ) :
    Ends (loadReferent env p) s fun result t =>
      match result with
      | .ok a => (∃ wire, p.atom.content = .pointer wire) ∧ Arrives s.ledger false a t.ledger
      | .error _ => ∀ h, t.ledger.balance h = s.ledger.balance h := by
  rw [loadReferent]
  split
  · exact Ends.pure fun _ => rfl
  · rename_i pointer hfound
    refine (LoadM.ends_spawn _ _ _ s).bind fun a t ha => ?_
    obtain ⟨-, -, -, hcame⟩ := ha
    have hshaped : Everywhere Shaped (a.mapInfo fun info => { info with null := true }) :=
      hcame.shaped.shaped_of_layout (by rw [info_mapInfo]) (content_mapInfo _ a) (parts_mapInfo _ a)
    refine Ends.pure ⟨pointer_of_found hfound, hshaped, ?_, fun h => ?_⟩
    · rw [isBits, info_mapInfo]
      exact hcame.isBits
    · rw [tally_congr (a := a) (by rw [info_mapInfo]) (by rw [parts_mapInfo])]
      exact hcame.balance h
  · rename_i pointer address hfound
    refine (LoadM.ends_spawn _ _ _ s).bind fun blank t hblank => ?_
    obtain ⟨hempty, -, -, hcame⟩ := hblank
    refine (accounted_load env Layout.nestingLimit _ _ t hempty).bind fun out u hout => ?_
    have hnew := hcame.onto hout
    split
    · exact Ends.pure ⟨pointer_of_found hfound, hnew⟩
    · refine (LoadM.ends_release out.atom u).bind fun _ v hv => Ends.pure fun h => ?_
      rw [hv, hnew.drop h]

/-- Following a pointer adds its referent to the tree, or changes nothing. -/
theorem accounts_followPointer (env : Env κ) (p : Place κ) (hp : Everywhere Shaped p.root.atom)
    (s : LoadState κ) :
    Ends (followPointer env p) s fun result t =>
      match result with
      | .ok q => Accounts p.root.atom s.ledger q.root.atom t.ledger
      | .error _ => ∀ h, t.ledger.balance h = s.ledger.balance h := by
  rw [followPointer]
  split
  · exact Ends.pure fun _ => rfl
  · exact Ends.pure (Accounts.refl hp)
  · rename_i pointer hpointer hreferent
    refine (arrives_loadReferent env p s).bind fun result t hresult => ?_
    split
    · exact Ends.pure hresult
    · obtain ⟨⟨wire, hcontent⟩, hcame⟩ := hresult
      exact Ends.pure ((accounts_push_referent (Everywhere.of_assemble hp) hcontent hreferent
        hcame).assemble hp)

theorem Balanced.renewing_dereference (hd : d.Balanced) {id : Nat} (hid : d.Live id) :
    Renewing id d (dereference id) := by
  refine (DocumentM.yields_place hid).bind fun p t ht => ?_
  obtain ⟨⟨hp, -, rfl⟩, rfl⟩ := ht
  refine DocumentM.yields_got ?_
  have hfollow := accounts_followPointer t.env p (hd.shaped_place hp)
    ⟨t.ledger, t.sources, .source t.source⟩
  refine (DocumentM.yields_ofLoad hfollow).bind fun result u hu => ?_
  obtain ⟨s, rfl, hresult⟩ := hu
  split
  · refine Yields.throw ⟨⟨hd.shaped, fun h => ?_⟩, rfl, fun _ ha _ => ha⟩
    rw [hresult h]
    exact hd.balance h
  · refine Yields.via (fun _ u => Renews p.atom.info.id t u) (Yields.modified ?_) fun _ _ hu =>
      Yields.pure hu
    exact hd.renews_accounts hp hresult

theorem Balanced.renewing_referenceAtom (hd : d.Balanced) {id target : Nat} (hid : d.Live id)
    (htarget : d.Live target) : Renewing id d (referenceAtom id target) := by
  refine (DocumentM.yields_place htarget).bind fun p t ht => ?_
  obtain ⟨-, rfl⟩ := ht
  exact hd.renewing_reference hid _

/-! ## Bytes -/

theorem Balanced.renewing_commit (hd : d.Balanced) {id : Nat} (hid : d.Live id) :
    Renewing id d (commit id) := by
  refine (DocumentM.yields_place hid).bind fun p t ht => ?_
  obtain ⟨⟨hp, -, rfl⟩, rfl⟩ := ht
  have howner := live_of_mem (mem_places_of_root p.root_byteOwner hp)
  have hrecalculated : Renewing p.atom.info.id t (recalculate p.byteOwner.atom.info.id) :=
    Yields.mono (hd.renewing_recalculate howner) (fun _ _ h => h.of_root hd hp p.root_byteOwner)
      fun _ _ h => h.of_root hd hp p.root_byteOwner
  refine hrecalculated.bind fun _ u hu => ?_
  refine Yields.via (fun _ v => v = u) ?_ fun q v hv => ?_
  · exact DocumentM.yields_got (DocumentM.yields_ofExcept (fun _ _ => rfl) fun _ _ => hu)
  subst hv
  refine DocumentM.yields_got ?_
  have hsources (w : Document κ) (hw : Renews p.atom.info.id t w) (sources : Sources) :
      Renews p.atom.info.id t { w with sources } :=
    ⟨⟨hw.balanced.shaped, hw.balanced.balance⟩, hw.handles, hw.others⟩
  refine Yields.via (fun _ w => Renews p.atom.info.id t w) ?_ fun _ w hw => ?_
  · exact DocumentM.yields_ofSources (fun _ => hsources v hu _) fun _ => hsources v hu _
  refine Yields.via (fun _ w => Renews p.atom.info.id t w) ?_ fun written x hx => ?_
  · exact DocumentM.yields_ofSources (fun _ => hsources w hw _) fun _ => hsources w hw _
  split
  · exact Yields.throw hx
  · exact Yields.pure hx

/-! ## Outermost atoms -/

/-- A new outermost atom has the handle that is given, and no extent is forced on it. -/
theorem Balanced.yields_create (hd : d.Balanced) (layout : Layout κ) (name : String)
    (offset : Nat) {failed : Error → Document κ → Prop} :
    Yields (create layout name offset) d (fun id t => t.Balanced ∧ ∃ a ∈ t.roots, a.info.id = id
      ∧ a.info.layout = .bytes layout ∧ a.info.extent? = none) failed := by
  have hspawn : Ends (LedgerM.spawn name (.bytes layout) offset) d.ledger fun a _ =>
      a.info.layout = .bytes layout ∧ a.info.extent? = none := ⟨rfl, rfl⟩
  refine (DocumentM.yields_ofLedger ((Ends.spawn name (.bytes layout) offset d.ledger).and hspawn)).bind
    fun a t ht => ?_
  obtain ⟨l, rfl, ⟨-, -, -, hcame⟩, hnew⟩ := ht
  obtain ⟨hadd, hbalanced⟩ := hd.add hcame
  refine Yields.via (fun _ u => u = ({ d with ledger := l }.add a)) (Yields.modified rfl)
    fun _ u hu => ?_
  subst hu
  refine Yields.pure ⟨hbalanced, a, ?_, rfl, hnew⟩
  rw [hadd]
  exact List.mem_cons_self

/-- An operation on a new outermost atom, which is taken back if the operation fails. -/
theorem Balanced.balancing_createWith (hd : d.Balanced) (layout : Layout κ) (name : String)
    (offset : Nat) {m : Nat → DocumentM κ Unit}
    (hm : ∀ (t : Document κ) id, t.Balanced → t.Live id → Renewing id t (m id)) :
    Balancing d (createWith layout name offset m) := by
  refine (hd.yields_create layout name offset).bind fun id t ht => ?_
  obtain ⟨hbalanced, a, ha, rfl, -⟩ := ht
  have hlive : t.Live a.info.id := live_of_mem (p := ⟨a, []⟩) (mem_places.2 ha)
  refine Yields.via (fun _ u => u.Balanced) ?_ fun _ _ hu => Yields.pure hu
  have hrun := (hm t _ hbalanced hlive).mono (fun _ _ hu => hu.balanced) fun _ _ hu => hu
  refine hrun.tryCatch fun e u hu => ?_
  have hmem : a.info.id ∈ u.roots.map fun a => a.info.id := by
    rw [hu.handles]
    exact List.mem_map_of_mem ha
  obtain ⟨b, hb, hid⟩ := List.mem_map.1 hmem
  rw [← hid]
  refine Yields.via (fun p v => p = ⟨b, []⟩ ∧ v = u) ?_ fun p v hv => ?_
  · refine DocumentM.yields_got ?_
    rw [Document.place, hu.balanced.find?_root hb]
    exact Yields.pure ⟨rfl, rfl⟩
  · obtain ⟨rfl, rfl⟩ := hv
    obtain ⟨-, -, -, -, hleft⟩ := hu.balanced.remove hb
    exact Yields.via (fun _ w => w.Balanced) (Yields.modified hleft) fun _ _ hw => Yields.throw hw

theorem Balanced.balancing_loadNew (hd : d.Balanced) (layout : Layout κ) (name : String)
    (offset : Nat) : Balancing d (loadNew layout name offset) :=
  hd.balancing_createWith layout name offset fun _ _ ht hid => ht.renewing_loadAtom hid

theorem Balanced.balancing_allocateNew (hd : d.Balanced) (layout : Layout κ) (name : String) :
    Balancing d (allocateNew layout name) :=
  hd.balancing_createWith layout name 0 fun _ _ ht hid => ht.renewing_allocateAtom hid

/-- Only outermost atoms are given up. -/
theorem Balanced.balancing_discard (hd : d.Balanced) {id : Nat} (hid : d.Live id) :
    Balancing d (discard id) := by
  refine (DocumentM.yields_place hid).bind fun p t ht => ?_
  obtain ⟨⟨hp, -, -⟩, rfl⟩ := ht
  dsimp only
  split
  · exact Yields.throw_bind hd
  · rename_i hframes
    have hroot : p.atom ∈ t.roots := by
      obtain ⟨a, frames⟩ := p
      cases frames with
      | nil => exact mem_places.1 hp
      | cons f frames => exact absurd rfl hframes
    obtain ⟨-, -, -, -, hleft⟩ := hd.remove hroot
    exact Yields.modified hleft

/-- A new outermost atom from the bytes of another. If they do not fit, it is taken back. -/
theorem Balanced.balancing_cast (hd : d.Balanced) {id : Nat} (hid : d.Live id)
    (layout : Layout κ) : Balancing d (cast id layout) := by
  refine (DocumentM.yields_place hid).bind fun p t ht => ?_
  obtain ⟨-, rfl⟩ := ht
  refine DocumentM.yields_got ?_
  refine (DocumentM.yields_ofLedger (Ends.spawn _ _ _ _)).bind fun blank u hu => ?_
  obtain ⟨l, rfl, hempty, -, -, hcame⟩ := hu
  have hload (data : Bytes) (origin : Nat) :=
    accounted_load t.env Layout.nestingLimit [] blank ⟨l, [], .ofBytes data origin⟩ hempty
  refine (DocumentM.yields_ofLedger (LedgerM.ends_fromBytes (hload _ _))).bind fun out v hv => ?_
  obtain ⟨m, rfl, hout⟩ := hv
  have hnew := hcame.onto hout
  split
  · refine Yields.via (fun _ w => w.Balanced) ⟨hd.shaped, fun h => ?_⟩ fun _ _ hw => Yields.throw hw
    show (tallies h t.roots : Int) + (m.release out.atom).balance h = 0
    rw [hnew.drop h]
    exact hd.balance h
  · exact Yields.via (fun _ w => w.Balanced) (Yields.modified (hd.add hnew).2) fun _ _ hw =>
      Yields.pure hw

theorem Balanced.balancing_copy (hd : d.Balanced) {id : Nat} (hid : d.Live id) :
    Balancing d (copy id) := by
  refine (DocumentM.yields_place hid).bind fun p t ht => ?_
  obtain ⟨-, rfl⟩ := ht
  split
  · exact hd.balancing_cast hid _
  · exact Yields.throw hd

end Document

end BinaryLayout
