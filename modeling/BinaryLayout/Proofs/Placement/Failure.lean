import BinaryLayout.Proofs.Placement.Document

/-!
# What a failed operation leaves

An operation that changes an atom may fail after it began. Then the atom may be half changed, and
what surrounds it may not have followed yet. But neither the atom nor any atom around it has moved.
Everything beside them is in order in itself, and in each atom around it the parts stand where they
should, up to the one that holds the changed atom. What may be wrong is where the later parts stand,
and how many unused bits a host around the atom has. Atoms around a pointer, and those of other
trees, are in order.

## Main definitions

* `Frame.Stalled`: what is left of the order in an atom around the changed one.
* `Place.Stalled`: the same for everything around it.

## Main statements

* `Poised.stalled`: surroundings that wait for their atom.
* `Document.stalled_of_failure`: what an operation leaves that failed.

The order may be lost after the changed atom: in `MissingCase` a text gets longer, a later field has
no layout for the new size, and the number between them stays where it was.
-/

namespace BinaryLayout

variable {κ : Type}

open Atom

/-! ## Around the changed atom -/

/-- The parts of the enclosing atom stand where they should, up to the one in the gap, and the others
are in order in themselves. -/
structure Frame.Stalled (f : Frame κ) (a : Atom κ) : Prop where
  /-- All other parts, and everything below them, stand where they should. -/
  beside : ∀ part ∈ f.left ++ f.right, Everywhere Standing part
  /-- The first field or element stands where the record or the array does. -/
  first : f.info.layout.isRun = true → ∀ b, (f.plug a).parts[0]? = some b →
    b.info.offset = f.info.offset
  /-- Up to the gap, the next one stands after the one before. -/
  next : f.info.layout.isRun = true → ∀ (i : Nat) (b c : Atom κ), i < f.left.length →
    (f.plug a).parts[i]? = some b → (f.plug a).parts[i + 1]? = some c →
      b.info.offset + b.step (f.plug a).isBits < pow2 64 →
        c.info.offset = b.info.offset + b.step (f.plug a).isBits
  /-- The members of a union stand where it does. -/
  members : f.info.layout.isUnion = true → ∀ b ∈ (f.plug a).parts, b.info.offset = f.info.offset
  /-- The root of a host stands at its first bit. -/
  root : f.info.layout.isHost = true → 8 * f.info.offset < pow2 64 →
    ∀ b ∈ (f.plug a).parts, b.info.offset = 8 * f.info.offset
  /-- Unless it is a host, the enclosing atom has as many bytes as its measure says when the one in
  the gap has. -/
  length : f.info.layout.isHost = false → (∀ order, (a.serialize order).length = a.size) →
    ∀ order, ((f.plug a).serialize order).length = (f.plug a).size

/-- Everything around the atom is in order but for what comes after it, and from a pointer on
everything is. -/
structure Place.Stalled (p : Place κ) : Prop where
  around : ∀ q ∈ p :: p.ancestors, ∀ f frames, q.frames = f :: frames → f.Stalled q.atom
  beyond : ∀ q ∈ p :: p.ancestors, ∀ f frames, q.frames = f :: frames → f.isPointer = true →
    ∀ r ∈ q.ancestors, r.atom.Standing

namespace Frame

variable {f : Frame κ} {a : Atom κ}

theorem length_serializeAll_plug (order : ByteOrder)
    (hparts : ∀ part ∈ (f.plug a).parts, (part.serialize order).length = part.size) :
    (serializeAll order (f.plug a).parts).length = sizes (f.plug a).parts := by
  generalize (f.plug a).parts = parts at hparts ⊢
  induction parts with
  | nil => rfl
  | cons part parts ih =>
    rw [List.forall_mem_cons] at hparts
    rw [serializeAll, sizes, List.length_append, hparts.1, ih hparts.2, size]

/-- Unless it is a host, an atom has as many bytes as its measure says when its parts have. -/
theorem length_serialize_plug (hhost : ∀ pad, f.content ≠ .host pad)
    (htail : f.info.layout.isBits = true → f.info.tail = []) (order : ByteOrder)
    (hparts : ∀ part ∈ (f.plug a).parts, (part.serialize order).length = part.size) :
    ((f.plug a).serialize order).length = (f.plug a).size := by
  rw [size]
  cases hbits : (f.plug a).isBits with
  | true =>
    rw [serialize_of_bits order hbits, contentSize_of_bits hbits, BitStream.length_pack, length_stream,
      info_plug, htail hbits]
    rfl
  | false =>
    rw [serialize_of_bytes order hbits, contentSize_of_bytes hbits, List.length_append, contentBytes,
      content_plug]
    cases hcontent : f.content with
    | empty | raw | overlay | pointer | bits => rfl
    | group => rw [length_serializeAll_plug order hparts]
    | host pad => exact absurd hcontent (hhost pad)

theorem isHost_of_content {pad : Bitmap} (hadmits : f.info.layout.admits f.content = true)
    (hcontent : f.content = .host pad) : f.info.layout.isHost = true := by
  rw [hcontent] at hadmits
  generalize f.info.layout = layout at hadmits ⊢
  cases layout with
  | bits layout => cases layout <;> cases hadmits
  | bytes layout => cases layout <;> first | rfl | cases hadmits

end Frame

/-- Every atom of a laid out tree of a good shape stands where it should. -/
theorem Atom.everywhere_standing {a : Atom κ} (hlaid : Everywhere LaidOut a)
    (hshaped : Everywhere Shaped a) : Everywhere Standing a := by
  refine Everywhere.deep (P := fun a => a.LaidOut ∧ a.Shaped) (fun b hb => ?_) a
    (Everywhere.and a hlaid hshaped)
  exact standing_of_laidOut (Everywhere.mono (fun _ h => h.1) b hb) hb.here.2

namespace Frame

variable {f : Frame κ} {a : Atom κ}

/-- Parts that are in order in themselves. -/
theorem beside_of_laidOut (hleft : ∀ part ∈ f.left, Everywhere LaidOut part)
    (hright : ∀ part ∈ f.right, Everywhere LaidOut part) (hshaped : Everywhere Shaped (f.plug a)) :
    ∀ part ∈ f.left ++ f.right, Everywhere Standing part := by
  intro part hpart
  obtain ⟨-, hshapedleft, -, hshapedright⟩ := everywhere_plug.1 hshaped
  rcases List.mem_append.1 hpart with hpart | hpart
  · exact everywhere_standing (hleft part hpart) (hshapedleft part hpart)
  · exact everywhere_standing (hright part hpart) (hshapedright part hpart)

/-- The bytes of an enclosing atom, by those of the atom in the gap. -/
theorem length_of_beside (hadmits : f.info.layout.admits f.content = true)
    (htail : f.info.layout.isBits = true → f.info.tail = [])
    (hbeside : ∀ part ∈ f.left ++ f.right, Everywhere Standing part)
    (hhost : f.info.layout.isHost = false) (ha : ∀ order, (a.serialize order).length = a.size)
    (order : ByteOrder) : ((f.plug a).serialize order).length = (f.plug a).size := by
  refine length_serialize_plug (fun pad hcontent => ?_) htail order ?_
  · rw [isHost_of_content hadmits hcontent] at hhost
    cases hhost
  · exact forall_mem_plug (ha order) fun part hpart => (hbeside part hpart).here.length order

/-- What waits for the atom in the gap stands where it should up to it. -/
theorem Awaits.stalled (hf : f.Awaits a.info.offset) (hshaped : Everywhere Shaped (f.plug a)) :
    f.Stalled a := by
  have hadmits : f.info.layout.admits f.content = true := hshaped.here.admits
  have hexpects := hf.expects
  have hbeside := beside_of_laidOut hf.left hf.right hshaped
  have hturn (hrun : f.info.layout.isRun = true) :
      InTurn f.info.layout.isBits f.info.offset (f.left.reverse ++ [a]) := by
    rcases AtomLayout.content_of_isRun hadmits hrun with hcontent | hcontent
    · rw [Expects, hcontent] at hexpects
      exact hexpects.elim
    · rw [Expects, hcontent] at hexpects
      exact inTurn_append.2 ⟨hexpects.1, hexpects.2, trivial⟩
  have hparts : (f.plug a).parts = (f.left.reverse ++ [a]) ++ f.right := by
    rw [parts_plug, List.append_assoc, List.singleton_append]
  refine ⟨hbeside, fun hrun b hb => ?_, fun hrun i b c hi hb hc hfits => ?_, fun hunion => ?_,
    fun hhost hfits => ?_, length_of_beside hadmits hf.tail hbeside⟩
  · have hfirst := hturn hrun
    rw [hparts] at hb
    cases hleft : f.left.reverse with
    | nil =>
      rw [hleft] at hfirst hb
      cases hb
      exact hfirst.1
    | cons part parts =>
      rw [hleft] at hfirst hb
      cases hb
      exact hfirst.1
  · rw [hparts, List.getElem?_append_left (by simp; omega)] at hb hc
    rw [InTurn.next (hturn hrun) hb hc]
    exact satAdd_of_lt hfits
  · rcases AtomLayout.content_of_isUnion hadmits hunion with hcontent | ⟨backing, hcontent⟩
    · rw [Expects, hcontent] at hexpects
      exact hexpects.elim
    · rw [Expects, hcontent] at hexpects
      exact forall_mem_plug hexpects.1 hexpects.2
  · rcases AtomLayout.content_of_isHost hadmits hhost with hcontent | ⟨pad, hcontent⟩
    · rw [Expects, hcontent] at hexpects
      exact hexpects.elim
    · rw [Expects, hcontent] at hexpects
      have hall : ∀ b ∈ (f.plug a).parts, b.info.offset = hostedAt f.info.offset :=
        forall_mem_plug hexpects.1 hexpects.2
      intro b hb
      rw [hall b hb, hostedAt]
      omega

end Frame

/-! ## Beyond a pointer -/

/-- The bytes of the two atoms are the same. -/
structure Atom.SameBytes (a b : Atom κ) : Prop where
  serialize : ∀ order, b.serialize order = a.serialize order
  stream : ∀ order, b.stream order = a.stream order

/-- An atom with another part of the same bytes. -/
theorem Atom.SameBytes.plug {f : Frame κ} {a b : Atom κ} (h : SameBytes a b) :
    SameBytes (f.plug a) (f.plug b) := by
  have hall (order : ByteOrder) :
      serializeAll order (f.plug b).parts = serializeAll order (f.plug a).parts := by
    simp [serializeAll_append, serializeAll, h.serialize]
  have hstreams (order : ByteOrder) : streams order (f.plug b).parts = streams order (f.plug a).parts := by
    simp [streams_append, streams, h.stream]
  have hstream (order : ByteOrder) : (f.plug b).stream order = (f.plug a).stream order := by
    obtain ⟨info, content, left, right⟩ := f
    cases content <;> first | rfl | exact hstreams order
  refine ⟨fun order => ?_, hstream⟩
  cases hbits : f.info.layout.isBits with
  | true =>
    have hplug (c : Atom κ) : (f.plug c).isBits = true := hbits
    rw [serialize_of_bits order (hplug b), serialize_of_bits order (hplug a), hstream]
  | false =>
    have hplug (c : Atom κ) : (f.plug c).isBits = false := hbits
    rw [serialize_of_bytes order (hplug b), serialize_of_bytes order (hplug a), contentBytes,
      contentBytes]
    simp only [Frame.content_plug, Frame.info_plug, hall, hstreams]

/-- What encloses an atom in order stands where it should with another one of the same footing and
the same bytes in its place. -/
theorem Atom.SameBytes.standing_of_mem {a b : Atom κ} {frames : List (Frame κ)} (hbytes : SameBytes a b)
    (hfooting : SameFooting a b) (ha : Everywhere LaidOut (Place.assemble a frames))
    (hb : Everywhere Shaped (Place.assemble b frames)) :
    ∀ r ∈ Place.ancestorsOf b frames, r.atom.Standing := by
  induction frames generalizing a b with
  | nil => exact fun r hr => absurd hr List.not_mem_nil
  | cons f frames ih =>
    have hlaid : Everywhere LaidOut (f.plug a) := Everywhere.of_assemble_cons ha
    have hshaped : Everywhere Shaped (f.plug b) := Everywhere.of_assemble_cons hb
    refine List.forall_mem_cons.2 ⟨?_, ih hbytes.plug hfooting.plug ha hb⟩
    refine (hfooting.laidOut_plug hlaid.here).stands hshaped.here fun order => ?_
    rw [hbytes.plug.serialize, hfooting.plug.size]
    exact length_serialize order _ hlaid

namespace Frame

variable {f : Frame κ} {a b : Atom κ}

/-- What a pointer refers to does not belong to the bytes of the pointer. -/
theorem sameBytes_of_isPointer (h : f.isPointer = true) : SameBytes (f.plug a) (f.plug b) := by
  obtain ⟨wire, hcontent⟩ := isPointer_iff.1 h
  obtain ⟨info, content, left, right⟩ := f
  cases hcontent
  refine ⟨fun order => ?_, fun order => rfl⟩
  cases hbits : info.layout.isBits <;> simp [plug, serialize, writeBits, hbits]

/-- Atoms whose content is a pointer's are no others. -/
theorem kinds_of_isPointer (h : f.isPointer = true)
    (hadmits : f.info.layout.admits f.content = true) :
    f.info.layout.isRun = false ∧ f.info.layout.isUnion = false ∧ f.info.layout.isHost = false := by
  obtain ⟨wire, hcontent⟩ := isPointer_iff.1 h
  rw [hcontent] at hadmits
  generalize f.info.layout = layout at hadmits ⊢
  cases layout with
  | bits layout => cases layout <;> cases hadmits
  | bytes layout => cases layout <;> first | exact ⟨rfl, rfl, rfl⟩ | cases hadmits

/-- A pointer with anything that it refers to. -/
theorem laidOut_of_isPointer (h : f.isPointer = true) (hb : (f.plug b).LaidOut) :
    (f.plug a).LaidOut := by
  obtain ⟨wire, hcontent⟩ := isPointer_iff.1 h
  refine ⟨?_, hb.tail, hb.wire⟩
  rw [content_plug, hcontent]
  exact trivial

end Frame

namespace Poised

variable {f : Frame κ} {frames : List (Frame κ)} {offset : Nat} {a : Atom κ}

/-- What is around a pointer is in order with some referent. -/
theorem exists_laidOut (h : Poised offset (f :: frames)) (hpointer : f.isPointer = true) :
    ∃ b, Everywhere LaidOut (Place.assemble b (f :: frames)) := by
  have hblank : (Atom.blank 0 "" (.bytes (.block 0)) 0 : Atom κ).IsBlank := rfl
  rw [Poised, if_pos hpointer] at h
  exact ⟨_, h _ hblank.laidOut⟩

/-- What is around an enclosing atom waits for it. -/
theorem outwards (h : Poised offset (f :: frames)) : Poised f.info.offset frames := by
  by_cases hpointer : f.isPointer = true
  · obtain ⟨b, hb⟩ := h.exists_laidOut hpointer
    exact poised_of_laidOut (a := f.plug b) hb
  · exact ((poised_cons hpointer).1 h).2

theorem stalled (h : Poised a.info.offset (f :: frames)) (hshaped : Everywhere Shaped (f.plug a)) :
    f.Stalled a := by
  by_cases hpointer : f.isPointer = true
  · obtain ⟨b, hb⟩ := h.exists_laidOut hpointer
    obtain ⟨hhere, hleft, -, hright⟩ := everywhere_plug.1 (Everywhere.of_assemble_cons hb)
    have hadmits : f.info.layout.admits f.content = true := hshaped.here.admits
    obtain ⟨hrun, hunion, hhost⟩ := Frame.kinds_of_isPointer hpointer hadmits
    have hbeside := Frame.beside_of_laidOut hleft hright hshaped
    refine ⟨hbeside, ?_, ?_, ?_, ?_, Frame.length_of_beside hadmits hhere.tail hbeside⟩
    · simp [hrun]
    · simp [hrun]
    · simp [hunion]
    · simp [hhost]
  · exact ((poised_cons hpointer).1 h).1.stalled hshaped

/-- A pointer and everything around it stand where they should, whatever the pointer refers to. -/
theorem beyond (h : Poised a.info.offset (f :: frames)) (hpointer : f.isPointer = true)
    (hw : Everywhere Shaped (Place.assemble a (f :: frames))) :
    ∀ r ∈ Place.ancestorsOf a (f :: frames), r.atom.Standing := by
  obtain ⟨b, hb⟩ := h.exists_laidOut hpointer
  have hlaid : Everywhere LaidOut (f.plug b) := Everywhere.of_assemble_cons hb
  have hshaped : Everywhere Shaped (f.plug a) := Everywhere.of_assemble_cons hw
  have hbytes : SameBytes (f.plug b) (f.plug a) := Frame.sameBytes_of_isPointer hpointer
  have hfooting : SameFooting (f.plug b) (f.plug a) := Frame.sameFooting_of_isPointer hpointer
  refine List.forall_mem_cons.2 ⟨?_, hbytes.standing_of_mem hfooting hb hw⟩
  refine (Frame.laidOut_of_isPointer hpointer hlaid.here).stands hshaped.here fun order => ?_
  rw [hbytes.serialize, hfooting.size]
  exact length_serialize order _ hlaid

/-- Around each enclosing atom everything waits for it. -/
theorem of_mem_ancestors (h : Poised a.info.offset frames)
    (hw : Everywhere Shaped (Place.assemble a frames)) {q : Place κ}
    (hq : q ∈ ⟨a, frames⟩ :: Place.ancestorsOf a frames) :
    Poised q.atom.info.offset q.frames ∧ Everywhere Shaped (Place.assemble q.atom q.frames) := by
  induction frames generalizing a with
  | nil =>
    obtain rfl := List.mem_singleton.1 hq
    exact ⟨h, hw⟩
  | cons f frames ih =>
    rcases List.mem_cons.1 hq with rfl | hq
    · exact ⟨h, hw⟩
    · exact ih (a := f.plug a) h.outwards hw hq

end Poised

/-- The surroundings of an atom that an edit left. -/
theorem Workplace.Waiting.stalled {s : Workplace κ} (hs : s.Waiting) : s.place.Stalled := by
  refine ⟨fun q hq f frames hframes => ?_, fun q hq f frames hframes hpointer => ?_⟩
  · obtain ⟨hpoised, hshaped⟩ := hs.poised.of_mem_ancestors hs.shaped hq
    rw [hframes] at hpoised hshaped
    exact hpoised.stalled (Everywhere.of_assemble_cons hshaped)
  · obtain ⟨hpoised, hshaped⟩ := hs.poised.of_mem_ancestors hs.shaped hq
    rw [hframes] at hpoised hshaped
    rw [Place.ancestors, hframes]
    exact hpoised.beyond hpointer hshaped

/-! ## Documents -/

/-- The atom that an operation on content changes. If a written path leads nowhere, it is the one that
the path starts from. -/
def Document.Operation.target? (d : Document κ) : Operation κ → Option Nat
  | .loadAtom id | .allocateAtom id | .assign id _ => some id
  | .assignAt id path _ =>
    match d.locate id path with
    | .ok p => some p.atom.info.id
    | .error _ => some id
  | _ => none

theorem Document.Operation.target?_of_ok {d : Document κ} {id : Nat} {path : String} (v : Value)
    {p : Place κ} (h : d.locate id path = .ok p) :
    Operation.target? d (.assignAt id path v) = some p.atom.info.id := by
  simp only [target?, h]

theorem Document.Operation.target?_of_error {d : Document κ} {id : Nat} {path : String} (v : Value)
    {e : Error} (h : d.locate id path = .error e) :
    Operation.target? d (.assignAt id path v) = some id := by
  simp only [target?, h]

namespace Document

/-- What is left in `t` of the document `d`, when an operation on the atom with a handle failed. -/
structure Stalls (d t : Document κ) (id : Nat) (p q : Place κ) : Prop where
  before : d.find? id = some p
  after : t.find? id = some q
  /-- Neither the atom nor any around it has moved. -/
  starts : q.starts = p.starts
  stalled : q.Stalled
  /-- All atoms of other trees stand where they should. -/
  others : ∀ r ∈ t.places, r.root ≠ q.root → r.atom.Standing

/-- If the computation fails, the atom with the handle and everything around it are left so. -/
def Stalling (d : Document κ) (id : Nat) (m : DocumentM κ Unit) : Prop :=
  Yields m d (fun _ _ => True) fun _ t => ∃ p q, Stalls d t id p q

variable {d : Document κ}

theorem InPlace.stands_place (hplace : d.InPlace) (hd : d.Balanced) {r : Place κ} (hr : r ∈ d.places) :
    r.atom.Standing :=
  standing_of_laidOut (hplace.place hr).of_assemble (hd.shaped_place hr).of_assemble.here

/-- A document that nothing was done to. -/
theorem Balanced.stalls_self (hd : d.Balanced) (hplace : d.InPlace) {p : Place κ} (hp : p ∈ d.places)
    {id : Nat} (hfind : d.find? id = some p) : Stalls d d id p p :=
  ⟨hfind, hfind, rfl, (hd.tidy hplace hp).ready.waiting.stalled, fun _ hr _ => hplace.stands_place hd hr⟩

/-- A place put back around which everything waits. -/
theorem Balanced.stalls_put (hd : d.Balanced) (hplace : d.InPlace) {p q : Place κ} (hp : p ∈ d.places)
    {id : Nat} (hfind : d.find? id = some p) (hid : p.atom.info.id = id) {l : Ledger κ}
    (hst : Steady ⟨d.ledger, p⟩ ⟨l, q⟩) (hq : Workplace.Waiting ⟨l, q⟩) (sources : Sources) :
    Stalls d ({ d with ledger := l, sources }.put q) id p q := by
  have hsources : Balanced { d with sources } := ⟨hd.shaped, hd.balance⟩
  have haccounts := hst.conserves.accounts
  obtain ⟨before, after, hroots, hput, hbalanced⟩ :=
    hsources.put (mem_places.1 hp) (Info.id_of_site haccounts.site) haccounts.shaped haccounts.balance
  have hmem : q ∈ ({ d with ledger := l, sources }.put q).places :=
    mem_places.2 (by rw [hput]; exact List.mem_append_right _ List.mem_cons_self)
  have hsame : q.atom.info.id = id := (congrArg (fun face => face.1) hst.conserves.face).trans hid
  refine ⟨hfind, ?_, hst.starts, hq.stalled, fun r hr hother => ?_⟩
  · obtain ⟨r, hr, hfound, hrid⟩ := find?_of_live (live_of_mem hmem)
    rw [← hsame, hfound, hbalanced.eq_of_id hr hmem hrid]
  · have hroot : r.root.atom ∈ d.roots := by
      have hold : r.root.atom ∈ before ++ q.root.atom :: after := by
        have hr := mem_places.1 hr
        rwa [hput] at hr
      simp only at hroots
      rw [hroots, List.mem_append, List.mem_cons]
      rcases List.mem_append.1 hold with hold | hold
      · exact .inl hold
      · rcases List.mem_cons.1 hold with hold | hold
        · exact absurd (congrArg (fun a => (⟨a, []⟩ : Place κ)) hold) hother
        · exact .inr (.inr hold)
    exact hplace.stands_place hd (mem_places.2 hroot)

/-! ### Operations -/

/-- Edits that leave their surroundings waiting when they fail. -/
theorem Balanced.stalling_edit (hd : d.Balanced) (hplace : d.InPlace) {id : Nat} (hid : d.Live id)
    {m : EditM κ Unit} (hm : ∀ s : Workplace κ, s.Ready → Reaches Workplace.Tidy s m) :
    Stalling d id (edit id m) := by
  refine yields_edit hid fun p hp hfind hsame => ?_
  refine (hm _ (hd.tidy hplace hp).ready).mono (fun _ _ _ => trivial) fun _ s hs => ?_
  exact ⟨p, s.place, hd.stalls_put hplace hp hfind hsame hs.1 hs.2 d.sources⟩

theorem Balanced.stalling_assign (hd : d.Balanced) (hplace : d.InPlace) {id : Nat} (hid : d.Live id)
    (v : Value) : Stalling d id (assign id v) :=
  DocumentM.yields_got <| hd.stalling_edit hplace hid fun _ hs => EditM.tidies_setValue d.env v hs

theorem Balanced.stalling_allocateAtom (hd : d.Balanced) (hplace : d.InPlace) {id : Nat}
    (hid : d.Live id) : Stalling d id (allocateAtom id) := by
  refine DocumentM.yields_got <| hd.stalling_edit hplace hid fun s hs => ?_
  exact EditM.tidies_remake hs

theorem Balanced.stalling_assignAt (hd : d.Balanced) (hplace : d.InPlace) {id target : Nat}
    (hid : d.Live id) {path : String} {v : Value}
    (htarget : Operation.target? d (.assignAt id path v) = some target) :
    Stalling d target (assignAt id path v) := by
  refine DocumentM.yields_got ?_
  refine Yields.via (fun q t => t = d ∧ d.locate id path = .ok q) ?_ fun q t ht => ?_
  · refine DocumentM.yields_ofExcept (fun q hq => ⟨rfl, hq⟩) fun e he => ?_
    rw [Operation.target?_of_error v he] at htarget
    cases htarget
    obtain ⟨p, hp, hfind, -⟩ := find?_of_live hid
    exact ⟨p, p, hd.stalls_self hplace hp hfind⟩
  · obtain ⟨rfl, hq⟩ := ht
    rw [Operation.target?_of_ok v hq] at htarget
    cases htarget
    exact hd.stalling_assign hplace (live_of_mem (mem_places_of_locate hid hq)) v

theorem Balanced.stalling_loadAtom (hd : d.Balanced) (hplace : d.InPlace) {id : Nat}
    (hid : d.Live id) : Stalling d id (loadAtom id) := by
  refine (DocumentM.yields_place hid).bind fun p t ht => ?_
  obtain ⟨⟨hp, hfind, hsame⟩, rfl⟩ := ht
  dsimp only
  split
  · exact Yields.throw_bind ⟨p, p, hd.stalls_self hplace hp hfind⟩
  · refine (DocumentM.yields_get t).bind fun e u hu => ?_
    obtain ⟨rfl, rfl⟩ := hu
    have hready : Workplace.Ready ⟨u.ledger, p⟩ := (hd.tidy hplace hp).ready
    have hload := (inOrder_load u.env Layout.nestingLimit p.frames p.atom
      ⟨u.ledger, u.sources, .source u.source⟩).and
      (accounts_load u.env Layout.nestingLimit p.frames
        (.inl (Everywhere.of_assemble hready.shaped)) ⟨u.ledger, u.sources, .source u.source⟩)
    refine (DocumentM.yields_ofLoad hload).bind fun out t ht => ?_
    obtain ⟨s, rfl, hout, haccounts⟩ := ht
    split
    · have hmade := hout (.inr hready.laid)
      have hst : Conserves ⟨u.ledger, p⟩ ⟨s.ledger, ⟨out.atom, p.frames⟩⟩ :=
        .of_atom (s := ⟨u.ledger, p⟩) hready.shaped haccounts
      have hloaded : Workplace.Ready ⟨s.ledger, ⟨out.atom, p.frames⟩⟩ :=
        hready.of_atom hst.shaped hmade.laid hmade.offset
      refine Yields.via (fun _ t => ∃ p q, Stalls u t id p q) (Yields.modified ?_) fun _ _ ht =>
        Yields.throw ht
      exact ⟨p, _, hd.stalls_put hplace hp hfind hsame (.of_atom hst hmade.offset) hloaded.waiting s.sources⟩
    · exact Yields.modified trivial

/-- If an operation that changes an atom fails, neither the atom nor any around it has moved. What is
around it is in order but for what comes after the atom, and so are the atoms of other trees. -/
theorem stalled_of_failure (hd : d.Balanced) (hplace : d.InPlace) {op : Operation κ} {id : Nat}
    (htarget : op.target? d = some id) (hlive : ∀ id ∈ op.handles, d.Live id) {e : Error}
    (hfails : (op.run.run d).1 = .error e) : ∃ p q, Stalls d (op.run.run d).2 id p q := by
  suffices hstalling : Stalling d id op.run from hstalling.of_error hfails
  have hone {id : Nat} (h : op.handles = [id]) : d.Live id :=
    hlive id (h ▸ List.mem_singleton_self id)
  cases op
  case loadAtom id =>
    cases htarget
    exact hd.stalling_loadAtom hplace (hone rfl)
  case allocateAtom id =>
    cases htarget
    exact hd.stalling_allocateAtom hplace (hone rfl)
  case assign id v =>
    cases htarget
    exact hd.stalling_assign hplace (hone rfl) v
  case assignAt id path v => exact hd.stalling_assignAt hplace (hone rfl) htarget
  all_goals cases htarget

end Document

/-! ## A size that a later field has no case for -/

namespace MissingCase

open Document

/-- The last field is a number if the text has one byte. -/
def rules : Rules Unit where
  layout _ scope := do
    let size ← scope.sizeOf "a"
    if size = 1 then
      return .int .u8
    else
      throw (.value (.noCase size))
  bitLayout _ _ := .ok (.int 1 false)
  extent _ _ := .ok 0
  update _ _ := .ok (.unsigned 0)
  accepts _ _ _ _ := true
  distance _ n := n
  toAddress _ _ _ := .ok 0
  ofAddress _ _ _ := .ok 0

/-- A text, a number, and a field whose layout goes by the size of the text. -/
def layout : Layout Unit :=
  .record "R" [⟨"a", .given (.text ⟨.ascii, .terminated⟩), none, none⟩,
    ⟨"b", .given (.int .u8), none, none⟩, ⟨"c", .computed (), none, none⟩]

def empty : Document Unit where
  env := ⟨{}, rules⟩
  sources := [.memory #[0, 0x61, 0, 0x62, 0] false 0]
  source := 0

/-- The text has no characters, so it takes one byte. -/
def loaded : Document Unit := ((Operation.loadNew layout "r" 0).run.run empty).2

/-- The text gets two characters, and the last field cannot follow. -/
def stuck : Document Unit := ((Operation.assign 1 (.text "xy")).run.run loaded).2

theorem attained_loaded : Attained loaded := by
  refine .step (.loadNew layout "r" 0) (.empty ..) (fun id hid => ?_) trivial
    (ok_of_toOption (by decide +kernel))
  cases hid

theorem live_loaded : loaded.Live 1 := by decide +kernel

/-- The assignment fails. -/
theorem fails_assign :
    ∃ e, ((Operation.assign 1 (.text "xy")).run.run loaded).1 = .error e := by
  have hnone : ((Operation.assign 1 (.text "xy")).run.run loaded).1.toOption = none := by decide +kernel
  cases hrun : ((Operation.assign 1 (.text "xy")).run.run loaded).1 with
  | ok a => rw [hrun] at hnone; cases hnone
  | error e => exact ⟨e, rfl⟩

/-- Neither the text nor the record has moved. -/
theorem stalled_of_missing_case : ∃ q, stuck.find? 1 = some q ∧ q.starts = [0, 0] ∧ q.Stalled := by
  have hstarts : (loaded.find? 1).map Place.starts = some [0, 0] := by decide +kernel
  have htarget : Operation.target? loaded (.assign 1 (.text "xy")) = some 1 := rfl
  obtain ⟨e, hfails⟩ := fails_assign
  obtain ⟨p, q, hstalls⟩ := stalled_of_failure attained_loaded.reachable.balanced
    attained_loaded.inPlace htarget (List.forall_mem_singleton.2 live_loaded) hfails
  rw [hstalls.before, Option.map_some, Option.some.injEq] at hstarts
  exact ⟨q, hstalls.after, hstalls.starts.trans hstarts, hstalls.stalled⟩

/-- The number still stands where the shorter text ended. -/
theorem not_standing_of_missing_case : Attained loaded
    ∧ (∃ e, ((Operation.assign 1 (.text "xy")).run.run loaded).1 = .error e)
    ∧ ∃ p ∈ stuck.places, p.atom.info.initialized = true ∧ ¬p.atom.Standing := by
  refine ⟨attained_loaded, fails_assign, ?_⟩
  have hshown : (stuck.find? 0).map (fun p => (p.atom.info.initialized, p.atom.info.layout.isRun,
      p.atom.isBits, p.atom.parts.map fun part => (part.info.offset, part.step false)))
      = some (true, true, false, [(0, 3), (1, 1), (2, 1)]) := by
    decide +kernel
  obtain ⟨p, hp, hfind, -⟩ := find?_of_live (show stuck.Live 0 by decide +kernel)
  rw [hfind, Option.map_some, Option.some.injEq] at hshown
  simp only [Prod.mk.injEq] at hshown
  obtain ⟨hinit, hrun, hbits, hparts⟩ := hshown
  refine ⟨p, hp, hinit, fun hstanding => ?_⟩
  have hpart (i : Nat) : (p.atom.parts[i]?).map (fun part => (part.info.offset, part.step false))
      = [(0, 3), (1, 1), (2, 1)][i]? := by
    rw [← List.getElem?_map, hparts]
  obtain ⟨a, ha, hasize⟩ := Option.map_eq_some_iff.1 (hpart 0)
  obtain ⟨b, hb, hboffset⟩ := Option.map_eq_some_iff.1 (hpart 1)
  simp only [Prod.mk.injEq] at hasize hboffset
  have hnext := hstanding.next hrun 0 a b ha hb
  rw [hbits, hasize.1, hasize.2, hboffset.1] at hnext
  exact absurd (hnext (by decide)) (by decide)

end MissingCase

end BinaryLayout
