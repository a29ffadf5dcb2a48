import BinaryLayout.Proofs.Comparison.Leaves
import BinaryLayout.Proofs.Document.Rules
import BinaryLayout.Proofs.Handles.Load
import BinaryLayout.Proofs.Naming.Load
import BinaryLayout.Proofs.RoundTrip.Fields

/-!
# What a comparison tells

Leaves do not hold everything: a container may have a tail, a union bytes that none of its members has, a host
unused bits, and what a rule makes of the same leaves may be laid out differently. Where two atoms that were
loaded as of one layout agree in that, a comparison that finds no difference means that both stand for the same
bytes.

## Main definitions

* `Atom.beside`: the pairs of atoms that stand at the same place in two trees.
* `Atom.Agrees`: two atoms agree in what no leaf holds.
* `Atom.IsLoaded`: what loading makes of a layout.

## Main statements

* `Document.isLoaded_of_loadNew`: a new atom is loaded.
* `Place.serialize_eq_of_compare`: a comparison misses nothing but what no leaf holds.
* `Missed.compare_eq_nil_of_apart`: it misses that.
-/

namespace BinaryLayout

variable {κ : Type}

open Atom

/-! ## Bytes of parts -/

/-- Streams of one length are told apart by their bytes. -/
theorem BitStream.pack_inj {order : ByteOrder} {bits bits' : List Bool} (hlength : bits.length = bits'.length)
    (h : pack order bits = pack order bits') : bits = bits' := by
  have hflat := congrArg (List.flatMap (ofByte order)) h
  rw [flatMap_pack, flatMap_pack] at hflat
  exact (List.append_inj hflat hlength).1

namespace Atom

theorem serializeAll_eq_flatten (order : ByteOrder) (as : List (Atom κ)) :
    serializeAll order as = (as.map (serialize order)).flatten := by
  induction as with
  | nil => rfl
  | cons a as ih => rw [serializeAll, ih, List.map_cons, List.flatten_cons]

theorem streams_eq_flatten (order : ByteOrder) (as : List (Atom κ)) :
    streams order as = (as.map (stream order)).flatten := by
  induction as with
  | nil => rfl
  | cons a as ih => rw [streams, ih, List.map_cons, List.flatten_cons]

/-- The same is read of the parts of two atoms, one after another. -/
theorem map_parts_eq {β : Type} {a b : Atom κ} (read : Atom κ → β) (hlength : a.parts.length = b.parts.length)
    (h : ∀ (i : Nat) part part', a.parts[i]? = some part → b.parts[i]? = some part' → read part = read part') :
    a.parts.map read = b.parts.map read := by
  refine List.ext_getElem (by rw [List.length_map, List.length_map, hlength]) fun i hi hi' => ?_
  rw [List.getElem_map, List.getElem_map]
  rw [List.length_map] at hi hi'
  exact h i _ _ (List.getElem?_eq_getElem hi) (List.getElem?_eq_getElem hi')

end Atom

/-! ## Atoms beside each other -/

/-- A rule decides. -/
def Choice.isComputed {ρ : Type} : Choice κ ρ → Bool
  | .given _ => false
  | .computed _ => true

/-- What is made of a choice twice is the same, unless a rule decides. -/
theorem Choice.eq_of_made {ρ β : Type} {make : ρ → β} {b b' : β} (choice : Choice κ ρ)
    (h : ∀ own, choice = .given own → b = make own) (h' : ∀ own, choice = .given own → b' = make own)
    (hcomputed : choice.isComputed = true → b = b') : b = b' := by
  cases choice with
  | given own => exact (h own rfl).trans (h' own rfl).symm
  | computed rule => exact hcomputed rfl

/-- The layout leaves that of the part at an index to a rule. -/
def AtomLayout.isOpenAt : AtomLayout κ → Nat → Bool
  | .bytes (.record _ fields), i => fields[i]?.any fun field => field.layout.isComputed
  | .bits (.record _ fields), i => fields[i]?.any fun field => field.layout.isComputed
  | _, _ => false

/-- The layouts are the same, or those of two blocks. -/
def AtomLayout.Alike (layout layout' : AtomLayout κ) : Prop :=
  layout = layout' ∨ ∃ m n, layout = .bytes (.block m) ∧ layout' = .bytes (.block n)

theorem AtomLayout.Alike.isBits_eq {layout layout' : AtomLayout κ} (h : layout.Alike layout') :
    layout.isBits = layout'.isBits := by
  rcases h with rfl | ⟨m, n, rfl, rfl⟩ <;> rfl

/-- The same layout declares parts of the same layout, unless a rule decides it. The last element of an array of
blocks may be cut short in one place and not in another. -/
theorem AtomLayout.Declares.alike {layout part part' : AtomLayout κ} {i : Nat} {name name' : String}
    (h : layout.Declares i (name, part)) (h' : layout.Declares i (name', part'))
    (hopen : layout.isOpenAt i = true → part = part') : part.Alike part' := by
  cases layout with
  | bytes layout =>
    cases layout with
    | record recordName fields =>
      obtain ⟨field, hfield, -, hgiven⟩ := h
      obtain ⟨field', hfield', -, hgiven'⟩ := h'
      obtain rfl : field = field' := Option.some.inj (hfield.symm.trans hfield')
      exact .inl (field.layout.eq_of_made hgiven hgiven' fun hcomputed =>
        hopen (by rwa [isOpenAt, hfield, Option.any_some]))
    | union unionName members size =>
      obtain ⟨own, hmember, rfl⟩ := h
      obtain ⟨own', hmember', rfl⟩ := h'
      obtain ⟨-, rfl⟩ := Prod.mk.inj (Option.some.inj (hmember.symm.trans hmember'))
      exact .inl rfl
    | array element shape =>
      have hblock {part : AtomLayout κ} (helement : element.isBlock = true)
          (hpart : part = .bytes element ∨ element.isBlock = true ∧ ∃ n, part = .bytes (.block n)) :
          ∃ n, part = .bytes (.block n) := by
        rcases hpart with rfl | ⟨-, hpart⟩
        · cases element with
          | block n => exact ⟨n, rfl⟩
          | _ => cases helement
        · exact hpart
      cases helement : element.isBlock with
      | true =>
        obtain ⟨m, hm⟩ := hblock helement h.2
        obtain ⟨n, hn⟩ := hblock helement h'.2
        exact .inr ⟨m, n, hm, hn⟩
      | false =>
        have hwhole {part : AtomLayout κ}
            (hpart : part = .bytes element ∨ element.isBlock = true ∧ ∃ n, part = .bytes (.block n)) :
            part = .bytes element :=
          hpart.resolve_right fun hcut => by rw [helement] at hcut; cases hcut.1
        exact .inl ((hwhole h.2).trans (hwhole h'.2).symm)
    | bits root order => exact .inl (h.2.2.trans h'.2.2.symm)
    | pointer wire target policy => exact .inl (h.2.2.trans h'.2.2.symm)
    | _ => exact h.elim
  | bits layout =>
    cases layout with
    | record recordName fields =>
      obtain ⟨field, hfield, -, hgiven⟩ := h
      obtain ⟨field', hfield', -, hgiven'⟩ := h'
      obtain rfl : field = field' := Option.some.inj (hfield.symm.trans hfield')
      exact .inl (field.layout.eq_of_made hgiven hgiven' fun hcomputed =>
        hopen (by rwa [isOpenAt, hfield, Option.any_some]))
    | array element shape => exact .inl (h.2.trans h'.2.symm)
    | int bits signed => exact h.elim

namespace Atom

mutual

/-- The pairs of atoms that stand at the same place in two trees. -/
def beside : Atom κ → Atom κ → List (Atom κ × Atom κ)
  | .node info content parts, b => (.node info content parts, b) :: besideAll parts b.parts

/-- The pairs of atoms that stand at the same place in some trees and some others. -/
def besideAll : List (Atom κ) → List (Atom κ) → List (Atom κ × Atom κ)
  | a :: as, b :: bs => beside a b ++ besideAll as bs
  | _, _ => []

end

theorem mem_beside (a b : Atom κ) : (a, b) ∈ beside a b := by
  cases a
  rw [beside]
  exact List.mem_cons_self

theorem mem_besideAll {as bs : List (Atom κ)} {i : Nat} {a b : Atom κ} (ha : as[i]? = some a)
    (hb : bs[i]? = some b) {m : Atom κ × Atom κ} (hm : m ∈ beside a b) : m ∈ besideAll as bs := by
  induction i generalizing as bs with
  | zero =>
    obtain ⟨as, rfl⟩ := List.head?_eq_some_iff.1 (List.head?_eq_getElem? ▸ ha)
    obtain ⟨bs, rfl⟩ := List.head?_eq_some_iff.1 (List.head?_eq_getElem? ▸ hb)
    rw [besideAll]
    exact List.mem_append_left _ hm
  | succ i ih =>
    cases as with
    | nil => cases ha
    | cons a as =>
      cases bs with
      | nil => cases hb
      | cons b bs =>
        rw [besideAll]
        exact List.mem_append_right _ (ih ha hb)

/-- What is beside each other in parts of the same number. -/
theorem mem_beside_of_part {a b part part' : Atom κ} {i : Nat} (hpart : a.parts[i]? = some part)
    (hpart' : b.parts[i]? = some part') {m : Atom κ × Atom κ} (hm : m ∈ beside part part') : m ∈ beside a b := by
  obtain ⟨info, content, parts⟩ := a
  rw [beside]
  exact List.mem_cons_of_mem _ (mem_besideAll hpart hpart' hm)

/-- Two atoms agree in what no leaf holds: their tails, the unused bits of hosts, the bytes of unions that none
of their members has, and the layouts that rules gave to their fields. -/
structure Agrees (order : ByteOrder) (a b : Atom κ) : Prop where
  tail : a.info.tail = b.info.tail
  pad : ∀ pad pad', a.content = .host pad → b.content = .host pad' → pad = pad'
  backing : ∀ bytes bytes', a.content = .overlay bytes → b.content = .overlay bytes' → ∀ k : Nat,
    bytes[k]? = bytes'[k]? ∨ ∃ (i : Nat) (part part' : Atom κ), a.parts[i]? = some part ∧ b.parts[i]? = some part'
      ∧ (serialize order part)[k]? = bytes[k]? ∧ (serialize order part')[k]? = bytes'[k]?
  layouts : ∀ i part part', a.info.layout.isOpenAt i = true → a.parts[i]? = some part →
    b.parts[i]? = some part' → part.info.layout = part'.info.layout

/-- Wherever two trees go on beside each other, they agree in what no leaf holds. -/
def AgreeThroughout (order : ByteOrder) (a b : Atom κ) : Prop :=
  ∀ m ∈ beside a b, m.1.parts ≠ [] → m.2.parts ≠ [] → m.1.Agrees order m.2
/-- Atoms that hold the same, and whose layouts leave nothing to rules. -/
theorem Agrees.of_content {order : ByteOrder} {a b : Atom κ} (hcontent : a.content = b.content)
    (htail : a.info.tail = b.info.tail)
    (hgiven : ∀ i < a.parts.length, a.info.layout.isOpenAt i = false) : a.Agrees order b := by
  refine ⟨htail, fun pad pad' ha hb => ?_, fun bytes bytes' ha hb k => .inl ?_, fun i part part' hopen hpart _ => ?_⟩
  · exact Content.host.inj (ha.symm.trans (hcontent.trans hb))
  · rw [Content.overlay.inj (ha.symm.trans (hcontent.trans hb))]
  · rw [hgiven i (List.getElem?_eq_some_iff.1 hpart).1] at hopen
    cases hopen

/-- What an atom holds that has parts, by its layout. -/
theorem Shaped.content_of_parts {a : Atom κ} (h : a.Shaped) (hparts : a.parts ≠ []) :
    match a.info.layout with
    | .bytes (.union ..) => ∃ backing, a.content = .overlay backing
    | .bytes (.bits ..) => ∃ pad, a.content = .host pad
    | .bytes (.pointer ..) => ∃ wire, a.content = .pointer wire
    | _ => a.content = .group := by
  have hadmits := h.admits
  have hholds := h.holds
  generalize a.info.layout = layout at hadmits ⊢
  cases hcontent : a.content with
  | empty | raw | bits =>
    rw [hcontent] at hholds
    exact absurd hholds hparts
  | _ =>
    rw [hcontent] at hadmits
    rcases layout with layout | layout <;> cases layout <;> first | exact rfl | exact ⟨_, rfl⟩ | cases hadmits

/-- Only a host of bits has a part measured in bits that is none itself. -/
theorem Shaped.host_of_bits {a part : Atom κ} (h : a.Shaped) (hbytes : a.isBits = false) (hpart : part ∈ a.parts)
    (hbits : part.isBits = true) : ∃ root order, a.info.layout = .bytes (.bits root order) := by
  have hadmits := h.admits
  have hholds := h.holds
  cases hcontent : a.content with
  | empty | raw | bits =>
    rw [hcontent] at hholds
    have hnil : a.parts = [] := hholds
    rw [hnil] at hpart
    cases hpart
  | group =>
    rw [hcontent] at hholds
    exact absurd (hbits.symm.trans ((hholds part hpart).trans hbytes)) (by decide)
  | overlay =>
    rw [hcontent] at hholds
    exact absurd (hbits.symm.trans (hholds part hpart)) (by decide)
  | pointer =>
    rw [hcontent] at hholds
    exact absurd (hbits.symm.trans (hholds.2 part hpart)) (by decide)
  | host pad =>
    rw [hcontent] at hadmits
    generalize a.info.layout = layout at hadmits
    rcases layout with layout | layout <;> cases layout <;> first | exact ⟨_, _, rfl⟩ | cases hadmits

end Atom
namespace Place

variable {p q : Place κ} {i : Nat} {standard : ByteOrder}

/-- Two atoms at the same place in trees of the same layout. -/
structure Twins (standard : ByteOrder) (p q : Place κ) : Prop where
  left : Everywhere Plotted p.atom
  right : Everywhere Plotted q.atom
  layout : p.atom.info.layout.Alike q.atom.info.layout
  order : p.atom.isBits = true → p.bitOrder standard = q.bitOrder standard
  agrees : p.atom.AgreeThroughout standard q.atom
namespace Twins

/-- Blocks have no parts. -/
theorem layout_eq (h : Twins standard p q) (hparts : p.atom.parts ≠ []) :
    p.atom.info.layout = q.atom.info.layout := by
  refine h.layout.resolve_right fun ⟨m, n, hp, hq⟩ => hparts ?_
  exact List.length_eq_zero_iff.1 (h.left.here.whole 0 (hp ▸ rfl))

/-- The layout or the leaves tell how many parts there are. -/
theorem length_eq (h : Twins standard p q) (hmatches : Matches standard p q) :
    p.atom.parts.length = q.atom.parts.length := by
  rcases h.layout with hlayout | ⟨m, n, hp, hq⟩
  · cases hcount : p.atom.info.layout.partCount? with
    | some count => rw [h.left.here.whole count hcount, h.right.here.whole count (hlayout ▸ hcount)]
    | none =>
      have harray : p.atom.info.layout.isArray = true := by
        generalize p.atom.info.layout = layout at hcount
        rcases layout with layout | layout <;> cases layout <;> first | rfl | cases hcount
      refine Nat.le_antisymm (Matches.length_le h.left h.right hlayout harray fun x hx => ?_)
        (Matches.length_le h.right h.left hlayout.symm (hlayout ▸ harray) fun y hy => ?_)
      · obtain ⟨y, hy, htext, -⟩ := hmatches.forth x hx
        exact ⟨y, hy, htext⟩
      · obtain ⟨x, hx, htext⟩ := hmatches.back y hy
        exact ⟨x, hx, htext.symm⟩
  · rw [h.left.here.whole 0 (hp ▸ rfl), h.right.here.whole 0 (hq ▸ rfl)]

theorem parts_eq_nil_iff (h : Twins standard p q) (hmatches : Matches standard p q) :
    p.atom.parts = [] ↔ q.atom.parts = [] := by
  rw [← List.length_eq_zero_iff, h.length_eq hmatches, List.length_eq_zero_iff]

end Twins

/-- Bits are packed as around them. -/
theorem bitOrder_of_part (hq : q ∈ p.parts) (hbits : q.atom.isBits = true) :
    q.bitOrder standard = p.bitOrder standard := by
  have hnone : q.atom.info.layout.bitOrder? = none := by
    rw [isBits] at hbits
    generalize q.atom.info.layout = layout at hbits
    cases layout with
    | bytes layout => cases hbits
    | bits layout => rfl
  obtain ⟨before, after, -, hframes⟩ := mem_partsAmong.1 hq
  rw [bitOrder, bitOrder, hnone, hframes, List.findSome?_cons]
  dsimp only
  cases p.atom.info.layout.bitOrder? <;> rfl

/-- A host packs its bits in its own order. -/
theorem bitOrder_of_host {order : ByteOrder} (h : p.atom.info.layout.bitOrder? = some order) :
    p.bitOrder standard = order := by
  rw [bitOrder, h]
  rfl

section Part

variable {p' q' : Place κ}

/-- Parts of the same number. -/
theorem Twins.part (h : Twins standard p q) (hp : p.down? i = some p') (hq : q.down? i = some q') :
    Twins standard p' q' := by
  have hp' := mem_parts.2 (up?_down? hp)
  have hq' := mem_parts.2 (up?_down? hq)
  have hpart := part_of_down? hp
  have hpart' := part_of_down? hq
  have hparts : p.atom.parts ≠ [] := List.ne_nil_of_mem (mem_parts_atom hp')
  have hparts' : q.atom.parts ≠ [] := List.ne_nil_of_mem (mem_parts_atom hq')
  have hlayout := h.layout_eq hparts
  have hhere := h.agrees _ (mem_beside _ _) hparts hparts'
  have halike : p'.atom.info.layout.Alike q'.atom.info.layout := by
    have hdeclares := h.left.here.conforms.declares hpart
    have hdeclares' := h.right.here.conforms.declares hpart'
    rw [← hlayout] at hdeclares'
    exact AtomLayout.Declares.alike hdeclares hdeclares' fun hopen => hhere.layouts i _ _ hopen hpart hpart'
  refine ⟨h.left.part (mem_parts_atom hp'), h.right.part (mem_parts_atom hq'), halike, fun hbits => ?_,
    fun m hm => h.agrees m (mem_beside_of_part hpart hpart' hm)⟩
  rw [bitOrder_of_part hp' hbits, bitOrder_of_part hq' (halike.isBits_eq.symm.trans hbits)]
  cases hkind : p.atom.isBits with
  | true => exact h.order hkind
  | false =>
    obtain ⟨root, order, hhost⟩ := h.left.here.shaped.host_of_bits hkind (mem_parts_atom hp') hbits
    rw [bitOrder_of_host (by rw [hhost]; rfl), bitOrder_of_host (by rw [← hlayout, hhost]; rfl)]

theorem Matches.part (h : Matches standard p q) (ht : Twins standard p q) (hp : p.down? i = some p')
    (hq : q.down? i = some q') : Matches standard p' q' := by
  have hp' := mem_parts.2 (up?_down? hp)
  have hq' := mem_parts.2 (up?_down? hq)
  have hparts : p.atom.parts ≠ [] := List.ne_nil_of_mem (mem_parts_atom hp')
  have hparts' : q.atom.parts ≠ [] := List.ne_nil_of_mem (mem_parts_atom hq')
  have hlayout := ht.layout_eq hparts
  -- Leaves of the same path are in parts of the same number.
  have hinner {p'' q'' x y : Place κ} (hp'' : p'' ∈ p.parts) (hq'' : q'' ∈ q.parts) (hx : x ∈ p''.leaves)
      (hy : y ∈ q''.leaves) (htext : (p.inside x).text = (q.inside y).text) :
      ∃ j, p.down? j = some p'' ∧ q.down? j = some q'' ∧ (p''.inside x).text = (q''.inside y).text := by
    obtain ⟨j, hpart, hdown⟩ := down?_of_mem_parts hp''
    obtain ⟨k, hpart', hdown'⟩ := down?_of_mem_parts hq''
    have hmarks' := ht.right.here.marks hpart'
    rw [← hlayout] at hmarks'
    rw [text_inside hp'' (mem_leaves.1 hx).1, text_inside hq'' (mem_leaves.1 hy).1] at htext
    obtain ⟨rfl, hsame⟩ := (ht.left.here.marks hpart).join_inj hmarks' ht.left.here.legible htext
    exact ⟨j, hdown, hdown', hsame⟩
  have hindex {r r' : Place κ} {j k : Nat} (hj : r.down? j = some r') (hk : r.down? k = some r') : j = k := by
    obtain ⟨f, hf, -, hleft⟩ := frames_of_down? hj
    obtain ⟨g, hg, -, hleft'⟩ := frames_of_down? hk
    obtain rfl : f = g := (List.cons.inj (hf.symm.trans hg)).1
    exact hleft.symm.trans hleft'
  constructor
  · intro x hx
    obtain ⟨y, hy, htext, hbytes⟩ := h.forth x (mem_leaves_of_part hp' hx)
    obtain ⟨q'', hq'', hy⟩ := (leaf_cases hy).resolve_left fun hleaf => hparts' hleaf.2
    obtain ⟨j, hj, hj', hsame⟩ := hinner hp' hq'' hx hy htext
    obtain rfl := hindex hj hp
    obtain rfl : q'' = q' := Option.some.inj (hj'.symm.trans hq)
    exact ⟨y, hy, hsame, hbytes⟩
  · intro y hy
    obtain ⟨x, hx, htext⟩ := h.back y (mem_leaves_of_part hq' hy)
    obtain ⟨p'', hp'', hx⟩ := (leaf_cases hx).resolve_left fun hleaf => hparts hleaf.2
    obtain ⟨j, hj, hj', hsame⟩ := hinner hp'' hq' hx hy htext
    obtain rfl := hindex hj' hq
    obtain rfl : p'' = p' := Option.some.inj (hj.symm.trans hp)
    exact ⟨x, hx, hsame⟩

end Part

/-! ## Bytes -/

/-- Leaves that match. -/
theorem Twins.bytes_of_leaf (h : Twins standard p q) (hmatches : Matches standard p q) (hparts : p.atom.parts = []) :
    p.serialize standard = q.serialize standard := by
  obtain ⟨y, hy, -, hbytes⟩ := hmatches.forth p (self_mem_leaves hparts)
  have hparts' := (h.parts_eq_nil_iff hmatches).1 hparts
  rcases leaf_cases hy with ⟨rfl, -⟩ | ⟨q', hq', -⟩
  · exact hbytes
  · have hmem := mem_parts_atom hq'
    rw [hparts'] at hmem
    cases hmem

/-- Two atoms of bits without parts are of the same width. -/
theorem Twins.bitCount_eq (h : Twins standard p q) (hparts : p.atom.parts = []) (hparts' : q.atom.parts = [])
    (hbits : p.atom.isBits = true) : p.atom.bitCount = q.atom.bitCount := by
  have hlayout : p.atom.info.layout = q.atom.info.layout := by
    refine h.layout.resolve_right fun ⟨m, n, hp, hq⟩ => ?_
    rw [isBits, hp] at hbits
    cases hbits
  have hnone {a : Atom κ} (ha : a.Shaped) (hnil : a.parts = [])
      (hint : ∀ bits signed, a.info.layout ≠ .bits (.int bits signed)) : a.bitCount = 0 := by
    obtain ⟨info, content, parts⟩ := a
    obtain rfl : parts = [] := hnil
    cases content with
    | bits value =>
      have hadmits := ha.admits
      rw [info_node, content_node] at hadmits
      rw [info_node] at hint
      generalize info.layout = layout at hadmits hint
      rcases layout with layout | layout <;> cases layout <;> first | exact absurd rfl (hint _ _) | cases hadmits
    | _ => rfl
  by_cases hint : ∃ bits signed, p.atom.info.layout = .bits (.int bits signed)
  · obtain ⟨bits, signed, hint⟩ := hint
    rw [h.left.here.predicted.width _ bits hint rfl, h.right.here.predicted.width _ bits (hlayout ▸ hint) rfl]
  · have hfree : ∀ bits signed, p.atom.info.layout ≠ .bits (.int bits signed) :=
      fun bits signed heq => hint ⟨bits, signed, heq⟩
    rw [hnone h.left.here.shaped hparts hfree, hnone h.right.here.shaped hparts' (hlayout ▸ hfree)]

/-- What is known of parts of the same number. -/
def SameParts (standard : ByteOrder) (p q : Place κ) : Prop :=
  ∀ (i : Nat) (part part' : Atom κ), p.atom.parts[i]? = some part → q.atom.parts[i]? = some part' →
    (part.isBits = false → Atom.serialize standard part = Atom.serialize standard part')
      ∧ (part.isBits = true → Atom.stream (p.bitOrder standard) part = Atom.stream (p.bitOrder standard) part')

/-- The same bytes, or the same bits. -/
def Same (standard : ByteOrder) (p q : Place κ) : Prop :=
  (p.atom.isBits = false → Atom.serialize standard p.atom = Atom.serialize standard q.atom)
    ∧ (p.atom.isBits = true →
      Atom.stream (p.bitOrder standard) p.atom = Atom.stream (p.bitOrder standard) q.atom)

theorem Twins.same_of_leaf (h : Twins standard p q) (hmatches : Matches standard p q) (hparts : p.atom.parts = []) :
    Same standard p q := by
  have hparts' := (h.parts_eq_nil_iff hmatches).1 hparts
  have hkinds := h.layout.isBits_eq
  have hbytes := h.bytes_of_leaf hmatches hparts
  rw [serialize, serialize] at hbytes
  constructor
  · intro hkind
    rwa [serialize_eq _ standard (Everywhere.mono (fun _ ha => ha.shaped) _ h.left) hkind,
      serialize_eq _ standard (Everywhere.mono (fun _ ha => ha.shaped) _ h.right) (hkinds.symm.trans hkind)] at hbytes
  · intro hkind
    rw [← h.order hkind, serialize_of_bits _ hkind, serialize_of_bits _ (hkinds.symm.trans hkind)] at hbytes
    refine BitStream.pack_inj ?_ hbytes
    rw [length_stream, length_stream, h.bitCount_eq hparts hparts' hkind]

section Contents

variable {a b : Atom κ}

/-- What parts stand for, one after another. -/
theorem contentBytes_eq_of_group (hp : a.content = .group) (hq : b.content = .group)
    (h : a.parts.map (Atom.serialize standard) = b.parts.map (Atom.serialize standard)) :
    a.contentBytes standard = b.contentBytes standard := by
  rw [contentBytes, contentBytes, hp, hq]
  show serializeAll standard a.parts = serializeAll standard b.parts
  rw [serializeAll_eq_flatten, serializeAll_eq_flatten, h]

/-- Bytes that members share are those of a member, or they agree. -/
theorem contentBytes_eq_of_overlay {backing backing' : Bytes} (hp : a.content = .overlay backing)
    (hq : b.content = .overlay backing') (hagrees : a.Agrees standard b)
    (h : ∀ (i : Nat) (part part' : Atom κ), a.parts[i]? = some part → b.parts[i]? = some part' →
      Atom.serialize standard part = Atom.serialize standard part') :
    a.contentBytes standard = b.contentBytes standard := by
  rw [contentBytes, contentBytes, hp, hq]
  refine List.ext_getElem? fun k => ?_
  rcases hagrees.backing backing backing' hp hq k with heq | ⟨i, part, part', hpart, hpart', hk, hk'⟩
  · exact heq
  · rw [← hk, ← hk', h i part part' hpart hpart']

/-- The bits of a host, and those that it does not use. -/
theorem contentBytes_eq_of_host {pad pad' : Bitmap} {root : BitLayout κ} {order : ByteOrder}
    (hp : a.content = .host pad) (hq : b.content = .host pad') (hlayout : a.info.layout = .bytes (.bits root order))
    (hsame : a.info.layout = b.info.layout) (hagrees : a.Agrees standard b)
    (h : a.parts.map (Atom.stream order) = b.parts.map (Atom.stream order)) :
    a.contentBytes standard = b.contentBytes standard := by
  rw [contentBytes, contentBytes, hp, hq, ← hsame, hlayout, hagrees.pad pad pad' hp hq]
  show BitStream.pack order (BitStream.close order (streams order a.parts) pad')
    = BitStream.pack order (BitStream.close order (streams order b.parts) pad')
  rw [streams_eq_flatten, streams_eq_flatten, h]

end Contents

/-- What atoms of bytes hold, when their parts stand for the same. -/
theorem Twins.contentBytes_eq (h : Twins standard p q) (hmatches : Matches standard p q)
    (hparts : p.atom.parts ≠ []) (hkind : p.atom.isBits = false) (hsame : SameParts standard p q) :
    p.atom.contentBytes standard = q.atom.contentBytes standard := by
  have hlength := h.length_eq hmatches
  have hlayout := h.layout_eq hparts
  have hagrees := h.agrees _ (mem_beside _ _) hparts (mt (h.parts_eq_nil_iff hmatches).2 hparts)
  have hcontent := h.left.here.shaped.content_of_parts hparts
  have hcontent' := h.right.here.shaped.content_of_parts (mt (h.parts_eq_nil_iff hmatches).2 hparts)
  have hholds := h.left.here.shaped.holds
  rw [← hlayout] at hcontent'
  have hgroup (hp : p.atom.content = .group) (hq : q.atom.content = .group) :
      p.atom.contentBytes standard = q.atom.contentBytes standard := by
    rw [hp] at hholds
    exact contentBytes_eq_of_group hp hq (map_parts_eq _ hlength fun i part part' hpart hpart' =>
      (hsame i part part' hpart hpart').1 ((hholds part (List.mem_of_getElem? hpart)).trans hkind))
  cases hl : p.atom.info.layout with
  | bits layout =>
    rw [isBits, hl] at hkind
    cases hkind
  | bytes layout =>
    rw [hl] at hcontent hcontent'
    cases layout with
    | union name members size =>
      obtain ⟨backing, hp⟩ := hcontent
      obtain ⟨backing', hq⟩ := hcontent'
      rw [hp] at hholds
      exact contentBytes_eq_of_overlay hp hq hagrees fun i part part' hpart hpart' =>
        (hsame i part part' hpart hpart').1 (hholds part (List.mem_of_getElem? hpart))
    | bits root order =>
      obtain ⟨pad, hp⟩ := hcontent
      obtain ⟨pad', hq⟩ := hcontent'
      rw [hp] at hholds
      obtain ⟨only, honly, hbits⟩ := hholds
      have horder : p.bitOrder standard = order := bitOrder_of_host (by rw [hl]; rfl)
      refine contentBytes_eq_of_host hp hq hl hlayout hagrees (map_parts_eq _ hlength fun i part part' hpart hpart' => ?_)
      have hmem := List.mem_of_getElem? hpart
      rw [honly, List.mem_singleton] at hmem
      exact horder ▸ (hsame i part part' hpart hpart').2 (hmem ▸ hbits)
    | pointer wire target policy =>
      exact absurd (List.length_eq_zero_iff.1 (h.left.here.whole 0 (hl ▸ rfl))) hparts
    | _ => exact hgroup hcontent hcontent'

theorem Twins.same_of_parts (h : Twins standard p q) (hmatches : Matches standard p q)
    (hparts : p.atom.parts ≠ []) (hsame : SameParts standard p q) : Same standard p q := by
  have hparts' := mt (h.parts_eq_nil_iff hmatches).2 hparts
  have hlength := h.length_eq hmatches
  have hkinds := h.layout.isBits_eq
  constructor
  · intro hkind
    rw [serialize_of_bytes _ hkind, serialize_of_bytes _ (hkinds.symm.trans hkind),
      (h.agrees _ (mem_beside _ _) hparts hparts').tail, h.contentBytes_eq hmatches hparts hkind hsame]
  · intro hkind
    have hpart := (h.left.here.shaped.of_isBits hkind).2
    have hbits := map_parts_eq (Atom.stream (p.bitOrder standard)) hlength fun i part part' hpart' hpart'' =>
      (hsame i part part' hpart' hpart'').2 (hpart part (List.mem_of_getElem? hpart'))
    have hgroup {a : Atom κ} (ha : a.Shaped) (hne : a.parts ≠ []) (hkind : a.isBits = true) (order : ByteOrder) :
        Atom.stream order a = (a.parts.map (Atom.stream order)).flatten := by
      have hcontent := ha.content_of_parts hne
      rw [← streams_eq_flatten]
      obtain ⟨info, content, parts⟩ := a
      cases hl : info.layout with
      | bytes layout =>
        rw [isBits, info_node, hl] at hkind
        cases hkind
      | bits layout =>
        rw [info_node, hl] at hcontent
        obtain rfl : content = .group := hcontent
        rfl
    rw [hgroup h.left.here.shaped hparts hkind, hbits,
      hgroup h.right.here.shaped hparts' (hkinds.symm.trans hkind)]

/-- Where leaves match, atoms of bytes stand for the same bytes, and atoms of bits for the same bits. -/
theorem Twins.same (h : Twins standard p q) (hmatches : Matches standard p q) : Same standard p q := by
  induction p using induction_parts generalizing q with
  | h p ih =>
    by_cases hparts : p.atom.parts = []
    · exact h.same_of_leaf hmatches hparts
    · refine h.same_of_parts hmatches hparts fun i part part' hpart hpart' => ?_
      obtain ⟨p', hdown, rfl⟩ := down?_of_part hpart
      obtain ⟨q', hdown', rfl⟩ := down?_of_part hpart'
      have hp' := mem_parts.2 (up?_down? hdown)
      obtain ⟨hbytes, hstream⟩ := ih p' hp' (h.part hdown hdown') (hmatches.part h hdown hdown')
      refine ⟨hbytes, fun hbits => ?_⟩
      have hstream := hstream hbits
      rwa [bitOrder_of_part hp' hbits] at hstream

end Place

/-! ## Atoms that were loaded -/

/-- What loading to the end makes of a layout, wherever that is and whatever is read. -/
def Atom.IsLoaded (layout : Layout κ) (a : Atom κ) : Prop :=
  ∃ env depth frames blank s, blank.info.layout = .bytes layout ∧ (load env depth frames blank s).1 = ⟨a, none⟩

namespace Atom.IsLoaded

variable {layout : Layout κ} {a : Atom κ}

/-- Nothing is loaded without room for it. -/
theorem starts (h : a.IsLoaded layout) : ∃ env depth frames blank s, 0 < depth ∧ blank.isBits = false
    ∧ blank.info.layout = .bytes layout ∧ (load env depth frames blank s).1 = ⟨a, none⟩ := by
  obtain ⟨env, depth, frames, blank, s, hlayout, hload⟩ := h
  refine ⟨env, depth, frames, blank, s, Nat.pos_of_ne_zero fun hzero => ?_, ?_, hlayout, hload⟩
  · subst hzero
    cases congrArg Outcome.error? hload
  · rw [isBits, hlayout]
    rfl

theorem suits (h : a.IsLoaded layout) : Everywhere Conforms a ∧ a.info.layout = .bytes layout := by
  obtain ⟨env, depth, frames, blank, s, hdepth, hbytes, hlayout, hload⟩ := h.starts
  have hsuits : (load env depth frames blank s).1.atom.Suits blank.info.label :=
    suits_load env depth frames (.inr ⟨hdepth, hbytes⟩) s
  rw [hload] at hsuits
  exact ⟨hsuits.conforms, (congrArg Prod.snd hsuits.label).trans hlayout⟩

/-- An atom that was loaded, when its members can be told apart. -/
theorem plotted (h : a.IsLoaded layout) (hlegible : Everywhere (fun a => a.info.layout.Legible) a) :
    Everywhere Plotted a := by
  obtain ⟨env, depth, frames, blank, s, hdepth, hbytes, -, hload⟩ := h.starts
  have haccounts : Accounts blank s.ledger (load env depth frames blank s).1.atom _ :=
    accounts_load env depth frames (.inr ⟨hdepth, hbytes⟩) s
  have hwhole : (load env depth frames blank s).1.Whole := whole_load env depth frames blank s
  have hpredicted : (load env depth frames blank s).1.error? = none → _ :=
    predicted_load env depth frames blank s
  rw [hload] at haccounts hwhole hpredicted
  have hknown := ((Everywhere.and _ h.suits.1 haccounts.shaped).and _ ((hwhole rfl).and _ (hpredicted rfl).2)).and _
    hlegible
  exact Everywhere.mono (fun b hb => ⟨hb.1.1.1, hb.1.1.2, hb.1.2.1, hb.1.2.2, hb.2⟩) a hknown

end Atom.IsLoaded

/-- A comparison misses nothing but what no leaf holds. -/
theorem Place.serialize_eq_of_compare {standard : ByteOrder} {layout : Layout κ} {p q : Place κ}
    (hp : p.atom.IsLoaded layout) (hq : q.atom.IsLoaded layout)
    (hlegible : Everywhere (fun a => a.info.layout.Legible) p.atom)
    (hlegible' : Everywhere (fun a => a.info.layout.Legible) q.atom)
    (hagree : p.atom.AgreeThroughout standard q.atom) (h : p.compare standard q = []) :
    p.serialize standard = q.serialize standard := by
  have hleft := hp.plotted hlegible
  have hright := hq.plotted hlegible'
  have hbytes {r : Place κ} (hr : r.atom.IsLoaded layout) : r.atom.isBits = false := by
    rw [isBits, hr.suits.2]
    rfl
  have htwins : Twins standard p q :=
    ⟨hleft, hright, .inl (hp.suits.2.trans hq.suits.2.symm), fun hbits => absurd hbits (by rw [hbytes hp]; decide),
      hagree⟩
  have hsame := (htwins.same (matches_of_compare hleft hright h)).1 (hbytes hp)
  rwa [serialize, serialize, serialize_eq _ standard (Everywhere.mono (fun _ ha => ha.shaped) _ hleft) (hbytes hp),
    serialize_eq _ standard (Everywhere.mono (fun _ ha => ha.shaped) _ hright) (hbytes hq)]

/-- A new outermost atom is loaded. -/
theorem Document.isLoaded_of_loadNew {d t : Document κ} {layout : Layout κ} {name : String} {offset id : Nat}
    (hrun : (loadNew layout name offset).run d = (.ok id, t)) : ∃ a ∈ t.roots.head?, a.info.id = id ∧ a.IsLoaded layout := by
  obtain ⟨out, s, others, hload, herror, hid, hroots, -⟩ := (yields_loadNew_next d layout name offset).of_ok hrun
  refine ⟨out.atom, by rw [hroots]; rfl, hid, ?_⟩
  exact ⟨_, _, _, d.next layout name offset, _, rfl, by rw [hload, ← herror]⟩

/-! ## What no leaf holds -/

namespace Missed

open Document

def byte (name : String) : Field Unit (Layout Unit) := ⟨name, .given (.int .u8), none, none⟩

/-- A field with room takes two bytes, and a pair is the other way round when it is not at the start. -/
def rules : Rules Unit where
  layout _ scope := .ok (.record "P" (if scope.container.atom.info.offset = 0 then [byte "a", byte "b"]
    else [byte "b", byte "a"]))
  bitLayout _ _ := .ok (.int 1 false)
  extent _ _ := .ok 2
  update _ _ := .ok (.unsigned 0)
  accepts _ _ _ _ := true
  distance _ n := n
  toAddress _ _ _ := .ok 0
  ofAddress _ _ _ := .ok 0

def source (data : Array UInt8) : Document Unit where
  env := ⟨{}, rules⟩
  sources := [.memory data false 0]
  source := 0

/-- What is loaded from bytes, at an offset. -/
def loaded (layout : Layout Unit) (data : Array UInt8) (offset : Nat) : Document Unit :=
  ((loadNew layout "r" offset).run (source data)).2

def roomy : Layout Unit := .record "R" [⟨"s", .given (.record "S" [byte "x"]), some (), none⟩]

def half : Layout Unit := .bits (.int 4 false) .big

/-- A union whose only member does not have all its bytes. -/
def wide : Layout Unit := .union "U" [("m", .int .u8)] 2

/-- A record with two fields of the same path. -/
def ambiguous : Layout Unit := .record "R" [byte "a.b", ⟨"a", .given (.record "A" [byte "b"]), none, none⟩]

def chosen : Layout Unit := .record "R" [⟨"c", .computed (), none, none⟩]

def clear : Layout Unit :=
  .record "R" [byte "n", ⟨"s", .given roomy, none, none⟩, ⟨"h", .given half, none, none⟩,
    ⟨"u", .given wide, none, none⟩, ⟨"a", .given (.array (.block 2) (.block 3)), none, none⟩]

def twice : Array UInt8 := #[7, 1, 2, 0x3F, 4, 5, 6, 8, 9, 7, 1, 2, 0x3F, 4, 5, 6, 8, 9]

/-- What is loaded from both halves of some bytes. -/
theorem loaded_of_halves (layout : Layout Unit) (data : Array UInt8) (shown : Atom Unit → Atom Unit → Bool)
    (h : (loaded layout data 0).roots.head?.any (fun a =>
      (loaded layout data (data.size / 2)).roots.head?.any fun b => shown a b) = true)
    (hfirst : ((loadNew layout "r" 0).run (source data)).1.toOption = some 0)
    (hsecond : ((loadNew layout "r" (data.size / 2)).run (source data)).1.toOption = some 0) :
    ∃ a ∈ (loaded layout data 0).roots, ∃ b ∈ (loaded layout data (data.size / 2)).roots,
      a.IsLoaded layout ∧ b.IsLoaded layout ∧ shown a b = true := by
  obtain ⟨a, ha, -, hloaded⟩ := isLoaded_of_loadNew (run_of_toOption hfirst)
  obtain ⟨b, hb, -, hloaded'⟩ := isLoaded_of_loadNew (run_of_toOption hsecond)
  have ha : (loaded layout data 0).roots.head? = some a := ha
  have hb : (loaded layout data (data.size / 2)).roots.head? = some b := hb
  rw [ha, Option.any_some, hb, Option.any_some] at h
  exact ⟨a, List.mem_of_head? ha, b, List.mem_of_head? hb, hloaded, hloaded', h⟩

/-- A comparison that finds no difference, and there is none. -/
theorem serialize_eq_of_twice : ∃ a ∈ (loaded clear twice 0).roots, ∃ b ∈ (loaded clear twice 9).roots,
    a.IsLoaded clear ∧ b.IsLoaded clear ∧ Place.compare .big ⟨a, []⟩ ⟨b, []⟩ = []
      ∧ Place.serialize ⟨a, []⟩ .big = Place.serialize ⟨b, []⟩ .big := by
  obtain ⟨a, hmem, b, hmem', ha, hb, hshown⟩ := loaded_of_halves clear twice
    (fun a b => decide (∀ y ∈ Place.preorder ⟨a, []⟩, y.atom.info.layout.Legible)
      && decide (∀ y ∈ Place.preorder ⟨b, []⟩, y.atom.info.layout.Legible)
      && decide (∀ m ∈ beside a b, m.1.content = m.2.content ∧ m.1.info.tail = m.2.info.tail
        ∧ ∀ i < m.1.parts.length, m.1.info.layout.isOpenAt i = false)
      && decide (Place.compare .big ⟨a, []⟩ ⟨b, []⟩ = []))
    (by decide +kernel) (by decide +kernel) (by decide +kernel)
  simp only [Bool.and_eq_true, decide_eq_true_iff] at hshown
  obtain ⟨⟨⟨hlegible, hlegible'⟩, hagree⟩, hcompare⟩ := hshown
  refine ⟨a, hmem, b, hmem', ha, hb, hcompare, Place.serialize_eq_of_compare ha hb (Place.everywhere_preorder.1 hlegible)
    (Place.everywhere_preorder.1 hlegible') (fun m hm _ _ => ?_) hcompare⟩
  obtain ⟨hcontent, htail, hgiven⟩ := hagree m hm
  exact Agrees.of_content hcontent htail fun i hi => hgiven i hi

/-- The halves of some bytes are loaded, and a comparison does not tell that they are different. -/
def Unseen (layout : Layout Unit) (data : Array UInt8) : Prop :=
  ∃ a ∈ (loaded layout data 0).roots, ∃ b ∈ (loaded layout data (data.size / 2)).roots,
    a.IsLoaded layout ∧ b.IsLoaded layout ∧ Place.compare .big ⟨a, []⟩ ⟨b, []⟩ = []
      ∧ Place.serialize ⟨a, []⟩ .big ≠ Place.serialize ⟨b, []⟩ .big

theorem unseen_of_halves (layout : Layout Unit) (data : Array UInt8)
    (h : (loaded layout data 0).roots.head?.any (fun a =>
      (loaded layout data (data.size / 2)).roots.head?.any fun b =>
        decide (Place.compare .big ⟨a, []⟩ ⟨b, []⟩ = [])
          && decide (Place.serialize ⟨a, []⟩ .big ≠ Place.serialize ⟨b, []⟩ .big)) = true)
    (hfirst : ((loadNew layout "r" 0).run (source data)).1.toOption = some 0)
    (hsecond : ((loadNew layout "r" (data.size / 2)).run (source data)).1.toOption = some 0) :
    Unseen layout data := by
  obtain ⟨a, hmem, b, hmem', ha, hb, hshown⟩ := loaded_of_halves layout data _ h hfirst hsecond
  rw [Bool.and_eq_true, decide_eq_true_iff, decide_eq_true_iff] at hshown
  exact ⟨a, hmem, b, hmem', ha, hb, hshown⟩

/-- Tails, unused bits, bytes of unions, fields of the same path and the order of fields are missed. -/
theorem compare_eq_nil_of_apart : Unseen roomy #[1, 0xAA, 1, 0xAB] ∧ Unseen half #[0x10, 0x1F]
    ∧ Unseen wide #[1, 2, 1, 3] ∧ Unseen ambiguous #[1, 1, 1, 2] ∧ Unseen chosen #[1, 2, 2, 1] :=
  ⟨unseen_of_halves _ _ (by decide +kernel) (by decide +kernel) (by decide +kernel),
    unseen_of_halves _ _ (by decide +kernel) (by decide +kernel) (by decide +kernel),
    unseen_of_halves _ _ (by decide +kernel) (by decide +kernel) (by decide +kernel),
    unseen_of_halves _ _ (by decide +kernel) (by decide +kernel) (by decide +kernel),
    unseen_of_halves _ _ (by decide +kernel) (by decide +kernel) (by decide +kernel)⟩

end Missed

end BinaryLayout
