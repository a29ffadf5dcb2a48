import BinaryLayout.Load.Layout
import BinaryLayout.Proofs.Tree.Recast
import BinaryLayout.Proofs.Tree.Shape

/-!
# Atoms under other handles

Two trees that differ in nothing but their handles become equal when every handle is replaced by a
mark that is the same for both. Whatever is built in the same way from such trees is again such a
pair, because building looks at no handle; and so are the scopes that rules are asked in.

Which handles a ledger is going to hand out is fixed: those given back, last first, and then new ones.
Two ledgers whose handles to come have the same marks stay such a pair when each hands out a handle,
and when they take back those of two trees that differ in handles alone.

## Main definitions

* `Atom.rename`, `Frame.rename`, `Place.rename`, `Scope.rename`: marks in the place of handles.
* `Rules.SeeOnly`: rules that see of a handle no more than its mark.
* `Ledger.upcoming`: the handles that are going to be handed out.
* `Ledger.InStep`: ledgers whose handles to come have the same marks.

## Main statements

* `Place.path_rename`: the path of an atom has no handles.
* `Ledger.InStep.spawn`, `Ledger.InStep.release`: what keeps ledgers in step.
-/

namespace BinaryLayout

variable {κ : Type}

/-- The info with a mark in the place of the handle. -/
def Info.rename (mark : Nat → Nat) (info : Info κ) : Info κ := { info with id := mark info.id }

theorem Info.keeping_rename (mark : Nat → Nat) : Info.Keeping (Info.rename mark : Info κ → Info κ) :=
  ⟨fun _ => rfl, fun _ => rfl⟩

namespace Atom

/-- The atom with marks in the place of handles. -/
def rename (mark : Nat → Nat) : Atom κ → Atom κ := recast (Info.rename mark)

variable {mark : Nat → Nat}

@[simp] theorem info_rename (a : Atom κ) : (a.rename mark).info = a.info.rename mark :=
  info_recast a

@[simp] theorem content_rename (a : Atom κ) : (a.rename mark).content = a.content :=
  content_recast a

@[simp] theorem parts_rename (a : Atom κ) : (a.rename mark).parts = a.parts.map (rename mark) :=
  parts_recast a

theorem rename_node (info : Info κ) (content : Content) (parts : List (Atom κ)) :
    rename mark (.node info content parts) =
      .node (info.rename mark) content (parts.map (rename mark)) :=
  recast_node info content parts

@[simp] theorem size_rename (a : Atom κ) : (a.rename mark).size = a.size :=
  size_recast (Info.keeping_rename mark) a

@[simp] theorem contentSize_rename (a : Atom κ) : (a.rename mark).contentSize = a.contentSize :=
  contentSize_recast (Info.keeping_rename mark) a

@[simp] theorem bits_rename (a : Atom κ) : (a.rename mark).bits = a.bits :=
  bits_recast (Info.keeping_rename mark) a

/-! ## Trees that differ in handles alone -/

section Same

variable {a b : Atom κ} (h : a.rename mark = b.rename mark)

include h

theorem info_of_rename : a.info.rename mark = b.info.rename mark := by
  rw [← info_rename, h, info_rename]

theorem layout_of_rename : a.info.layout = b.info.layout :=
  (congrArg Info.layout (info_of_rename h) :)

theorem offset_of_rename : a.info.offset = b.info.offset :=
  (congrArg Info.offset (info_of_rename h) :)

theorem content_of_rename : a.content = b.content :=
  (content_rename a).symm.trans ((congrArg content h).trans (content_rename b))

theorem size_of_rename : a.size = b.size :=
  (size_rename a).symm.trans ((congrArg size h).trans (size_rename b))

theorem contentSize_of_rename : a.contentSize = b.contentSize :=
  (contentSize_rename a).symm.trans ((congrArg contentSize h).trans (contentSize_rename b))

theorem bits_of_rename : a.bits = b.bits :=
  (bits_rename a).symm.trans ((congrArg bits h).trans (bits_rename b))

end Same

/-! ## Building -/

theorem rename_fill (content : Content) (parts : List (Atom κ)) (a : Atom κ) :
    (a.fill content parts).rename mark = (a.rename mark).fill content (parts.map (rename mark)) := by
  obtain ⟨info, _, _⟩ := a
  exact rename_node info content parts

theorem rename_ready (a : Atom κ) : a.ready.rename mark = (a.rename mark).ready := by
  obtain ⟨info, content, parts⟩ := a
  rw [rename_node]
  exact rename_node _ content parts

theorem rename_withTail (tail : Bytes) (a : Atom κ) :
    (a.withTail tail).rename mark = (a.rename mark).withTail tail := by
  obtain ⟨info, content, parts⟩ := a
  rw [rename_node]
  exact rename_node _ content parts

theorem rename_cleared (a : Atom κ) : a.cleared.rename mark = (a.rename mark).cleared := by
  obtain ⟨info, content, parts⟩ := a
  rw [rename_node]
  exact rename_node _ .empty []

theorem rename_sized (extent : Nat) (a : Atom κ) :
    (a.mapInfo fun info => { info with extent? := some extent }).rename mark =
      (a.rename mark).mapInfo fun info => { info with extent? := some extent } := by
  obtain ⟨info, content, parts⟩ := a
  rw [rename_node]
  exact rename_node _ content parts

theorem rename_withBytes (layout : Layout κ) (raw : Bytes) (a : Atom κ) :
    (a.withBytes layout raw).rename mark = (a.rename mark).withBytes layout raw := by
  rw [withBytes_eq, withBytes_eq, rename_fill, List.map_nil]

theorem rename_undecodable (undecodable : Bool) (a : Atom κ) :
    (a.mapInfo fun info => { info with undecodable }).rename mark =
      (a.rename mark).mapInfo fun info => { info with undecodable } := by
  obtain ⟨info, content, parts⟩ := a
  rw [rename_node]
  exact rename_node _ content parts

theorem rename_hostedBits (a root : Atom κ) (pad : Bitmap) :
    (hostedBits a root pad).rename mark = hostedBits (a.rename mark) (root.rename mark) pad :=
  rename_fill (.host pad) [root] a

end Atom

open Atom

namespace Frame

variable {mark : Nat → Nat}

/-- The frame with marks in the place of handles. -/
def rename (mark : Nat → Nat) (f : Frame κ) : Frame κ :=
  ⟨f.info.rename mark, f.content, f.left.map (Atom.rename mark), f.right.map (Atom.rename mark)⟩

theorem rename_push (f : Frame κ) (a : Atom κ) :
    (f.push a).rename mark = (f.rename mark).push (a.rename mark) :=
  rfl

theorem rename_plug (f : Frame κ) (a : Atom κ) :
    (f.plug a).rename mark = (f.rename mark).plug (a.rename mark) := by
  rw [plug, rename_node, List.reverseAux_eq, plug, List.reverseAux_eq, List.map_append,
    List.map_reverse, List.map_cons]
  rfl

theorem rename_close (f : Frame κ) : f.close.rename mark = (f.rename mark).close := by
  rw [close, rename_node, List.reverseAux_eq, close, List.reverseAux_eq, List.map_append,
    List.map_reverse]
  rfl

theorem rename_frame (a : Atom κ) : a.frame.rename mark = (a.rename mark).frame := by
  rw [frame, frame, rename, info_rename, content_rename, parts_rename, List.map_reverse]
  rfl

variable {f g : Frame κ}

theorem info_of_rename (h : f.rename mark = g.rename mark) :
    f.info.rename mark = g.info.rename mark :=
  congrArg Frame.info h

theorem offset_of_rename (h : f.rename mark = g.rename mark) : f.info.offset = g.info.offset :=
  (congrArg Info.offset (info_of_rename h) :)

end Frame

namespace Place

variable {mark : Nat → Nat}

/-- The place with marks in the place of handles. -/
def rename (mark : Nat → Nat) (p : Place κ) : Place κ :=
  ⟨p.atom.rename mark, p.frames.map (Frame.rename mark)⟩

theorem pathOnto_rename (inner : Path) (name : String) (frames : List (Frame κ)) :
    pathOnto inner name (frames.map (Frame.rename mark)) = pathOnto inner name frames := by
  induction frames generalizing inner name with
  | nil => rfl
  | cons f frames ih => exact ih _ _

/-- The path of an atom has no handles. -/
theorem path_rename (p : Place κ) : (p.rename mark).path = p.path := by
  rw [path, path, rename, info_rename]
  exact pathOnto_rename [] _ _

/-- Trees that differ in handles alone have the same paths. -/
theorem path_of_rename {p q : Place κ} (h : p.rename mark = q.rename mark) : p.path = q.path :=
  (path_rename p).symm.trans ((congrArg path h).trans (path_rename q))

end Place

/-- The scope with marks in the place of handles. -/
def Scope.rename (mark : Nat → Nat) (s : Scope κ) : Scope κ :=
  { s with container := s.container.rename mark }

/-- What the rules answer while atoms are loaded depends on no handle but by its mark. -/
structure Rules.SeeOnly (mark : Nat → Nat) (rules : Rules κ) : Prop where
  layout : ∀ {rule s t}, s.rename mark = t.rename mark → rules.layout rule s = rules.layout rule t
  bitLayout : ∀ {rule s t}, s.rename mark = t.rename mark →
    rules.bitLayout rule s = rules.bitLayout rule t
  extent : ∀ {rule s t}, s.rename mark = t.rename mark → rules.extent rule s = rules.extent rule t
  accepts : ∀ {rule config count p q}, Place.rename mark p = Place.rename mark q →
    rules.accepts rule config count p = rules.accepts rule config count q

namespace Env

variable {mark : Nat → Nat} {env : Env κ}

/-- Rules that see of handles no more than their marks give the same answer for trees that differ in
handles alone. -/
theorem resolve_of_rename (hrules : env.rules.SeeOnly mark) {p q : Place κ}
    (h : p.rename mark = q.rename mark) (index : Nat) (choice : Choice κ (Layout κ)) :
    env.resolve p index choice = env.resolve q index choice := by
  cases choice with
  | given layout => rfl
  | computed rule =>
    rw [resolve, resolve, hrules.layout]
    rw [Scope.rename, h]
    rfl

theorem resolveBits_of_rename (hrules : env.rules.SeeOnly mark) {p q : Place κ}
    (h : p.rename mark = q.rename mark) (index : Nat) (choice : Choice κ (BitLayout κ)) :
    env.resolveBits p index choice = env.resolveBits q index choice := by
  cases choice with
  | given layout => rfl
  | computed rule =>
    rw [resolveBits, resolveBits, hrules.bitLayout]
    rw [Scope.rename, h]
    rfl

theorem extent_of_rename (hrules : env.rules.SeeOnly mark) {p q : Place κ}
    (h : p.rename mark = q.rename mark) (index : Nat) (rule : κ) :
    env.extent p index rule = env.extent q index rule := by
  rw [extent, extent, hrules.extent]
  rw [Scope.rename, h]
  rfl

end Env

/-! ## The handles to come -/

namespace Ledger

/-- The handle that will be handed out after `n` others, if none is given back before. -/
def upcoming (l : Ledger κ) (n : Nat) : Nat :=
  match l.vacant[n]? with
  | some a => a.info.id
  | none => l.made + (n - l.vacant.length)

theorem take_fst (l : Ledger κ) : l.take.1 = l.upcoming 0 := by
  obtain ⟨made, vacant, warnings⟩ := l
  cases vacant <;> rfl

theorem upcoming_take (l : Ledger κ) (n : Nat) : l.take.2.upcoming n = l.upcoming (n + 1) := by
  obtain ⟨made, vacant, warnings⟩ := l
  cases vacant with
  | nil =>
    simp only [take, upcoming, List.getElem?_nil, List.length_nil]
    omega
  | cons a vacant => simp only [take, upcoming, List.getElem?_cons_succ, List.length_cons,
      Nat.add_sub_add_right]

theorem upcoming_vacant_succ (l : Ledger κ) (a : Atom κ) (n : Nat) :
    ({ l with vacant := a :: l.vacant } : Ledger κ).upcoming (n + 1) = l.upcoming n := by
  simp only [upcoming, List.getElem?_cons_succ, List.length_cons, Nat.add_sub_add_right]

/-- The handles to come have the same marks, one by one. -/
def InStep (mark : Nat → Nat) (l m : Ledger κ) : Prop :=
  ∀ n, mark (l.upcoming n) = mark (m.upcoming n)

namespace InStep

variable {mark : Nat → Nat} {l m : Ledger κ}

theorem take (h : l.InStep mark m) : l.take.2.InStep mark m.take.2 := fun n => by
  rw [upcoming_take, upcoming_take]
  exact h (n + 1)

theorem mark_take (h : l.InStep mark m) : mark l.take.1 = mark m.take.1 := by
  rw [take_fst, take_fst]
  exact h 0

/-- Both get back a handle of the same mark. -/
theorem giveBack (h : l.InStep mark m) {a b : Atom κ} (hid : mark a.info.id = mark b.info.id) :
    ({ l with vacant := a :: l.vacant } : Ledger κ).InStep mark
      { m with vacant := b :: m.vacant } := by
  intro n
  cases n with
  | zero => exact hid
  | succ n =>
    rw [upcoming_vacant_succ, upcoming_vacant_succ]
    exact h n

mutual

/-- Both get back the handles of trees that differ in handles alone. -/
theorem release {l m : Ledger κ} (h : l.InStep mark m) : ∀ {a b : Atom κ},
    a.rename mark = b.rename mark → (Ledger.release a l).InStep mark (Ledger.release b m)
  | .node info content parts, .node info' content' parts', hab => by
    have hinfo := Atom.info_of_rename hab
    have hparts := congrArg Atom.parts hab
    rw [Atom.parts_rename, Atom.parts_rename] at hparts
    exact (releaseAll h hparts).giveBack (congrArg Info.id hinfo :)

theorem releaseAll {l m : Ledger κ} (h : l.InStep mark m) : ∀ {as bs : List (Atom κ)},
    as.map (Atom.rename mark) = bs.map (Atom.rename mark) →
      (Ledger.releaseAll as l).InStep mark (Ledger.releaseAll bs m)
  | [], [], _ => h
  | a :: as, b :: bs, hall => by
    rw [List.map_cons, List.map_cons, List.cons.injEq] at hall
    exact releaseAll (release h hall.1) hall.2

end

/-- Both make a new atom. -/
theorem spawn (h : l.InStep mark m) (name : String) (layout : AtomLayout κ) (offset : Nat) :
    (LedgerM.spawn name layout offset l).1.rename mark =
        (LedgerM.spawn name layout offset m).1.rename mark
      ∧ (LedgerM.spawn name layout offset l).2.InStep mark
        (LedgerM.spawn name layout offset m).2 := by
  refine ⟨?_, h.take⟩
  show Atom.rename mark (.blank l.take.1 name layout offset) =
    Atom.rename mark (.blank m.take.1 name layout offset)
  rw [Atom.blank, Atom.blank, Atom.rename_node, Atom.rename_node, Info.rename, Info.rename,
    h.mark_take]

/-- Both empty an atom. -/
theorem clear (h : l.InStep mark m) {a b : Atom κ} (hab : a.rename mark = b.rename mark) :
    (LedgerM.clear a l).1.rename mark = (LedgerM.clear b m).1.rename mark
      ∧ (LedgerM.clear a l).2.InStep mark (LedgerM.clear b m).2 := by
  have hparts := congrArg Atom.parts hab
  rw [Atom.parts_rename, Atom.parts_rename] at hparts
  refine ⟨?_, h.releaseAll hparts⟩
  show a.cleared.rename mark = b.cleared.rename mark
  rw [Atom.rename_cleared, Atom.rename_cleared, hab]

end InStep

end Ledger

end BinaryLayout
