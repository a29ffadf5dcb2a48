import BinaryLayout.Proofs.Making.Load

/-!
# Atoms that were loaded to the end

Loading that ends without an error leaves no part out: a record has all its fields, a union all its members
and a host of bits its root. Only of arrays the layout does not say how many elements there are. A pointer
that was just loaded has no part.

## Main definitions

* `Atom.IsWhole`: an atom with as many parts as its layout asks for.

## Main statements

* `Makes.whole`: the steps in which atoms are made leave no part out unless they fail.
* `whole_load`: atoms that were loaded.
-/

namespace BinaryLayout

variable {κ : Type}

open Atom

/-- The atom has as many parts as its layout asks for. -/
def Atom.IsWhole (a : Atom κ) : Prop := ∀ count, a.info.layout.partCount? = some count → a.parts.length = count

def Outcome.Whole (out : Outcome κ) : Prop := out.error? = none → Everywhere IsWhole out.atom

namespace Atom

variable {a : Atom κ}

theorem isWhole_of_count {count : Nat} (hlayout : a.info.layout.partCount? = some count)
    (hparts : a.parts.length = count) : a.IsWhole := by
  intro other hother
  rw [hlayout] at hother
  cases hother
  exact hparts

/-- Info that keeps the layout does not matter. -/
theorem Everywhere.whole_mapInfo (h : Everywhere IsWhole a) {change : Info κ → Info κ}
    (hlayout : (change a.info).layout = a.info.layout) : Everywhere IsWhole (a.mapInfo change) := by
  rw [everywhere_iff, IsWhole, info_mapInfo, hlayout, parts_mapInfo]
  exact everywhere_iff.1 h

/-- An atom without parts whose layout asks for none. -/
theorem whole_fill_nil (content : Content) (h : a.info.layout.partCount? = some 0) :
    Everywhere IsWhole (a.fill content []) :=
  everywhere_iff.2 ⟨isWhole_of_count h rfl, nofun⟩

end Atom

/-! ## Parts one after another -/

/-- There are `count` parts before the gap, which are whole, and there are none after it. -/
structure Frame.Counts (f : Frame κ) (count : Nat) : Prop where
  left : f.left.length = count
  right : f.right = []
  parts : ∀ part ∈ f.left, Everywhere IsWhole part

namespace Frame.Counts

variable {f : Frame κ} {count : Nat}

theorem push (hf : f.Counts count) {a : Atom κ} (ha : Everywhere IsWhole a) : (f.push a).Counts (count + 1) :=
  ⟨congrArg Nat.succ hf.left, hf.right, List.forall_mem_cons.2 ⟨ha, hf.parts⟩⟩

theorem close (hf : f.Counts count) (h : ∀ asked, f.info.layout.partCount? = some asked → count = asked) :
    Everywhere IsWhole f.close := by
  rw [everywhere_close, hf.right]
  refine ⟨fun asked hasked => ?_, hf.parts, nofun⟩
  rw [← h asked hasked, Frame.parts_close, hf.right, List.append_nil, List.length_reverse, hf.left]

end Frame.Counts

/-! ## The steps -/

/-- The parts that there are so far are whole, as many as the index of the next one says. -/
def Stage.Counts : Stage κ → Prop
  | atom _ => True
  | parts f index _ => f.Counts index

/-- A layout with bytes of its own asks for no parts. -/
theorem Layout.Stores.partCount? {layout : Layout κ} {raw : Bytes} {marked : Bool} (h : layout.Stores raw marked) :
    (AtomLayout.bytes layout).partCount? = some 0 := by
  have hadmits := h.admits
  cases layout
  case record | array | union | bits => cases hadmits
  all_goals rfl

/-- An atom that is made without an error is whole. -/
theorem Makes.whole {frames : List (Frame κ)} {stage : Stage κ} {l m : Ledger κ} {out : Outcome κ}
    (h : Makes frames stage l out m) (hstage : stage.Counts) : out.Whole := by
  induction h with
  | refused | stopped | failed => exact fun h => by cases h
  | leaf hlayout hstores =>
    refine fun _ => ?_
    rw [withBytes_eq]
    exact whole_fill_nil _ (by rw [info_mapInfo, hlayout]; exact hstores.partCount?)
  | bits hlayout value => exact fun _ => whole_fill_nil _ (hlayout ▸ rfl)
  | @host _ a _ _ out _ _ _ pad hlayout _ _ _ ih =>
    refine fun herror => everywhere_iff.2 ⟨isWhole_of_count ?_ rfl, List.forall_mem_singleton.2 (ih trivial herror)⟩
    rw [hostedBits, info_fill, hlayout]
    rfl
  | sized _ _ ih => exact ih trivial
  | compound _ _ _ ih => exact ih ⟨rfl, rfl, nofun⟩
  | complete _ _ _ hcount => exact fun _ => Frame.Counts.close hstage hcount
  | next _ _ _ _ hdone ihpart ihrest =>
    exact fun herror => ihrest (Frame.Counts.push hstage (ihpart trivial (hdone herror))) herror
  | dropped _ _ _ _ ihrest => exact ihrest hstage
  | amended hamends _ ih => exact fun _ => (ih hstage rfl).whole_mapInfo (Info.layout_of_site hamends.site)
  | warned _ _ ih => exact ih hstage

/-- An atom of bytes that was loaded to the end. -/
theorem whole_load (env : Env κ) (depth : Nat) (frames : List (Frame κ)) (a : Atom κ) (s : LoadState κ) :
    Ends (load env depth frames a) s fun out _ => out.Whole :=
  (makesOver_load env depth frames a s).mono fun out m h => by
    rcases h with ⟨-, h⟩ | ⟨-, -, e, rfl⟩
    · exact h.whole trivial
    · exact fun h => by cases h

end BinaryLayout
