import BinaryLayout.Proofs.Document.Rules
import BinaryLayout.Proofs.Handles.Forest
import BinaryLayout.Proofs.Replay.Assign

/-!
# Values set again

The value of an outermost atom that was loaded can be set again, and then the atom stands for the same
bytes as before. Its layout may be of any kind whose values tell all of its bytes. Its rules may look at the
fields before, and a rule that ends an array also at the elements so far. Its source may be any that keeps to
what a source is, a store of bytes that have their places: what it gives in one go, it gives in parts.

## Main definitions

* `Document.Loaded`: an outermost atom that was loaded, whether it is new or was there before.
* `Document.Settled`: an outermost atom of a sound tree.
* `Document.marked`, `Document.counted`: records with a part that their first field decides about.

## Main statements

* `Document.serialize_assign_value`: the value of an atom that was loaded, set again.
-/

namespace BinaryLayout

variable {κ : Type}

open Atom

/-- An atom of a settable layout is loaded into a sound tree, unless an array ended because its source
did. -/
theorem Atom.sound_load {env : Env κ} {layout : Layout κ} (hsettable : layout.Settable env.rules)
    {a : Atom κ} (hlayout : a.info.layout = .bytes layout) (hpresent : a.info.null = false)
    (hshaped : Everywhere Shaped a) {s : LoadState κ} (hs : s.view.Coherent) :
    Ends (load env Layout.nestingLimit [] a) s fun out t =>
      t.ledger.unterminated = s.ledger.unterminated → out.error? = none →
        Everywhere (fun b => b.Sound env ∧ b.IsSettled env) out.atom := by
  have haccounts := accounts_load env Layout.nestingLimit [] (.inl hshaped) s
  have hlaid := laid_load env Layout.nestingLimit [] a s
  have hsettled : Ends (load env Layout.nestingLimit [] a) s _ :=
    settles_load env (Nat.le_refl _) hlayout hpresent hsettable hs
  refine ((haccounts.and hlaid).and hsettled).mono fun out t h hquiet hok => ?_
  obtain ⟨⟨haccounts, hlaid⟩, hsettled⟩ := h
  have hall := Everywhere.and _ (Everywhere.and _ haccounts.shaped (hlaid hok).1) (hsettled hquiet hok).1
  exact hall.mono fun _ h => ⟨⟨h.1.1, h.1.2, h.2.steady⟩, h.2⟩

namespace Document

variable {d t : Document κ} {layout : Layout κ} {id : Nat}

/-- An outermost atom of the layout was loaded: a new one, or one that was there. -/
inductive Loaded (layout : Layout κ) (d : Document κ) : Nat → Document κ → Prop
  | new {name : String} {offset id : Nat} {t : Document κ}
    (hrun : (loadNew layout name offset).run d = (.ok id, t)) : Loaded layout d id t
  | again {a : Atom κ} {t : Document κ} (hroot : a ∈ d.roots) (hlayout : a.info.layout = .bytes layout)
    (hrun : (loadAtom a.info.id).run d = (.ok (), t)) : Loaded layout d a.info.id t

/-- The handle is that of the outermost atom of a sound tree, in a document where no handle occurs twice. -/
def Settled (d : Document κ) (id : Nat) : Prop :=
  d.Balanced ∧ ∃ a ∈ d.roots, a.info.id = id ∧ Everywhere (Sound d.env) a

/-- A changed outermost atom that was put back. -/
theorem Balanced.put_root (hd : d.Balanced) {a b : Atom κ} (hroot : a ∈ d.roots) {l : Ledger κ}
    (h : Accounts a d.ledger b l) :
    ({ d with ledger := l }.put ⟨b, []⟩).Balanced ∧ b ∈ ({ d with ledger := l }.put ⟨b, []⟩).roots
      ∧ ({ d with ledger := l }.put ⟨b, []⟩).ledger = l := by
  obtain ⟨before, after, -, hput, hbalanced⟩ :=
    hd.put (q := ⟨b, []⟩) hroot (Info.id_of_site h.site) h.shaped h.balance
  refine ⟨hbalanced, ?_, congrArg ledger hput⟩
  rw [hput]
  exact List.mem_append_right _ List.mem_cons_self

/-- An outermost atom that was there is loaded. -/
theorem Balanced.sound_loadAtom (hd : d.Balanced) (hsettable : layout.Settable d.env.rules)
    (hsource : View.Coherent (.source d.source, d.sources)) {a : Atom κ} (hroot : a ∈ d.roots)
    (hlayout : a.info.layout = .bytes layout) :
    Yields (loadAtom a.info.id) d
      (fun _ t => t.ledger.unterminated = d.ledger.unterminated → t.Balanced ∧ t.env = d.env
        ∧ ∃ b ∈ t.roots, b.info.id = a.info.id ∧ Everywhere (fun c => c.Sound d.env ∧ c.IsSettled d.env) b)
      fun _ _ => True := by
  have hplace : (⟨a, []⟩ : Place κ) ∈ d.places := mem_places.2 hroot
  refine (DocumentM.yields_place (live_of_mem hplace)).bind fun p t ht => ?_
  obtain ⟨⟨-, hfind, -⟩, rfl⟩ := ht
  obtain rfl : p = ⟨a, []⟩ := Option.some.inj (hfind.symm.trans (hd.find?_root hroot))
  dsimp only
  split
  · exact Yields.throw_bind trivial
  · rename_i hnull
    refine DocumentM.yields_got ?_
    have hshaped := hd.shaped a hroot
    have hload := (accounts_load t.env Layout.nestingLimit [] (.inl hshaped)
      ⟨t.ledger, t.sources, .source t.source⟩).and
        (sound_load hsettable hlayout (Bool.eq_false_iff.2 hnull) hshaped
          (s := ⟨t.ledger, t.sources, .source t.source⟩) hsource)
    refine (DocumentM.yields_ofLoad hload).bind fun out u hu => ?_
    obtain ⟨s, rfl, haccounts, hsound⟩ := hu
    split
    · exact Yields.via (fun _ _ => True) trivial fun _ _ _ => Yields.throw trivial
    · rename_i herror
      have hd' : Balanced { t with sources := s.sources } := ⟨hd.shaped, hd.balance⟩
      obtain ⟨hbalanced, hmem, hledger⟩ := hd'.put_root hroot haccounts
      exact Yields.modified fun hquiet => ⟨hbalanced, env_put _ _, out.atom, hmem,
        Info.id_of_site haccounts.site, hsound (hledger ▸ hquiet) herror⟩

/-- What an outermost atom was loaded into, unless an array ended because its source did. -/
theorem Loaded.sound (h : Loaded layout d id t) (hd : d.Balanced) (hsettable : layout.Settable d.env.rules)
    (hsource : View.Coherent (.source d.source, d.sources))
    (hquiet : t.ledger.unterminated = d.ledger.unterminated) :
    t.Balanced ∧ t.env = d.env
      ∧ ∃ a ∈ t.roots, a.info.id = id ∧ Everywhere (fun b => b.Sound d.env ∧ b.IsSettled d.env) a := by
  cases h with
  | again hroot hlayout hrun => exact (hd.sound_loadAtom hsettable hsource hroot hlayout).of_ok hrun hquiet
  | @new name offset _ _ hrun =>
    obtain ⟨out, s, others, hload, herror, rfl, hroots, hledger, henv⟩ :=
      (yields_loadNew_next d layout name offset).of_ok hrun
    have hbalanced : t.Balanced := (hd.balancing_loadNew layout name offset).of_ok hrun
    have hsound := sound_load hsettable (a := d.next layout name offset) rfl rfl
      (isBlank_blank _ _ _ _).shaped (s := d.loadingNext) hsource
    rw [Ends, hload] at hsound
    have hsame : s.ledger.unterminated = d.loadingNext.ledger.unterminated := by
      rw [← hledger, hquiet]
      exact (Ledger.unterminated_take _).symm
    refine ⟨hbalanced, henv, out.atom, ?_, rfl, hsound hsame herror⟩
    rw [hroots]
    exact List.mem_cons_self

theorem Loaded.settled (h : Loaded layout d id t) (hd : d.Balanced) (hsettable : layout.Settable d.env.rules)
    (hsource : View.Coherent (.source d.source, d.sources))
    (hquiet : t.ledger.unterminated = d.ledger.unterminated) : t.Settled id := by
  obtain ⟨hbalanced, henv, a, hroot, hid, hsound⟩ := h.sound hd hsettable hsource hquiet
  rw [← henv] at hsound
  exact ⟨hbalanced, a, hroot, hid, hsound.mono fun _ h => h.1⟩

/-- The value of the outermost atom of a sound tree is set again. -/
theorem Balanced.yields_assign_value (hd : d.Balanced) {a : Atom κ} (hroot : a ∈ d.roots)
    (ha : Everywhere (Sound d.env) a) {v : Value} {path : Path} (hv : a.valueAt path = .ok v) :
    Yields (assign a.info.id v) d
      (fun _ t => ∃ b, t.find? a.info.id = some ⟨b, []⟩ ∧ b.plain = a.plain) fun _ _ => False := by
  have hplace : (⟨a, []⟩ : Place κ) ∈ d.places := mem_places.2 hroot
  refine DocumentM.yields_got (yields_edit (live_of_mem hplace) fun p _ hfind _ => ?_)
  obtain rfl : p = ⟨a, []⟩ := Option.some.inj (hfind.symm.trans (hd.find?_root hroot))
  have hretraces := EditM.retraces_setValue (s := ⟨d.ledger, ⟨a, []⟩⟩) ha hv
  have hkeeps := EditM.keeps_setValue d.env v (s := ⟨d.ledger, ⟨a, []⟩⟩) (hd.shaped a hroot)
  refine (hretraces.and hkeeps).mono (fun _ s hs => ?_) fun _ _ h => h.1
  obtain ⟨l, b, frames⟩ := s
  obtain ⟨hplain, hconserves⟩ := hs
  obtain rfl : frames = [] := List.map_eq_nil_iff.1 (congrArg Place.frames hplain)
  have haccounts : Accounts a d.ledger b l := hconserves.accounts
  obtain ⟨hbalanced, hmem, -⟩ := hd.put_root hroot haccounts
  refine ⟨b, ?_, congrArg Place.atom hplain⟩
  rw [← Info.id_of_site haccounts.site]
  exact hbalanced.find?_root hmem

def item : Layout Unit := .record "item" [⟨"key", .given (.int .u8), none, none⟩,
  ⟨"name", .given (.text ⟨.ascii, .terminated⟩), none, none⟩, ⟨"flags", .given (.int .u8), none, none⟩]

/-- Items, in as many bytes as the field before them says. -/
def counted : Layout Unit := .record "counted" [⟨"count", .given (.int .u8), none, none⟩,
  ⟨"items", .computed (), none, none⟩]

/-- A document where the items are counted. -/
def counting (source : Source) : Document Unit where
  env := ⟨{}, fun _ s => (s.uint "count").map fun count => .array item (.block count),
    fun _ _ => .ok (.int 1 false), fun _ _ => .ok 0, fun _ _ => .ok (.bool true), fun _ _ _ _ => true,
    fun _ n => n, fun _ _ _ => .ok 0, fun _ _ _ => .ok 0⟩
  sources := [source]
  source := 0

theorem settable_item (rules : Rules Unit) : item.Settable rules := by
  have hint : Layout.Settable rules (.int .u8) := fun _ huse => by
    cases huse
    trivial
  have htext : Layout.Settable rules (.text ⟨.ascii, .terminated⟩) := fun _ huse => by
    cases huse
    trivial
  refine Layout.settable_record ⟨by decide, ?_⟩ ?_
  · simp [Choice.SeesEarlier]
  · simp only [List.forall_mem_cons, List.not_mem_nil, Choice.Offers, forall_eq]
    exact ⟨hint, htext, hint, fun _ hnone => hnone.elim⟩

theorem settable_counted (source : Source) : counted.Settable (counting source).env.rules := by
  have hint : Layout.Settable (counting source).env.rules (.int .u8) := fun _ huse => by
    cases huse
    trivial
  refine Layout.settable_record ⟨by decide, ?_⟩ ?_
  · refine List.forall_mem_cons.2 ⟨⟨rfl, trivial⟩, List.forall_mem_singleton.2 ⟨rfl, ?_⟩⟩
    exact Rules.seesEarlier_of_uint "count" (fun count => .ok (.array item (.block count))) fun s => by
      cases hn : s.uint "count" <;> simp [counting, hn, Except.map, Except.bind]
  · simp only [List.forall_mem_cons, List.not_mem_nil, Choice.Offers, forall_eq]
    refine ⟨hint, fun inner hoffers => ?_, fun _ hnone => hnone.elim⟩
    obtain ⟨s, hs⟩ := hoffers
    obtain ⟨count, -, rfl⟩ := ok_of_map hs
    exact Layout.settable_array trivial (settable_item _)

/-! ## A record whose items end at a mark -/

/-- Items, the last of which has the key that the field before them says. -/
def marked : Layout Unit := .record "marked" [⟨"mark", .given (.int .u8), none, none⟩,
  ⟨"items", .computed (), none, none⟩]

/-- The key of an item is the mark of the record around it. -/
def isMarked (p : Place Unit) : Bool :=
  match p.frames with
  | [] => false
  | _ :: frames => ((Frame.context frames).earlier.head?.bind fun a => (a.valueAt []).toOption.bind Value.toNat?)
      == (p.atom.valueAt []).toOption.bind fun v => (v.get? "key").bind Value.toNat?

/-- A document where the items end by a rule. -/
def marking (accepts : Place Unit → Bool) (source : Source) : Document Unit :=
  let counting := counting source
  { counting with env := ⟨{}, { counting.env.rules with
      layout := fun _ s => (s.uint "mark").map fun _ => .array item (.terminated ())
      accepts := fun _ _ _ p => accepts p }⟩ }

theorem settable_marked (source : Source) : marked.Settable (marking isMarked source).env.rules := by
  have hint : Layout.Settable (marking isMarked source).env.rules (.int .u8) := fun _ huse => by
    cases huse
    trivial
  have hsees : (marking isMarked source).env.rules.SeesSoFar () := by
    intro _ _ a b f g frames frames' _ _ hplain _ hframes
    simp only [marking, isMarked, hframes, valueAt_of_plain hplain]
  refine Layout.settable_record ⟨by decide, ?_⟩ ?_
  · refine List.forall_mem_cons.2 ⟨⟨rfl, trivial⟩, List.forall_mem_singleton.2 ⟨rfl, ?_⟩⟩
    exact Rules.seesEarlier_of_uint "mark" (fun _ => .ok (.array item (.terminated ()))) fun s => by
      cases hn : s.uint "mark" <;> simp [marking, hn, Except.map, Except.bind]
  · simp only [List.forall_mem_cons, List.not_mem_nil, Choice.Offers, forall_eq]
    refine ⟨hint, fun inner hoffers => ?_, fun _ hnone => hnone.elim⟩
    obtain ⟨s, hs⟩ := hoffers
    obtain ⟨mark, -, rfl⟩ := ok_of_map hs
    exact Layout.settable_array hsees (settable_item _)

/-- What becomes of a record that is loaded and whose value is set again: its bytes before and after. -/
def resetBytes (d : Document Unit) (layout : Layout Unit) : Option (Bytes × Bytes) :=
  let loaded := ((loadNew layout "x" 0).run d).2
  (loaded.find? 0).bind fun p => p.value.toOption.bind fun v =>
    (((assign 0 v).run loaded).2.find? 0).map fun q => (p.serialize .big, q.serialize .big)

-- A rule that ends an array where the record around it goes on, as it does once it is loaded. To set the mark is
-- to load the hosts again, and then there is one; the other is made anew, without its unused bits.
example :
    let hosts : Layout Unit := .array (.bits (.int 5 false) .big) (.terminated ())
    let layout := .record "marked" [⟨"mark", .given (.int .u8), none, none⟩, ⟨"hosts", .computed (), none, none⟩,
      ⟨"last", .given (.int .u8), none, none⟩]
    let d := marking (fun p => p.frames.any (!·.right.isEmpty) || p.atom.info.name = "1")
      (.memory #[2, 0xf8, 0xff, 9] true 0)
    let env := ⟨{}, { d.env.rules with layout := fun _ s => (s.uint "mark").map fun _ => hosts }⟩
    resetBytes { d with env } layout = some ([2, 0xf8, 0xff, 9], [2, 0xf8, 0xf8, 9]) := by
  decide +kernel

-- A source that is none: it tells its size, refuses to be moved past it and still gives bytes from there on. The
-- text is read and the byte after it is not, so there is no item, and its bytes are the tail of the items. They
-- are loaded again from these bytes, where the item is whole, and to set them to none leaves nothing of it.
example : resetBytes (counting (.device { data := #[5, 0, 0x61], bounded := true, repeats := true })) counted
    = some ([5, 0, 0x61, 5, 0, 0x61], [5]) := by
  decide +kernel

end Document

end BinaryLayout
