import BinaryLayout.Proofs.Handles.Load
import BinaryLayout.Proofs.Replay.Bits

/-!
# Loading twice

An atom that is loaded from two views which echo is the same atom up to handles and flags, or the bytes
run out both times. So an element that a block array dropped is dropped again, and the members of a
union are again what they were. What encloses the atom need not be the same: padding looks at the offset
of the enclosing atom, and a rule at the fields before.

## Main definitions

* `Outcome.Echo`: what became of the same atom twice.
* `EchoedBytes`: what two views that echo make of an atom.

## Main statements

* `echo_allocateBits`: default bits.
* `echo_load`: an atom of bytes.
-/

namespace BinaryLayout

variable {κ α : Type}

open Atom

/-! ## Default bits -/

section Allocate

variable {env : Env κ}

/-- What became of the same default bits twice: the same atom, unless the first could not be made. -/
inductive Outcome.MadeTwice (site : Info κ) : Outcome κ → Outcome κ → Prop
  | same {a a' : Atom κ} (hplain : a.plain = a'.plain) (hsite : a.info.site = site)
    (hsteady : Everywhere SteadyBits a) : MadeTwice site ⟨a, none⟩ ⟨a', none⟩
  | lost {a : Atom κ} {e : Error} {right : Outcome κ} (he : e.isConsume = false) :
    MadeTwice site ⟨a, some e⟩ right

/-- What became of the same default parts twice, of the given names. -/
inductive Outcome.PartsMade (names : List String) (f : Frame κ) : Outcome κ → Outcome κ → Prop
  | same {parts : List (Atom κ)} {a' : Atom κ} (hplain : (f.filled parts).plain = a'.plain)
    (hnames : parts.map (fun part => part.info.name) = names) (hsteady : EverywhereIn SteadyBits parts) :
    PartsMade names f ⟨(f.filled parts).ready, none⟩ ⟨a', none⟩
  | lost {a : Atom κ} {e : Error} {right : Outcome κ} (he : e.isConsume = false) :
    PartsMade names f ⟨a, some e⟩ right

namespace Outcome.PartsMade

variable {names : List String} {f f' : Frame κ} {out out' : Outcome κ}

theorem done (hf : f.plain = f'.plain) (hright : f.right = []) :
    PartsMade [] f ⟨f.close.ready, none⟩ ⟨f'.close.ready, none⟩ := by
  have hplain : (f.filled []).plain = f'.close.ready.plain := by
    rw [← Frame.close_eq_filled hright, plain_ready, Frame.close_of_plain hf]
  rw [Frame.close_eq_filled hright]
  exact .same hplain rfl trivial

theorem cons {a : Atom κ} (hsteady : Everywhere SteadyBits a) (h : PartsMade names (f.push a) out out') :
    PartsMade (a.info.name :: names) f out out' := by
  cases h with
  | same hplain hnames hparts =>
    rw [Frame.filled_push] at hplain ⊢
    exact .same hplain (congrArg (List.cons _) hnames) ⟨hsteady, hparts⟩
  | lost he => exact .lost he

theorem whole {site : Info κ} (h : PartsMade names f out out') (hsite : f.info.site = site)
    (hleft : f.left = []) (hsteady : ∀ parts : List (Atom κ),
      parts.map (fun part => part.info.name) = names → SteadyBits (f.filled parts).ready) :
    MadeTwice site out out' := by
  cases h with
  | @same parts a' hplain hnames hparts =>
    refine .same ?_ ?_ (everywhere_iff.2 ⟨hsteady parts hnames, ?_⟩)
    · rw [plain_ready, hplain]
    · rw [site_ready]
      exact hsite
    · rw [parts_ready, Frame.filled, hleft]
      exact everywhereIn_iff.1 hparts
  | lost he => exact .lost he

end Outcome.PartsMade

/-- What is made of the same atom of bits of known width twice. -/
def MadeBits (rules : Rules κ) (part part' : LoadPart (LedgerM κ) κ) : Prop :=
  ∀ {frames frames' : List (Frame κ)} {a a' : Atom κ} {layout : BitLayout κ} {l l' : Ledger κ},
    a.info.layout = .bits layout → layout.Settable rules → a.info.seat = a'.info.seat →
      Together (part frames a) (part' frames' a') l l' fun out _ out' _ => out.MadeTwice a.info.site out'

variable {part part' : LoadPart (LedgerM κ) κ}

theorem made_allocateBitFields (hpart : MadeBits env.rules part part') (frames frames' : List (Frame κ))
    {f f' : Frame κ} (hf : f.plain = f'.plain) (hright : f.right = []) (index cursor : Nat)
    {fields : List (BitField κ (BitLayout κ))} {total width : Nat}
    (hstatic : staticBitsOfFields total fields = some width)
    (hfields : ∀ field ∈ fields, ∀ layout, field.layout = .given layout →
      layout.staticBits.isSome = true → layout.Settable env.rules) (l l' : Ledger κ) :
    Together (allocateBitFields env part frames f index cursor fields)
      (allocateBitFields env part' frames' f' index cursor fields) l l' fun out _ out' _ =>
        out.PartsMade (fields.map BitField.name) f out' := by
  induction fields generalizing f f' index cursor total l l' with
  | nil => exact Together.pure (.done hf hright)
  | cons field fields ih =>
    obtain ⟨layout, bits, hgiven, hbits, hrest⟩ := staticBitsOfFields_cons hstatic
    rw [List.forall_mem_cons] at hfields
    have hsettable := hfields.1 layout hgiven (by rw [hbits]; rfl)
    rw [allocateBitFields, allocateBitFields, hgiven]
    have hspawn : Together (LedgerM.spawn field.name (.bits layout) cursor)
        (LedgerM.spawn field.name (.bits layout) cursor) l l' fun a _ a' _ =>
          a.info.layout = .bits layout ∧ a.info.name = field.name ∧ a.info.seat = a'.info.seat :=
      ⟨rfl, rfl, rfl⟩
    refine hspawn.bind fun blank m blank' m' hm => ?_
    obtain ⟨hlayout, hname, hseat⟩ := hm
    refine (hpart hlayout hsettable hseat).bind fun out n out' n' hn => ?_
    cases hn with
    | @same a a' hsame hsite hsteady =>
      have hmore := ih (Frame.push_of_plain hf hsame) hright (index + 1) (satAdd cursor a.bits) hrest
        hfields.2 n n'
      have hcons := hmore.mono fun _ _ _ _ hv => Outcome.PartsMade.cons hsteady hv
      rw [Info.name_of_site hsite, hname, bits_of_plain hsame] at hcons
      dsimp only
      rw [bits_of_plain hsame]
      exact hcons
    | lost he => exact Outcome.PartsMade.lost he

theorem made_allocateBitElements (hpart : MadeBits env.rules part part') {element : BitLayout κ}
    (helement : element.Settable env.rules) (frames frames' : List (Frame κ)) (count : Nat)
    {f f' : Frame κ} (hf : f.plain = f'.plain) (hright : f.right = []) (index cursor : Nat)
    (l l' : Ledger κ) :
    Together (allocateBitElements part element frames count f index cursor)
      (allocateBitElements part' element frames' count f' index cursor) l l' fun out _ out' _ =>
        out.PartsMade ((List.range' index count).map toString) f out' := by
  induction count generalizing f f' index cursor l l' with
  | zero => exact Together.pure (.done hf hright)
  | succ count ih =>
    rw [allocateBitElements, allocateBitElements]
    have hspawn : Together (LedgerM.spawn (toString index) (.bits element) cursor)
        (LedgerM.spawn (toString index) (.bits element) cursor) l l' fun a _ a' _ =>
          a.info.layout = .bits element ∧ a.info.name = toString index ∧ a.info.seat = a'.info.seat :=
      ⟨rfl, rfl, rfl⟩
    refine hspawn.bind fun blank m blank' m' hm => ?_
    obtain ⟨hlayout, hname, hseat⟩ := hm
    refine (hpart hlayout helement hseat).bind fun out n out' n' hn => ?_
    cases hn with
    | @same a a' hsame hsite hsteady =>
      have hmore := ih (Frame.push_of_plain hf hsame) hright (index + 1) (satAdd cursor a.bits) n n'
      have hcons := hmore.mono fun _ _ _ _ hv => Outcome.PartsMade.cons hsteady hv
      rw [Info.name_of_site hsite, hname, bits_of_plain hsame] at hcons
      rw [List.range'_succ, List.map_cons]
      dsimp only
      rw [bits_of_plain hsame]
      exact hcons
    | lost he => exact Outcome.PartsMade.lost he

/-- Default bits of known width. -/
theorem echo_allocateBits (env : Env κ) {depth depth' : Nat} (hdepth : depth ≤ depth') :
    MadeBits env.rules (allocateBits env depth) (allocateBits env depth') := by
  induction depth generalizing depth' with
  | zero =>
    intro frames frames' a a' layout l l' _ _ _
    refine Together.left (p := fun out _ => ∃ a e, out = ⟨a, some e⟩ ∧ e.isConsume = false)
      ⟨_, _, rfl, rfl⟩ fun out _ _ _ hout => ?_
    obtain ⟨_, _, rfl, he⟩ := hout
    exact .lost he
  | succ depth ih =>
    obtain ⟨depth', rfl⟩ : ∃ d, depth' = d + 1 := ⟨depth' - 1, by omega⟩
    have hinner : MadeBits env.rules (allocateBits env depth) (allocateBits env depth') :=
      ih (Nat.le_of_succ_le_succ hdepth)
    intro frames frames' a a' layout l l' hlayout hsettable hseat
    rw [allocateBits, allocateBits, ← Info.layout_of_seat hseat, hlayout]
    have hclear : Together (LedgerM.clear a) (LedgerM.clear a') l l' fun b _ b' _ =>
        b = a.cleared ∧ b' = a'.cleared := ⟨rfl, rfl⟩
    refine hclear.bind fun b m b' m' hb => ?_
    obtain ⟨rfl, rfl⟩ := hb
    have hplain := info_of_plain (plain_cleared hseat)
    have hoffset : a.cleared.info.offset = a'.cleared.info.offset :=
      Info.offset_of_seat (Info.seat_of_plain hplain)
    have hcleared : a.cleared.info.layout = a.info.layout := Info.layout_of_site (site_cleared a)
    have hframe : (a.cleared.fill .group []).frame.plain = (a'.cleared.fill .group []).frame.plain := by
      rw [Frame.plain_frame, Frame.plain_frame, plain_fill_of_info hplain .group rfl]
    rw [← hoffset]
    obtain ⟨width, hstatic⟩ := Option.isSome_iff_exists.1 hsettable.static
    cases layout with
    | int bits signed =>
      refine Together.pure (.same ?_ ?_ ?_)
      · rw [plain_ready, plain_ready, plain_fill_of_info hplain _ rfl]
      · rw [site_ready]
        exact site_cleared a
      · refine everywhere_iff.2 ⟨?_, fun _ h => by cases h⟩
        show SteadyBits
          (.node { a.cleared.info with initialized := true } (.bits (Bitmap.ofNat 0 bits signed)) [])
        rw [SteadyBits, info_node, hcleared, hlayout]
        exact ⟨_, rfl, rfl, rfl, rfl, hsettable.ints _ _ (.here _)⟩
    | record name fields =>
      have hfields : ∀ field ∈ fields, ∀ layout, field.layout = .given layout →
          layout.staticBits.isSome = true → layout.Settable env.rules := by
        intro field hfield layout hgiven hsome
        refine hsettable.inner (.field hfield ?_ (.here layout)) hsome
        rw [hgiven]
        rfl
      refine (made_allocateBitFields hinner frames frames' hframe rfl 0 _ hstatic hfields m m').mono
        fun out t out' t' ht => ht.whole (site_cleared a) rfl fun parts hnames => ?_
      show SteadyBits (.node { a.cleared.info with initialized := true } .group parts)
      rw [SteadyBits, info_node, hcleared, hlayout]
      exact ⟨rfl, hnames, hsettable.names _ _ (.here _), fun field hfield =>
        (BitLayout.given_of_staticBitsOfFields hstatic field hfield).imp fun _ h => h.1⟩
    | array element shape =>
      obtain ⟨count, bits, rfl, hbits, -⟩ := BitLayout.static_of_array hstatic
      have helement : element.Settable env.rules :=
        hsettable.inner (.element (.here _)) (by rw [hbits]; rfl)
      refine (made_allocateBitElements hinner helement frames frames' count hframe rfl 0 _ m m').mono
        fun out t out' t' ht => ht.whole (site_cleared a) rfl fun parts _ => ?_
      show SteadyBits (.node { a.cleared.info with initialized := true } .group parts)
      rw [SteadyBits, info_node, hcleared, hlayout]
      rfl

end Allocate

/-! ## Atoms of bytes -/

/-- What became of the same atom twice: the same atom, or the bytes ran out both times. If the first
could not be loaded for another reason, nothing is said of the second. -/
inductive Outcome.Echo : Outcome κ → Outcome κ → Prop
  | same {a a' : Atom κ} (hplain : a.plain = a'.plain) : Echo ⟨a, none⟩ ⟨a', none⟩
  | short {a a' : Atom κ} {e e' : Error} (he : e.isConsume = true) (he' : e'.isConsume = true) :
    Echo ⟨a, some e⟩ ⟨a', some e'⟩
  | lost {a : Atom κ} {e : Error} {right : Outcome κ} (he : e.isConsume = false) : Echo ⟨a, some e⟩ right

namespace Outcome.Echo

/-- A failure of both, whatever it is. -/
theorem failed (a a' : Atom κ) (e : Error) : Outcome.Echo ⟨a, some e⟩ ⟨a', some e⟩ := by
  cases he : e.isConsume with
  | true => exact .short he he
  | false => exact .lost he

/-- A failure of both, seen from further out. -/
theorem within (a a' : Atom κ) {b b' : Atom κ} {e e' : Error} (h : Outcome.Echo ⟨a, some e⟩ ⟨a', some e'⟩)
    (outer outer' : Path) : Outcome.Echo ⟨b, some (e.within outer)⟩ ⟨b', some (e'.within outer')⟩ := by
  cases h with
  | short he he' =>
    exact .short ((Error.isConsume_within _ _).trans he) ((Error.isConsume_within _ _).trans he')
  | lost he => exact .lost ((Error.isConsume_within _ _).trans he)

end Outcome.Echo

/-- Whatever is done only reads and warns, so the views still echo. -/
theorem Together.kept {start : Nat} {m m' : LoadM κ α} {s s' : LoadState κ}
    {post : α → LoadState κ → α → LoadState κ → Prop} (hm : Harmless LoadState.record m)
    (hm' : Harmless LoadState.record m') (h : s.Echoes start s') (hboth : Together m m' s s' post) :
    Together m m' s s' fun a t a' t' => post a t a' t' ∧ t.Echoes start t' :=
  ⟨hboth, h.of_rewound (hm s).contents (hm' s').contents⟩

/-- What two views that echo make of the same atom. -/
structure EchoedBytes (rules : Rules κ) (part part' : LoadPart (LoadM κ) κ) : Prop where
  left : HarmlessPart LoadState.record part
  right : HarmlessPart LoadState.record part'
  accounted : Accounted LoadState.ledger part
  echo : ∀ {start : Nat} {frames frames' : List (Frame κ)} {a a' : Atom κ} {layout : Layout κ}
    {s s' : LoadState κ}, Frame.context frames = Frame.context frames' → a.info.seat = a'.info.seat →
    a.info.layout = .bytes layout → layout.Settable rules → start ≤ a.info.offset → s.Echoes start s' →
      Together (part frames a) (part' frames' a') s s' fun out _ out' _ => out.Echo out'

namespace EchoedBytes

variable {rules : Rules κ} {part part' : LoadPart (LoadM κ) κ} {start : Nat}
  {frames frames' : List (Frame κ)} {a a' : Atom κ} {layout : Layout κ} {s s' : LoadState κ}

/-- Loading an atom, after which the views still echo. -/
theorem run (hpart : EchoedBytes rules part part') (hframes : Frame.context frames = Frame.context frames')
    (hseat : a.info.seat = a'.info.seat) (hlayout : a.info.layout = .bytes layout)
    (hsettable : layout.Settable rules) (hstart : start ≤ a.info.offset) (h : s.Echoes start s') :
    Together (part frames a) (part' frames' a') s s' fun out t out' t' =>
      out.Echo out' ∧ t.Echoes start t' :=
  (hpart.echo hframes hseat hlayout hsettable hstart h).kept (hpart.left _ _) (hpart.right _ _) h

/-- Loading an atom through windows. -/
theorem inWindow (hpart : EchoedBytes rules part part') (hframes : Frame.context frames = Frame.context frames')
    (hseat : a.info.seat = a'.info.seat) (hlayout : a.info.layout = .bytes layout)
    (hsettable : layout.Settable rules) (hstart : start ≤ a.info.offset) (limit : Nat)
    (h : s.Echoes start s') :
    Together (LoadM.inWindow limit (part frames a)) (LoadM.inWindow limit (part' frames' a')) s s'
      fun out t out' t' => out.Echo out' ∧ t.Echoes start t' :=
  Together.inWindow (hpart.left _ _) (hpart.right _ _) h fun _ _ ht =>
    hpart.echo hframes hseat hlayout hsettable hstart ht

/-- Loading an atom from the same bytes. -/
theorem fromBytes (hpart : EchoedBytes rules part part') (hframes : Frame.context frames = Frame.context frames')
    (hseat : a.info.seat = a'.info.seat) (hlayout : a.info.layout = .bytes layout)
    (hsettable : layout.Settable rules) (bytes : Bytes) (origin : Nat) (l l' : Ledger κ) :
    Together (LedgerM.fromBytes bytes origin (part frames a))
      (LedgerM.fromBytes bytes origin (part' frames' a')) l l' fun out _ out' _ => out.Echo out' :=
  have hsame : LoadState.Echoes 0 ⟨l, [], .ofBytes bytes origin⟩ ⟨l', [], .ofBytes bytes origin⟩ :=
    View.Echoes.refl 0 _
  hpart.echo hframes hseat hlayout hsettable (Nat.zero_le _) hsame

end EchoedBytes

namespace LoadM

variable {start : Nat} {s s' : LoadState κ}

/-- A new atom. -/
theorem echo_spawn (h : s.Echoes start s') (name : String) (layout : AtomLayout κ) (offset : Nat) :
    Together (ofLedger (LedgerM.spawn name layout offset)) (ofLedger (LedgerM.spawn name layout offset)) s s'
      fun a t a' t' => (a.info.layout = layout ∧ a.info.offset = offset ∧ a.info.seat = a'.info.seat)
        ∧ t.Echoes start t' :=
  ⟨⟨rfl, rfl, rfl⟩, h⟩

/-- Handles and warnings do not matter to what is read. -/
theorem echo_ofLedger (h : s.Echoes start s') (m m' : LedgerM κ α) :
    Together (ofLedger m) (ofLedger m') s s' fun _ t _ t' => t.Echoes start t' :=
  h

end LoadM

section Load

variable {env : Env κ} {part part' : LoadPart (LoadM κ) κ} {start : Nat} {s s' : LoadState κ}

theorem echo_loadLeaf {layout : Layout κ} (hlayout : layout.SettableHere env.rules)
    {frames frames' : List (Frame κ)} (hframes : Frame.base frames = Frame.base frames') {a a' : Atom κ}
    (ha : a.plain = a'.plain) (hstart : start ≤ a.info.offset) (h : s.Echoes start s') :
    Together (loadLeaf env layout frames a) (loadLeaf env layout frames' a') s s' fun out _ out' _ =>
      out.Echo out' := by
  rw [loadLeaf, loadLeaf, ← offset_of_plain ha]
  refine (LoadM.echo_readLeaf env.config hframes hlayout h hstart).bind fun result t result' t' ht => ?_
  cases ht with
  | @same raw t t' _ =>
    have hinfo : ({ a.info with undecodable := layout.isUndecodable raw } : Info κ).plain =
        ({ a'.info with undecodable := layout.isUndecodable raw } : Info κ).plain := info_of_plain ha
    have hmade : Outcome.Echo
        ⟨((a.mapInfo fun info => { info with undecodable := layout.isUndecodable raw }).withBytes
          layout raw).ready, none⟩
        ⟨((a'.mapInfo fun info => { info with undecodable := layout.isUndecodable raw }).withBytes
          layout raw).ready, none⟩ := by
      refine .same ?_
      rw [plain_ready, plain_ready, withBytes_eq, withBytes_eq]
      refine plain_fill_of_info ?_ _ rfl
      rw [info_mapInfo, info_mapInfo]
      exact hinfo
    dsimp only
    -- A warning names the place, which is not compared.
    cases layout.warning? (Place.path ⟨a, frames⟩) raw <;>
      cases layout.warning? (Place.path ⟨a', frames'⟩) raw <;> exact hmade
  | short he he' _ => exact Together.pure (.short he he')
  | lost he => exact Outcome.Echo.lost he

/-! ### Arrays -/

theorem echo_loadCounted (hpart : EchoedBytes env.rules part part') {element : Layout κ}
    (helement : element.Settable env.rules) (frames frames' : List (Frame κ)) (count : Nat)
    {f f' : Frame κ} (hf : f.plain = f'.plain) (index : Nat) {cursor : Nat} (hstart : start ≤ cursor)
    (h : s.Echoes start s') :
    Together (loadCounted part element frames count f index cursor)
      (loadCounted part' element frames' count f' index cursor) s s' fun out _ out' _ => out.Echo out' := by
  induction count generalizing f f' index cursor s s' with
  | zero =>
    refine Together.pure (.same ?_)
    rw [plain_ready, plain_ready, Frame.close_of_plain hf]
  | succ count ih =>
    rw [loadCounted, loadCounted]
    refine (LoadM.echo_spawn h (toString index) (.bytes element) cursor).bind
      fun blank t blank' t' ht => ?_
    obtain ⟨⟨hlayout, hoffset, hseat⟩, ht⟩ := ht
    refine (hpart.run (Frame.context_cons_of_plain hf _ _) hseat hlayout helement (hoffset.symm ▸ hstart)
      ht).bind fun out u out' u' hu => ?_
    obtain ⟨hout, hu⟩ := hu
    obtain ⟨a, error?⟩ := out
    obtain ⟨a', error?'⟩ := out'
    cases hout with
    | same hsame =>
      dsimp only
      rw [size_of_plain hsame]
      split
      · exact Together.pure (Outcome.Echo.failed _ _ _)
      · rename_i next hspan
        obtain ⟨rfl, -⟩ := spanEnd_eq hspan
        exact ih (Frame.push_of_plain hf hsame) (index + 1) (Nat.le_trans hstart (Nat.le_add_right _ _)) hu
    | short he he' => exact Together.pure (Outcome.Echo.within a a' (.short he he') _ _)
    | lost he => exact Outcome.Echo.lost ((Error.isConsume_within _ _).trans he)

/-- What became of the elements of the same block array twice. -/
inductive BlockOutcome.Echo (start : Nat) : BlockOutcome κ → BlockOutcome κ → Prop
  | same {a a' : Atom κ} {cursor : Nat} (hplain : a.plain = a'.plain) (hstart : start ≤ cursor) :
    Echo start ⟨a, cursor, none⟩ ⟨a', cursor, none⟩
  | short {a a' : Atom κ} {cursor cursor' : Nat} {e e' : Error} (he : e.isConsume = true)
    (he' : e'.isConsume = true) : Echo start ⟨a, cursor, some e⟩ ⟨a', cursor', some e'⟩
  | lost {a : Atom κ} {cursor : Nat} {e : Error} {right : BlockOutcome κ} (he : e.isConsume = false) :
    Echo start ⟨a, cursor, some e⟩ right

theorem echo_loadBlockElements (hpart : EchoedBytes env.rules part part') {element : Layout κ}
    (helement : element.Settable env.rules) (limit : Nat) (frames frames' : List (Frame κ)) (fuel : Nat)
    {f f' : Frame κ} (hf : f.plain = f'.plain) (index : Nat) {cursor : Nat} (hstart : start ≤ cursor)
    (h : s.Echoes start s') :
    Together (loadBlockElements part element limit frames fuel f index cursor)
      (loadBlockElements part' element limit frames' fuel f' index cursor) s s' fun out _ out' _ =>
        out.Echo start out' := by
  induction fuel generalizing f f' index cursor s s' with
  | zero => exact Together.pure (.same (Frame.close_of_plain hf) hstart)
  | succ fuel ih =>
    rw [loadBlockElements, loadBlockElements]
    split
    · exact Together.pure (.same (Frame.close_of_plain hf) hstart)
    · split
      · exact Together.pure (.same (Frame.close_of_plain hf) hstart)
      · rename_i layout hnext
        refine (LoadM.echo_spawn h (toString index) (.bytes layout) cursor).bind
          fun blank t blank' t' ht => ?_
        obtain ⟨⟨hlayout, hoffset, hseat⟩, ht⟩ := ht
        refine (hpart.inWindow (Frame.context_cons_of_plain hf _ _) hseat hlayout (helement.nextInBlock hnext)
          (hoffset.symm ▸ hstart) limit ht).bind fun out u out' u' hu => ?_
        obtain ⟨hout, hu⟩ := hu
        obtain ⟨a, error?⟩ := out
        obtain ⟨a', error?'⟩ := out'
        cases hout with
        | same hsame =>
          dsimp only
          rw [size_of_plain hsame]
          split
          · exact Together.pure (.same (Frame.close_of_plain (Frame.push_of_plain hf hsame)) hstart)
          · split
            · rename_i e _
              cases he : e.isConsume with
              | true =>
                exact Together.pure (.short ((Error.isConsume_within _ _).trans he)
                  ((Error.isConsume_within _ _).trans he))
              | false => exact Together.pure (.lost ((Error.isConsume_within _ _).trans he))
            · rename_i next hspan
              obtain ⟨rfl, -⟩ := spanEnd_eq hspan
              exact ih (Frame.push_of_plain hf hsame) (index + 1)
                (Nat.le_trans hstart (Nat.le_add_right _ _)) hu
        | short he he' =>
          dsimp only
          simp only [he, he', true_and]
          split
          · exact Together.via (fun _ _ _ _ => True) trivial fun _ _ _ _ _ =>
              Together.pure (.same (Frame.close_of_plain hf) hstart)
          · exact Together.pure (.short ((Error.isConsume_within _ _).trans he)
              ((Error.isConsume_within _ _).trans he'))
        | @lost _ e _ he =>
          refine Together.left (p := fun out _ => ∃ a cursor, out = ⟨a, cursor, some (e.within
            [Path.index index])⟩) ?_ fun out _ _ _ hlost => ?_
          · dsimp only
            rw [if_neg (by simp [he])]
            exact ⟨_, _, rfl⟩
          · obtain ⟨_, _, rfl⟩ := hlost
            exact .lost ((Error.isConsume_within _ _).trans he)

theorem echo_loadBlock (hpart : EchoedBytes env.rules part part') {element : Layout κ}
    (helement : element.Settable env.rules) (extent : Nat) (frames frames' : List (Frame κ))
    {a a' : Atom κ} (ha : a.plain = a'.plain) (hstart : start ≤ a.info.offset) (h : s.Echoes start s') :
    Together (loadBlock part element extent frames a) (loadBlock part' element extent frames' a') s s'
      fun out _ out' _ => out.Echo out' := by
  rw [loadBlock, loadBlock, ← offset_of_plain ha]
  split
  · exact Together.pure (Outcome.Echo.failed _ _ _)
  · rename_i limit _
    have hframe : a.frame.plain = a'.frame.plain := by
      rw [Frame.plain_frame, Frame.plain_frame, ha]
    refine ((echo_loadBlockElements hpart helement limit frames frames' extent hframe 0 hstart h).kept
      (harmless_loadBlockElements hpart.left _ _ _ _ _ _ _)
      (harmless_loadBlockElements hpart.right _ _ _ _ _ _ _) h).bind fun out t out' t' ht => ?_
    obtain ⟨hout, ht⟩ := ht
    cases hout with
    | @same b b' cursor hsame hcursor =>
      dsimp only
      split
      · exact Together.pure (.same (by rw [plain_ready, plain_ready, hsame]))
      · refine (LoadM.echo_readAt _ ht hcursor).bind fun result u result' u' hu => ?_
        cases hu with
        | same _ =>
          refine Together.via (fun _ _ _ _ => True) trivial fun _ _ _ _ _ => Together.pure (.same ?_)
          rw [plain_ready, plain_ready, plain_withTail _ hsame]
        | short he he' _ => exact Together.pure (.short he he')
        | lost he => exact Outcome.Echo.lost he
    | short he he' => exact Together.pure (.short he he')
    | lost he => exact Outcome.Echo.lost he

/-- What an open array does with an element that could not be loaded. -/
theorem echo_dropElement {f f' : Frame κ} (hf : f.plain = f'.plain) (index : Nat)
    (frames frames' : List (Frame κ)) {a a' : Atom κ} {e e' : Error} (he : e.isConsume = true)
    (he' : e'.isConsume = true)
    (h : s.Echoes start s') :
    Together
      (do
        LoadM.ofLedger (LedgerM.release a)
        if (← LoadM.viewEnd).isSome then
          LoadM.ofLedger (LedgerM.warn (.unterminatedArray (Place.path ⟨f.close, frames⟩) index))
          return ⟨f.close.ready, none⟩
        return ⟨f.close, some (e.within [Path.index index])⟩ : LoadM κ (Outcome κ))
      (do
        LoadM.ofLedger (LedgerM.release a')
        if (← LoadM.viewEnd).isSome then
          LoadM.ofLedger (LedgerM.warn (.unterminatedArray (Place.path ⟨f'.close, frames'⟩) index))
          return ⟨f'.close.ready, none⟩
        return ⟨f'.close, some (e'.within [Path.index index])⟩)
      s s' fun out _ out' _ => out.Echo out' := by
  refine (LoadM.echo_ofLedger h _ _).bind fun _ t _ t' ht =>
    (LoadM.echo_viewEnd ht).bind fun end? u end?' u' hu => ?_
  rw [← hu.1]
  split
  · refine Together.via (fun _ _ _ _ => True) trivial fun _ _ _ _ _ => Together.pure (.same ?_)
    rw [plain_ready, plain_ready, Frame.close_of_plain hf]
  · exact Together.pure (Outcome.Echo.within a a' (.short he he') _ _)

theorem echo_loadOpen (hpart : EchoedBytes env.rules part part') {element : Layout κ}
    (helement : element.Settable env.rules) {rule : κ} (hrule : env.rules.SeesSoFar rule)
    {frames frames' : List (Frame κ)} (hframes : Frame.context frames = Frame.context frames') (budget : Nat) {f f' : Frame κ} (hf : f.plain = f'.plain)
    (index : Nat) {cursor : Nat} (hstart : start ≤ cursor) (h : s.Echoes start s') :
    Together (loadOpen env part element (some rule) frames budget f index cursor)
      (loadOpen env part' element (some rule) frames' budget f' index cursor) s s' fun out _ out' _ =>
        out.Echo out' := by
  induction budget generalizing f f' index cursor s s' with
  | zero => exact Together.pure (Outcome.Echo.failed _ _ _)
  | succ budget ih =>
    rw [loadOpen, loadOpen]
    refine (LoadM.echo_viewEnd h).bind fun end? t end?' t' ht => ?_
    rw [show endsAt (some rule) end? cursor = false from rfl,
      show endsAt (some rule) end?' cursor = false from rfl]
    refine ((LoadM.echo_spawn ht.2 (toString index) (.bytes element) cursor).andLeft
      (LoadM.ends_spawn (toString index) (.bytes element) cursor t)).bind fun blank u blank' u' hu => ?_
    obtain ⟨⟨hblank, -⟩, ⟨hlayout, hoffset, hseat⟩, hu⟩ := hu
    refine ((hpart.run (Frame.context_cons_of_plain hf _ _) hseat hlayout helement (hoffset.symm ▸ hstart)
      hu).andLeft (hpart.accounted _ _ _ hblank)).bind fun out v out' v' hv => ?_
    obtain ⟨haccounts, hout, hv⟩ := hv
    obtain ⟨a, error?⟩ := out
    obtain ⟨a', error?'⟩ := out'
    cases hout with
    | same hsame =>
      dsimp only
      rw [size_of_plain hsame]
      split
      · exact Together.pure (Outcome.Echo.failed _ _ _)
      · rename_i next hspan
        obtain ⟨rfl, -⟩ := spanEnd_eq hspan
        have hbytes : a.isBits = false := by
          rw [isBits, Info.layout_of_site haccounts.site, hlayout]
          rfl
        have hlast : isLast env (some rule) (index + 1) ⟨a, f :: frames⟩ =
            isLast env (some rule) (index + 1) ⟨a', f' :: frames'⟩ :=
          hrule hbytes haccounts.shaped hsame hf hframes
        rw [hlast]
        split
        · refine Together.pure (.same ?_)
          rw [plain_ready, plain_ready, Frame.plug_of_plain hf hsame]
        · exact ih (Frame.push_of_plain hf hsame) (index + 1)
            (Nat.le_trans hstart (Nat.le_add_right _ _)) hv
    | @short _ _ e e' he he' =>
      dsimp only
      rw [he, he']
      exact echo_dropElement hf index frames frames' he he' hv
    | @lost _ e _ he =>
      refine Together.left (p := fun out _ => ∃ b, out = ⟨b, some (e.within [Path.index index])⟩) ?_
        fun out _ _ _ hlost => ?_
      · dsimp only
        rw [he]
        exact ⟨_, rfl⟩
      · obtain ⟨_, rfl⟩ := hlost
        exact .lost ((Error.isConsume_within _ _).trans he)

/-! ### Records and unions -/

theorem echo_loadFields (hpart : EchoedBytes env.rules part part')
    (frames frames' : List (Frame κ)) {f f' : Frame κ} (hf : f.plain = f'.plain)
    (hgroup : f.content = .group) (index : Nat) {cursor : Nat} (hstart : start ≤ cursor)
    {fields : List (Field κ (Layout κ))}
    (hsized : ∀ field ∈ fields, field.extent? = none ∧ field.layout.SeesEarlier env.rules)
    (hfields : ∀ field ∈ fields, ∀ layout, field.layout.Offers env.rules.layout layout →
      layout.Settable env.rules)
    (h : s.Echoes start s') :
    Together (loadFields env part frames f index cursor fields)
      (loadFields env part' frames' f' index cursor fields) s s' fun out _ out' _ => out.Echo out' := by
  induction fields generalizing f f' index cursor s s' with
  | nil => exact Together.pure (.same (by rw [plain_ready, plain_ready, Frame.close_of_plain hf]))
  | cons field fields ih =>
    rw [List.forall_mem_cons] at hsized hfields
    have hagree : Place.AgreeBefore index ⟨f.close, frames⟩ ⟨f'.close, frames'⟩ := by
      refine ⟨hgroup, (Frame.content_of_plain hf).symm.trans hgroup, ?_⟩
      rw [List.map_take, List.map_take, parts_of_plain (Frame.close_of_plain hf)]
    rw [loadFields, loadFields]
    cases hresolve : env.resolve ⟨f.close, frames⟩ index field.layout with
    | error e =>
      have he : (e.within [field.name]).isConsume = false :=
        (Error.isConsume_within _ _).trans (Env.isConsume_resolve hresolve)
      refine Together.left (p := fun out _ => out = ⟨f.close, some (e.within [field.name])⟩) ?_
        fun _ _ _ _ hlost => hlost ▸ .lost he
      exact Ends.pure rfl
    | ok layout =>
      rw [Env.resolve_of_earlier hsized.1.2 hagree hresolve]
      dsimp only
      refine (LoadM.echo_spawn h field.name (.bytes layout) cursor).bind fun blank t blank' t' ht => ?_
      obtain ⟨⟨hlayout, hoffset, hseat⟩, ht⟩ := ht
      rw [hsized.1.1, loadField, loadField]
      refine (hpart.run (Frame.context_cons_of_plain hf _ _) hseat hlayout
        (hfields.1 layout (Env.offers_of_resolve hresolve)) (hoffset.symm ▸ hstart) ht).bind
          fun out u out' u' hu => ?_
      obtain ⟨hout, hu⟩ := hu
      obtain ⟨a, error?⟩ := out
      obtain ⟨a', error?'⟩ := out'
      cases hout with
      | same hsame =>
        dsimp only
        rw [size_of_plain hsame]
        split
        · exact Together.pure (Outcome.Echo.failed _ _ _)
        · rename_i next hspan
          obtain ⟨rfl, -⟩ := spanEnd_eq hspan
          exact ih (Frame.push_of_plain hf hsame) hgroup (index + 1)
            (Nat.le_trans hstart (Nat.le_add_right _ _)) hsized.2 hfields.2 hu
      | short he he' => exact Together.pure (Outcome.Echo.within a a' (.short he he') _ _)
      | lost he => exact Outcome.Echo.lost ((Error.isConsume_within _ _).trans he)

theorem echo_loadMembers (hpart : EchoedBytes env.rules part part') (backing : Bytes)
    (frames frames' : List (Frame κ)) {f f' : Frame κ} (hf : f.plain = f'.plain)
    {members : List (String × Layout κ)} (hmembers : ∀ member ∈ members, member.2.Settable env.rules)
    (s s' : LoadState κ) :
    Together (loadMembers part backing frames f members) (loadMembers part' backing frames' f' members)
      s s' fun out _ out' _ => out.Echo out' := by
  induction members generalizing f f' s s' with
  | nil => exact Together.pure (.same (by rw [plain_ready, plain_ready, Frame.close_of_plain hf]))
  | cons member members ih =>
    rw [List.forall_mem_cons] at hmembers
    obtain ⟨name, layout⟩ := member
    rw [loadMembers, loadMembers, ← Frame.offset_of_plain hf]
    have hspawn : Together (LoadM.ofLedger (LedgerM.spawn name (.bytes layout) f.info.offset))
        (LoadM.ofLedger (LedgerM.spawn name (.bytes layout) f.info.offset)) s s' fun a _ a' _ =>
          a.info.layout = .bytes layout ∧ a.info.seat = a'.info.seat := ⟨rfl, rfl⟩
    refine hspawn.bind fun blank t blank' t' ht => ?_
    obtain ⟨hlayout, hseat⟩ := ht
    have hload : Together (LoadM.fromBytes backing f.info.offset (part (f :: frames) blank))
        (LoadM.fromBytes backing f.info.offset (part' (f' :: frames') blank')) t t'
          fun out _ out' _ => out.Echo out' :=
      hpart.fromBytes (Frame.context_cons_of_plain hf _ _) hseat hlayout hmembers.1 _ _ t.ledger t'.ledger
    refine hload.bind fun out u out' u' hu => ?_
    cases hu with
    | same hsame => exact ih (Frame.push_of_plain hf hsame) hmembers.2 u u'
    | @short a a' e e' he he' =>
      exact Together.pure (Outcome.Echo.within a a' (.short he he') _ _)
    | lost he => exact Outcome.Echo.lost ((Error.isConsume_within _ _).trans he)

theorem echo_loadUnion (hpart : EchoedBytes env.rules part part') {members : List (String × Layout κ)}
    (hmembers : ∀ member ∈ members, member.2.Settable env.rules) (size : Nat)
    (frames frames' : List (Frame κ)) {a a' : Atom κ} (ha : a.plain = a'.plain)
    (hstart : start ≤ a.info.offset) (h : s.Echoes start s') :
    Together (loadUnion part members size frames a) (loadUnion part' members size frames' a') s s'
      fun out _ out' _ => out.Echo out' := by
  rw [loadUnion, loadUnion, ← offset_of_plain ha]
  refine (LoadM.echo_readAt _ h hstart).bind fun result t result' t' ht => ?_
  cases ht with
  | same _ =>
    refine echo_loadMembers hpart _ frames frames' ?_ hmembers _ _
    rw [Frame.plain_frame, Frame.plain_frame, plain_fill_of_info (info_of_plain ha) _ rfl]
  | short he he' _ => exact Together.pure (.short he he')
  | lost he => exact Outcome.Echo.lost he

/-! ### Hosts of bits -/

/-- What became of the root of the same host twice: both times it is the same, and its bits and the
unused ones are those of the bytes read, or the bytes ran out. -/
inductive Outcome.EchoedRoot (width : Nat) (order : ByteOrder) (offset : Nat) (site : Info κ) (v : View) :
    Outcome κ × Bitmap → Outcome κ × Bitmap → Prop
  | same {a a' : Atom κ} {pad : Bitmap} (hplain : a.plain = a'.plain) (hsite : a.info.site = site)
    (hsteady : Everywhere SteadyBits a) (hfills : pad.Fills a.bitCount) {bytes : Bytes}
    (hpack : BitStream.pack order (BitStream.close order (stream order a) pad) = bytes)
    (hbytes : v.Spells offset bytes) (hlength : bytes.length = bytesOfBits width) :
    EchoedRoot width order offset site v (⟨a, none⟩, pad) (⟨a', none⟩, pad)
  | short {a a' : Atom κ} {e e' : Error} {pad pad' : Bitmap} (he : e.isConsume = true)
    (he' : e'.isConsume = true) : EchoedRoot width order offset site v (⟨a, some e⟩, pad) (⟨a', some e'⟩, pad')
  | lost {a : Atom κ} {e : Error} {pad : Bitmap} {right : Outcome κ × Bitmap} (he : e.isConsume = false) :
    EchoedRoot width order offset site v (⟨a, some e⟩, pad) right

/-- Bits read by two views that stand at an offset and give the same bytes, as far as these bits go. -/
theorem BitLoadM.echo_run (env : Env κ) {depth depth' : Nat} (hdepth : depth ≤ depth') (order : ByteOrder)
    {offset width : Nat} (frames frames' : List (Frame κ)) {a a' : Atom κ} {layout : BitLayout κ}
    (hlayout : a.info.layout = .bits layout) (hsettable : layout.Settable env.rules)
    (hstatic : layout.staticBits = some width) (ha : a.info.plain = a'.info.plain)
    (hleft : s.view.StandsAt offset) (hright : s'.view.StandsAt offset)
    (hbytes : ∀ k, offset ≤ k → k < offset + bytesOfBits width →
      Echo SourceError.isConsume (s.view.given k 1) (s'.view.given k 1)) :
    Together (run order offset (loadBits env depth frames a))
      (run order offset (loadBits env depth' frames' a')) s s' fun result _ result' _ =>
        Outcome.EchoedRoot width order offset a.info.site s.view result result' := by
  have hroom : width ≤ BitLoadState.room (offset + bytesOfBits width) ⟨s, .new order, offset⟩ := by
    simp only [BitLoadState.room, BitLoadState.pending_mk, BitReader.pending_new, List.length_nil, bytesOfBits]
    omega
  have hechoes : BitLoadState.Echoes (offset + bytesOfBits width) ⟨s, .new order, offset⟩
      ⟨s', .new order, offset⟩ := ⟨rfl, rfl, Nat.le_add_right _ _, hleft, hright, hbytes⟩
  have hboth : Together (loadBits env depth frames a) (loadBits env depth' frames' a') _ _ _ :=
    echo_loadBits env hdepth hlayout hsettable hstatic ha hechoes hroom
  simp only [Together, run, modifyGet, MonadStateOf.modifyGet, StateT.modifyGet, Pure.pure] at hboth ⊢
  generalize loadBits env depth frames a ⟨s, .new order, offset⟩ = left at hboth ⊢
  generalize loadBits env depth' frames' a' ⟨s', .new order, offset⟩ = right at hboth ⊢
  obtain ⟨out, t⟩ := left
  obtain ⟨out', t'⟩ := right
  cases hboth with
  | @same b b' _ _ hplain hsite hsteady hwidth hhanded h =>
    have hfew : t.pending.length < 8 := hhanded.few (by simp)
    obtain ⟨read, hread, -, hbits⟩ := hhanded.bytes
    obtain rfl : t.order = order := hhanded.order
    simp only [BitLoadState.pending_mk, BitReader.pending_new, List.nil_append] at hbits hread
    have hlength := congrArg List.length hbits
    rw [List.length_append, BitStream.length_flatMap_ofByte, length_stream, hwidth] at hlength
    dsimp only
    rw [h.reader]
    refine .same hplain hsite hsteady ?_ ?_ hread ?_
    · rw [Bitmap.Fills, BitReader.width_pad, ← t.length_pending, hwidth]
      omega
    · have hclose : BitStream.close t.order (stream t.order b) t.reader.pad = stream t.order b ++ t.pending :=
        t.reader.close_pad hfew (by rw [← BitLoadState.pending, length_stream, hwidth]; omega)
      rw [hclose]
      exact (congrArg _ hbits.symm).trans (BitStream.pack_flatMap _ _)
    · rw [bytesOfBits]
      omega
  | short he he' => exact .short he he'
  | lost he => exact .lost he

theorem echo_loadRoot {depth depth' : Nat} (hdepth : depth ≤ depth') (order : ByteOrder)
    {layout : BitLayout κ} (hsettable : layout.Settable env.rules) (frames frames' : List (Frame κ))
    {a a' root root' : Atom κ} (ha : a.plain = a'.plain) (hlayout : root.info.layout = .bits layout)
    (hroot : root.info.plain = root'.info.plain) (hstart : start ≤ a.info.offset) (h : s.Echoes start s') :
    Together (loadRoot env depth order frames a root) (loadRoot env depth' order frames' a' root') s s'
      fun out _ out' _ => out.Echo out' := by
  obtain ⟨width, hstatic⟩ := Option.isSome_iff_exists.1 hsettable.static
  rw [loadRoot, loadRoot, ← offset_of_plain ha]
  refine (LoadM.echo_seekTo 1 h hstart).bind fun result t result' t' ht => ?_
  cases ht with
  | same hat =>
    refine (BitLoadM.echo_run env hdepth order _ _ hlayout hsettable hstatic hroot hat.left hat.right
      fun k hk _ => hat.echoes.given k 1 (Nat.le_trans hstart hk) Nat.one_pos).bind
        fun result u result' u' hu => ?_
    cases hu with
    | same hsame =>
      refine Together.pure (.same ?_)
      rw [plain_ready, plain_ready]
      exact plain_fill_of_info (info_of_plain ha) _ (congrArg (fun b => [b]) hsame)
    | short he he' => exact Together.pure (.short he he')
    | lost he => exact Outcome.Echo.lost he
  | short he he' _ => exact Together.pure (.short he he')
  | lost he => exact Outcome.Echo.lost he

theorem echo_loadHost {depth depth' : Nat} (hdepth : depth ≤ depth') (order : ByteOrder)
    {layout : BitLayout κ} (hsettable : layout.Settable env.rules) (frames frames' : List (Frame κ))
    {a a' : Atom κ} (ha : a.plain = a'.plain) (hstart : start ≤ a.info.offset) (h : s.Echoes start s') :
    Together (loadHost env depth layout order frames a) (loadHost env depth' layout order frames' a') s s'
      fun out _ out' _ => out.Echo out' := by
  rw [loadHost, loadHost, ← offset_of_plain ha]
  split
  · exact Together.pure (Outcome.Echo.failed _ _ _)
  · rename_i position _
    have hspawn : Together (LoadM.ofLedger (LedgerM.spawn "" (.bits layout) position))
        (LoadM.ofLedger (LedgerM.spawn "" (.bits layout) position)) s s' fun root t root' t' =>
          (root.info.layout = .bits layout ∧ root.info.plain = root'.info.plain) ∧ t.Echoes start t' :=
      ⟨⟨rfl, rfl⟩, h⟩
    refine hspawn.bind fun root t root' t' ht => ?_
    obtain ⟨⟨hlayout, hroot⟩, ht⟩ := ht
    dsimp only
    split
    · have hmade : Together
          (LoadM.ofLedger (allocateBits env depth ((a.fill (.host .empty) []).frame :: frames) root))
          (LoadM.ofLedger (allocateBits env depth' ((a'.fill (.host .empty) []).frame :: frames') root'))
          t t' fun out _ out' _ => out.MadeTwice root.info.site out' :=
        echo_allocateBits env hdepth hlayout hsettable (Info.seat_of_plain hroot)
      refine hmade.bind fun out u out' u' hu => ?_
      cases hu with
      | same hsame =>
        refine Together.pure (.same ?_)
        rw [plain_ready, plain_ready]
        exact plain_fill_of_info (info_of_plain ha) _ (congrArg (fun b => [b]) hsame)
      | lost he => exact Outcome.Echo.lost he
    · exact echo_loadRoot hdepth order hsettable frames frames' ha hlayout hroot hstart ht

/-- An atom of bytes. -/
theorem echo_load (env : Env κ) {depth depth' : Nat} (hdepth : depth ≤ depth') :
    EchoedBytes env.rules (load env depth) (load env depth') := by
  have haccounted (depth : Nat) : Accounted LoadState.ledger (load env depth) :=
    fun frames a s hblank => accounts_load env depth frames (.inl hblank.shaped) s
  induction depth generalizing depth' with
  | zero =>
    refine ⟨harmless_load env _, harmless_load env _, haccounted _, fun _ _ _ _ _ _ => ?_⟩
    exact Together.left (p := fun out _ => ∃ a e, out = ⟨a, some e⟩ ∧ e.isConsume = false)
      ⟨_, _, rfl, rfl⟩ fun _ _ _ _ ⟨_, _, hout, he⟩ => hout ▸ .lost he
  | succ depth ih =>
    obtain ⟨depth', rfl⟩ : ∃ d, depth' = d + 1 := ⟨depth' - 1, by omega⟩
    have hinner : EchoedBytes env.rules (load env depth) (load env depth') :=
      ih (Nat.le_of_succ_le_succ hdepth)
    refine ⟨harmless_load env _, harmless_load env _, haccounted _, ?_⟩
    intro start frames frames' a a' layout s s' hframes hseat hlayout hsettable hstart h
    rw [load, load, ← Info.layout_of_seat hseat, hlayout]
    have hclear : Together (LoadM.ofLedger (LedgerM.clear a)) (LoadM.ofLedger (LedgerM.clear a')) s s'
        fun b t b' t' => (b = a.cleared ∧ b' = a'.cleared) ∧ t.Echoes start t' := ⟨⟨rfl, rfl⟩, h⟩
    refine hclear.bind fun b t b' t' hb => ?_
    obtain ⟨⟨rfl, rfl⟩, ht⟩ := hb
    have hplain := plain_cleared hseat
    have hoffset : a.cleared.info.offset = a.info.offset := Info.offset_of_site (site_cleared a)
    have hsame : a'.cleared.info.offset = a.info.offset :=
      (offset_of_plain hplain).symm.trans hoffset
    rw [← hoffset] at hstart
    have hgroup : (a.cleared.fill .group []).plain = (a'.cleared.fill .group []).plain :=
      plain_fill_of_info (info_of_plain hplain) .group rfl
    have hframe : (a.cleared.fill .group []).frame.plain = (a'.cleared.fill .group []).frame.plain := by
      rw [Frame.plain_frame, Frame.plain_frame, hgroup]
    have hleaf (hhere : layout.SettableHere env.rules) :
        Together (loadLeaf env layout frames a.cleared) (loadLeaf env layout frames' a'.cleared) t t'
          fun out _ out' _ => out.Echo out' := 
          echo_loadLeaf hhere (Frame.base_of_context hframes) hplain hstart ht
    cases layout with
    | record name fields =>
      dsimp only
      rw [hsame, ← hoffset]
      exact echo_loadFields hinner frames frames' hframe rfl 0 hstart hsettable.here.2
        (fun field hfield layout hoffers => hsettable.inner (.field hfield hoffers (.here _))) ht
    | array element shape =>
      have helement : element.Settable env.rules := hsettable.element
      cases shape with
      | counted count =>
        dsimp only
        rw [hsame, ← hoffset]
        exact echo_loadCounted hinner helement frames frames' count hframe 0 hstart ht
      | block extent => exact echo_loadBlock hinner helement extent frames frames' hgroup hstart ht
      | terminated rule =>
        dsimp only
        rw [hsame, ← hoffset]
        exact echo_loadOpen hinner helement hsettable.here hframes _ hframe 0 hstart ht
      | unending => exact absurd rfl hsettable.ends
    | union name members size =>
      exact echo_loadUnion hinner (fun member hmember => hsettable.inner (.member hmember (.here _))) size
        frames frames' hplain hstart ht
    | bits root order =>
      exact echo_loadHost (Nat.le_of_succ_le_succ hdepth) order hsettable.here frames frames' hplain hstart ht
    | int | float | fixed | varint | text | block | constant | padding | align | pointer =>
      exact hleaf hsettable.here

end Load

end BinaryLayout
