import BinaryLayout.Proofs.Document.Rules
import BinaryLayout.Proofs.Locality.Load
import BinaryLayout.Proofs.RoundTrip.Load

/-!
# Loading depends on the bytes of the atom alone

What an outermost atom is loaded into is decided by the bytes it takes, wherever they come from: any
other bytes in memory that agree on them, and the bytes alone, taken out of their source, give the
same tree. Two arrays are left out, because they see the end of their source: one that goes on to it,
and one that a rule was to end and that got there first, with a warning.

Rules may look at whatever they are asked about but the handles, which differ from document to
document; what they may see of a handle is its mark, and the ledgers compared hand out handles of the
same marks.

## Main statements

* `load_of_serves`: an atom from two views of its bytes.
* `Document.loadNew_local`: an outermost atom from other sources with the same bytes.
-/

namespace BinaryLayout

variable {κ : Type} {mark : Nat → Nat}

open Atom

/-- An atom that was loaded from one view is loaded from another one that gives its bytes, and from
both it is the same. -/
theorem load_of_serves {env : Env κ} (hrules : env.rules.SeeOnly mark) (depth : Nat) {layout : Layout κ}
    (hending : layout.WithoutUnending env.rules) {a a' : Atom κ} (ha : a.rename mark = a'.rename mark)
    (hblank : a.IsBlank) (hlayout : a.info.layout = .bytes layout) {s t : LoadState κ} {out : Outcome κ}
    (hrun : load env depth [] a s = (out, t)) (herror : out.error? = none)
    (hquiet : t.ledger.unterminated = s.ledger.unterminated) {data bytes : Bytes}
    (hshows : s.Shows data) (hlength : bytes.length = out.atom.size) {k k' : Nat}
    (hserves : bytes ≠ [] → s.view.Serves bytes a.info.offset k) {s' : LoadState κ}
    (hserves' : s'.view.Serves bytes a.info.offset k') (hstep : s.ledger.InStep mark s'.ledger) :
    Ends (load env depth [] a') s' fun out' _ => out.Matches mark out' := by
  let L := Likeness.ofBytes bytes a.info.offset s.ledger.unterminated data
  have halike : s.Alike L mark s' :=
    ⟨⟨hshows, fun hne => ⟨k, hserves hne⟩, k', hserves'⟩, hstep, fun b hb => by cases hb; rfl⟩
  have hframes : ([] : List (Frame κ)).map (Frame.rename mark) = [].map (Frame.rename mark) := rfl
  have hboth := together_load hrules depth hframes ha hblank hlayout hending (Nat.le_refl _) halike
  rw [Together, hrun] at hboth
  rcases hboth with ⟨b, hb, hstray⟩ | ⟨hmatches, -⟩
  · cases hb
    rw [herror, hquiet, hlength] at hstray
    rcases hstray with hfailed | hmore | hpast
    · cases hfailed
    · exact absurd hmore (Nat.lt_irrefl _)
    · exact absurd hpast (Nat.lt_irrefl _)
  · exact hmatches

namespace Document

variable {d : Document κ}

/-- The bytes of an atom that was loaded are a stretch of the source, if there are any. -/
theorem length_extract {data : Array UInt8} {offset size : Nat}
    (h : size = 0 ∨ offset + size ≤ data.size) :
    (data.extract offset (offset + size)).toList.length = size := by
  rw [Array.length_toList, Array.size_extract]
  omega

/-- Bytes in memory serve every stretch of theirs. -/
theorem serves_extract {data : Array UInt8} {writable : Bool} {cursor id offset size : Nat}
    {sources : Sources} (hsource : sources.source? id = some (.memory data writable cursor))
    (h : offset + size ≤ data.size) :
    View.Serves (data.extract offset (offset + size)).toList offset cursor (.source id, sources) := by
  refine .source hsource ?_ ?_
  · rw [length_extract (.inr h)]
    exact h
  · rw [Array.toList_extract, List.extract_eq_take_drop]
    exact List.take_prefix _ _

/-- An outermost atom that was loaded from bytes in memory, with no array found to end with its
source, is loaded in the same way from any other bytes in memory that hold the same ones at its place,
and from these alone, taken out of their source. -/
theorem loadNew_local {t : Document κ} {data : Array UInt8} {writable : Bool} {cursor : Nat}
    (hsource : d.sources.source? d.source = some (.memory data writable cursor))
    (hrules : d.env.rules.SeeOnly mark) {layout : Layout κ}
    (hending : layout.WithoutUnending d.env.rules) {name : String} {offset id : Nat}
    (hrun : (loadNew layout name offset).run d = (.ok id, t))
    (hquiet : t.ledger.unterminated = d.ledger.unterminated) :
    ∃ p, t.find? id = some p ∧ p.frames = []
      ∧ (∀ (e : Document κ) (data' : Array UInt8) (writable' : Bool) (cursor' : Nat),
        e.env = d.env → d.ledger.InStep mark e.ledger →
        e.sources.source? e.source = some (.memory data' writable' cursor') →
        offset + p.atom.size ≤ data'.size →
        data'.extract offset (offset + p.atom.size) = data.extract offset (offset + p.atom.size) →
        ∃ id' u q, (loadNew layout name offset).run e = (.ok id', u) ∧ u.find? id' = some q
          ∧ q.frames = [] ∧ q.atom.rename mark = p.atom.rename mark)
      ∧ ∀ l : Ledger κ, d.ledger.InStep mark l → offset < pow2 64 → data.size < pow2 64 →
        Ends (do
          let a ← LedgerM.spawn name (.bytes layout) offset
          LedgerM.fromBytes (data.extract offset (offset + p.atom.size)).toList offset
            (load d.env Layout.nestingLimit [] a)) l
          fun out _ => out.error? = none ∧ out.atom.rename mark = p.atom.rename mark := by
  obtain ⟨out, s, others, hload, herror, rfl, hroots, hledger, -⟩ :=
    (yields_loadNew_next d layout name offset).of_ok hrun
  have hshows : d.loadingNext.Shows data.toList := ⟨writable, cursor, hsource⟩
  have hwithin : out.atom.size = 0 ∨ offset + out.atom.size ≤ data.size := by
    have hspans := spans_load d.env data.toList Layout.nestingLimit [] (d.next layout name offset) hshows
    rw [Ends, hload] at hspans
    have hmax := hspans.within herror
    rw [Array.length_toList] at hmax
    change offset + out.atom.size ≤ max offset data.size at hmax
    omega
  have hlength := length_extract hwithin
  have hsame {v : View} {k : Nat} {l : Ledger κ} (hstep : d.ledger.InStep mark l)
      (hserves : v.Serves (data.extract offset (offset + out.atom.size)).toList offset k) :
      Ends (load d.env Layout.nestingLimit [] (.blank l.take.1 name (.bytes layout) offset))
        ⟨l.take.2, v.2, v.1⟩ fun out' _ => out.Matches mark out' := by
    have hblank := (hstep.spawn name (.bytes layout) offset).1
    refine load_of_serves hrules _ hending hblank (isBlank_blank _ _ _ _) rfl hload herror ?_ hshows
      hlength (fun hne => serves_extract hsource ?_) hserves hstep.take
    · rw [← hledger, hquiet]
      exact (Ledger.unterminated_take _).symm
    · refine hwithin.resolve_left fun hnone => hne (List.eq_nil_of_length_eq_zero ?_)
      rw [hlength, hnone]
  refine ⟨⟨out.atom, []⟩, find?_of_roots hroots, rfl, ?_, ?_⟩
  · intro e data' writable' cursor' henv hstep hsource' hroom hbytes
    have hserves := serves_extract hsource' hroom
    rw [hbytes] at hserves
    have hmatches (out' : Outcome κ) (s' : LoadState κ)
        (hfound : load e.env Layout.nestingLimit [] (e.next layout name offset) e.loadingNext = (out', s')) :
        out.Matches mark out' := by
      have hloaded := hsame hstep hserves
      rw [← henv, Ends] at hloaded
      exact (congrArg (fun run => Outcome.Matches mark out run.1) hfound).mp hloaded
    obtain ⟨id', u, hrun', out', s', others', hfound, -, rfl, hroots', -⟩ :=
      (yields_loadNew_next e layout name offset).succeeds fun error u hfailed => by
        obtain ⟨out', s', hfound, hnot⟩ := hfailed
        exact hnot ((hmatches out' s' hfound).2.symm.trans herror)
    exact ⟨_, u, ⟨out'.atom, []⟩, hrun', find?_of_roots hroots', rfl, (hmatches out' s' hfound).1.symm⟩
  · intro l hstep hoffset hsize
    have hserves : View.Serves (data.extract offset (offset + out.atom.size)).toList offset offset
        (Reader.ofBytes (data.extract offset (offset + out.atom.size)).toList offset, []) := by
      refine .detached (Nat.le_refl _) ?_ (Nat.le_of_eq rfl) ?_
      · rw [List.size_toArray, hlength]
        omega
      · exact Nat.sub_self offset ▸ List.prefix_refl _
    have hload' := hsame hstep hserves
    exact ⟨hload'.2.symm.trans herror, hload'.1.symm⟩

/-- Five bits, an array up to a zero byte and a sized field, loaded by a document that has handed out
forty handles, from other bytes that end where the atom does. -/
theorem loadNew_local_of_terminated :
    let accepts (p : Place Unit) : Bool := match p.atom.content with
      | .raw bytes => bytes.all (· = 0)
      | _ => false
    let rules : Rules Unit := ⟨fun _ _ => .ok (.block 1), fun _ _ => .ok (.int 1 false),
      fun _ _ => .ok 2, fun _ _ => .ok (.bool true), fun _ _ _ p => accepts p, fun _ n => n,
      fun _ _ _ => .ok 0, fun _ _ _ => .ok 0⟩
    let d : Document Unit :=
      { env := ⟨{}, rules⟩
        sources := [.memory #[9, 0xA7, 1, 2, 0, 5, 6, 7] false 0]
        source := 0 }
    let e : Document Unit :=
      { env := ⟨{}, rules⟩
        sources := [.memory #[0, 0xA7, 1, 2, 0, 5, 6] true 3]
        source := 0
        ledger := { made := 40 } }
    let layout : Layout Unit := .record "r" [⟨"flags", .given (.bits (.int 5 false) .big), none, none⟩,
      ⟨"items", .given (.array (.block 1) (.terminated ())), none, none⟩,
      ⟨"last", .computed (), some (), none⟩]
    let run := (loadNew layout "x" 1).run d
    rules.SeeOnly (fun _ => 0) ∧ layout.WithoutUnending rules ∧ run.1.toOption = some 0
      ∧ run.2.ledger.unterminated = d.ledger.unterminated
      ∧ ∃ p, run.2.find? 0 = some p ∧ p.atom.size = 6 ∧ ∃ id u q, (loadNew layout "x" 1).run e = (.ok id, u)
        ∧ u.find? id = some q ∧ q.atom.rename (fun _ => 0) = p.atom.rename (fun _ => 0)
        ∧ Ends (do
            let a ← LedgerM.spawn "x" (.bytes layout) 1
            LedgerM.fromBytes [0xA7, 1, 2, 0, 5, 6] 1 (load d.env Layout.nestingLimit [] a)) e.ledger
          fun out _ => out.error? = none
            ∧ out.atom.rename (fun _ => 0) = p.atom.rename (fun _ => 0) := by
  intro accepts rules d e layout run
  have hrules : rules.SeeOnly (fun _ => 0) := by
    refine ⟨fun _ => rfl, fun _ => rfl, fun _ => rfl, fun {_ _ _ p q} hpq => ?_⟩
    show accepts p = accepts q
    simp only [accepts, content_of_rename (congrArg Place.atom hpq)]
  have hending : layout.WithoutUnending rules := by
    intro element huse
    dsimp only [layout] at huse
    cases huse with
    | field hfield hinner huse =>
      simp only [List.mem_cons, List.not_mem_nil, or_false] at hfield
      rcases hfield with rfl | rfl | rfl
      · cases hinner
        cases huse
      · cases hinner
        cases huse with
        | element huse => cases huse
      · obtain ⟨_, hinner⟩ := hinner
        cases hinner
        cases huse
  have hsource : d.sources.source? d.source
      = some (.memory #[9, 0xA7, 1, 2, 0, 5, 6, 7] false 0) := rfl
  have hok : run.1.toOption = some 0 := by decide +kernel
  have hrun : (loadNew layout "x" 1).run d = (.ok 0, run.2) := run_of_toOption hok
  have hquiet : run.2.ledger.unterminated = d.ledger.unterminated := by decide +kernel
  obtain ⟨p, hfind, -, hmemory, hdetached⟩ := loadNew_local hsource hrules hending hrun hquiet
  have hsize : (run.2.find? 0).map (fun p => p.atom.size) = some 6 := by decide +kernel
  have hsix : p.atom.size = 6 := by
    rw [hfind] at hsize
    exact Option.some.inj hsize
  obtain ⟨id, u, q, hrun', hfind', -, hsame⟩ := hmemory e #[0, 0xA7, 1, 2, 0, 5, 6] true 3 rfl
    (fun _ => rfl) rfl (by rw [hsix]; decide) (by rw [hsix]; decide)
  have hbytes := hdetached e.ledger (fun _ => rfl) (by decide) (by decide)
  rw [hsix] at hbytes
  exact ⟨hrules, hending, hok, hquiet, p, hfind, hsix, id, u, q, hrun', hfind', hsame, hbytes⟩

end Document

end BinaryLayout
