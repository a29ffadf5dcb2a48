import BinaryLayout.Proofs.Document.Rules
import BinaryLayout.Proofs.Source.Content

/-!
# Commits

A commit runs the updates of an atom, writes the atom's bytes where it stands, and touches nothing
else. Everything that can fail does so before the first byte is written.

## Main statements

* `Document.commit_writes`: what the sources hold after a commit.
-/

namespace BinaryLayout

namespace Document

variable {κ : Type} {d : Document κ}

/-- What a document is built on, which edits leave as it is. -/
def ground (d : Document κ) : Env κ × Sources × Nat := (d.env, d.sources, d.source)

theorem ground_put (d : Document κ) (p : Place κ) : (d.put p).ground = d.ground := by
  rw [put]
  split <;> rfl

theorem ground_edit (d : Document κ) (id : Nat) (m : EditM κ Unit) :
    Yields (edit id m) d (fun _ t => t.ground = d.ground) fun _ t => t.ground = d.ground := by
  refine Yields.via (fun _ t => t = d) ?_ fun p t ht => ?_
  · exact (DocumentM.yields_get d).bind fun e t ht => by
      obtain ⟨rfl, rfl⟩ := ht
      exact DocumentM.yields_ofExcept (fun _ _ => rfl) fun _ _ => rfl
  subst ht
  refine DocumentM.yields_got ?_
  generalize (m ⟨t.ledger, p⟩ : Except Error Unit × Workplace κ) = run
  obtain ⟨result, s⟩ := run
  refine Yields.via (fun _ u => u.ground = t.ground)
    (Yields.modified (ground_put { t with ledger := s.ledger } s.place)) fun _ u hu => ?_
  exact DocumentM.yields_ofExcept (fun _ _ => hu) fun _ _ => hu

/-- Where the atom with a handle stands, if it leads anywhere. -/
theorem yields_found (d : Document κ) (id : Nat) :
    Yields (DocumentM.place id) d (fun p t => d.find? id = some p ∧ t = d) fun _ t => t = d := by
  refine DocumentM.yields_got (DocumentM.yields_ofExcept (fun p hp => ⟨?_, rfl⟩) fun _ _ => rfl)
  rw [place] at hp
  cases hfind : d.find? id with
  | none =>
    rw [hfind] at hp
    cases hp
  | some q =>
    rw [hfind] at hp
    cases hp
    rfl

/-- A computation on the open sources, with its result. -/
theorem yields_fromSources {α : Type} (d : Document κ) (path : Path)
    (m : Sources → Except SourceError α × Sources) :
    Yields (DocumentM.ofSources path m) d
      (fun a t => (m d.sources).1 = .ok a ∧ t = { d with sources := (m d.sources).2 })
      fun _ t => (∃ e, (m d.sources).1 = .error e) ∧ t = { d with sources := (m d.sources).2 } := by
  refine DocumentM.yields_got (Yields.via (fun _ t => t = { d with sources := (m d.sources).2 }) rfl
    fun _ t ht => ?_)
  subst ht
  cases hresult : (m d.sources).1 with
  | ok a => exact DocumentM.yields_ofExcept (fun b hb => by cases hb; exact ⟨rfl, rfl⟩) nofun
  | error e => exact DocumentM.yields_ofExcept nofun fun _ _ => ⟨⟨e, rfl⟩, rfl⟩

/-- A commit over bytes in memory, or over a window inside them. If it succeeds, the bytes that the
atom of bytes around the committed one has after its updates are written where that atom stands, and
every other byte is as it was; if it fails, every byte is. -/
theorem commit_writes {home base size id : Nat} {p : Place κ}
    (hmaps : d.sources.Maps home d.source base size) (hp : d.find? id = some p) :
    (∀ t, (commit id).run d = (.ok (), t) →
      ∃ u q, (recalculate p.byteOwner.atom.info.id).run d = (.ok (), u)
        ∧ u.find? p.byteOwner.atom.info.id = some q ∧ q.atom.info.offset ≤ size
        ∧ Sources.Overwritten home (base + q.atom.info.offset) (q.serialize d.env.config.bitOrder)
          d.sources t.sources
        ∧ t = { u with sources := t.sources })
      ∧ ∀ e t, (commit id).run d = (.error e, t) → t.sources.rewound = d.sources.rewound := by
  suffices hyields : Yields (commit id) d
      (fun _ t => ∃ u q, (recalculate p.byteOwner.atom.info.id).run d = (.ok (), u)
        ∧ u.find? p.byteOwner.atom.info.id = some q ∧ q.atom.info.offset ≤ size
        ∧ Sources.Overwritten home (base + q.atom.info.offset) (q.serialize d.env.config.bitOrder)
          d.sources t.sources
        ∧ t = { u with sources := t.sources })
      fun _ t => t.sources.rewound = d.sources.rewound by
    refine ⟨fun t hrun => hyields.of_ok hrun, fun e t hrun => ?_⟩
    have hfailed := hyields.of_error (congrArg Prod.fst hrun)
    rwa [hrun] at hfailed
  refine ((yields_found d id).mono (fun _ _ h => h) fun _ _ h => h ▸ rfl).bind fun q t hq => ?_
  obtain ⟨hfind, rfl⟩ := hq
  obtain rfl := Option.some.inj (hp.symm.trans hfind)
  generalize p.byteOwner.atom.info.id = owner
  -- The updates work on the document alone.
  have hrecalculate : Yields (recalculate owner) t
      (fun _ u => (recalculate owner).run t = (.ok (), u) ∧ u.ground = t.ground)
      fun _ u => u.sources.rewound = t.sources.rewound := by
    have hground : Yields (recalculate owner) t (fun _ u => u.ground = t.ground)
        fun _ u => u.ground = t.ground := DocumentM.yields_got (ground_edit t owner _)
    exact ((Yields.itself _ t).and hground).mono (fun _ _ h => h) fun e u h =>
      congrArg (fun ground => ground.2.1.rewound) h.2
  refine hrecalculate.bind fun _ u hu => ?_
  obtain ⟨hrun, hground⟩ := hu
  have henv : u.env = t.env := congrArg Prod.fst hground
  have hsources : u.sources = t.sources := congrArg (fun ground => ground.2.1) hground
  have hsource : u.source = t.source := congrArg (fun ground => ground.2.2) hground
  rw [← hsources, ← hsource] at hmaps
  rw [← henv, ← hsources]
  refine ((yields_found u owner).mono (fun _ _ h => h) fun _ _ h => h ▸ rfl).bind fun q v hq => ?_
  obtain ⟨hfind, rfl⟩ := hq
  refine DocumentM.yields_got ?_
  -- A failure to move there comes before anything is written.
  have hseek := (yields_fromSources v q.path fun sources => sources.seek v.source q.atom.info.offset).mono
    (fun _ _ h => h) fun _ w h => (congrArg (fun w => w.sources.rewound) h.2).trans
      (v.sources.rewound_seek v.source q.atom.info.offset)
  refine hseek.bind fun k w hw => ?_
  obtain ⟨hmoved, rfl⟩ := hw
  generalize hbytes : q.serialize v.env.config.bitOrder = bytes
  have hwrote := hmaps.write q.atom.info.offset bytes
  rw [← Sources.write_moved hmoved bytes] at hwrote
  generalize hstored : Sources.store (v.sources.seek v.source q.atom.info.offset).2 v.source bytes
    = stored at hwrote
  have hstore := yields_fromSources { v with sources := (v.sources.seek v.source q.atom.info.offset).2 }
    q.path fun sources => sources.store v.source bytes
  rw [hstored] at hstore
  obtain ⟨e | written, after⟩ := stored
  · refine (hstore.mono (fun _ _ h => h) fun _ _ h => ?_).bind fun a x hx => nomatch hx.1
    have hkept : after.rewound = v.sources.rewound := hwrote
    exact (congrArg (fun x => x.sources.rewound) h.2).trans hkept
  · refine (hstore.mono (fun _ _ h => h) fun _ _ h => nomatch h.1.choose_spec).bind fun a x hx => ?_
    obtain ⟨ha, rfl⟩ := hx
    obtain ⟨hall, hbound, hover⟩ := hwrote
    cases ha
    rw [hall, if_neg (Nat.lt_irrefl _)]
    exact Yields.pure ⟨v, q, hrun, hfind, hbound, hbytes ▸ hover, rfl⟩

/-- Eight bits inside a window of three bytes are assigned and committed: the window's second byte,
the third in memory, is written. -/
theorem commit_writes_of_window :
    let empty : Document Empty :=
      { env := ⟨{}, ⟨nofun, nofun, nofun, nofun, nofun, nofun, nofun, nofun⟩⟩
        sources := [.proxy 0 1 3 0, .memory #[1, 2, 3, 4, 5] true 0]
        source := 1 }
    let loaded := ((loadNew (.bits (.int 8 false) .big) "x" 1).run empty).2
    let edited := ((assign 1 (.unsigned 9)).run loaded).2
    let run := (commit 1).run edited
    run.1.toOption = some ()
      ∧ (∃ u q, (recalculate 0).run edited = (.ok (), u) ∧ u.find? 0 = some q
        ∧ Sources.Overwritten 0 (0 + 1 + q.atom.info.offset) (q.serialize edited.env.config.bitOrder)
          edited.sources run.2.sources)
      ∧ run.2.sources.rewound = [.proxy 0 1 3 0, .memory #[1, 2, 9, 4, 5] true 0] := by
  intro empty loaded edited run
  have hok : run.1.toOption = some () := by decide +kernel
  have hrun : (commit 1).run edited = (.ok (), run.2) := run_of_toOption hok
  have hsources : edited.sources = [.proxy 0 1 3 2, .memory #[1, 2, 3, 4, 5] true 3] := by
    decide +kernel
  have hsource : edited.source = 1 := by decide +kernel
  have howner : (edited.find? 1).map (fun p => p.byteOwner.atom.info.id) = some 0 := by
    decide +kernel
  have hwritten : run.2.sources.rewound = [.proxy 0 1 3 0, .memory #[1, 2, 9, 4, 5] true 0] := by
    decide +kernel
  clear_value run edited
  have hmaps : edited.sources.Maps 0 edited.source (0 + 1) 3 := by
    rw [hsources, hsource]
    exact .window rfl (by decide) (.memory rfl) (by decide) (by decide)
  obtain ⟨p, hp, hid⟩ := Option.map_eq_some_iff.1 howner
  obtain ⟨u, q, hrecalculated, hfind, -, hover, -⟩ := (commit_writes hmaps hp).1 run.2 hrun
  rw [hid] at hrecalculated hfind
  exact ⟨hok, ⟨u, q, hrecalculated, hfind, hover⟩, hwritten⟩

end Document

end BinaryLayout
