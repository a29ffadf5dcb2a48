import BinaryLayout.Proofs.Source.Window

/-!
# What a read promises

A read gives exactly the bytes that were asked for and moves past them, or reports that fewer are
there and moves nothing. Loaders rely on it: a report of missing bytes ends an array, and any other
failure ends the load.

A window of another source keeps this promise when its bytes are there, that is, when it ends before
its parent does. This is a fact about how the sources were opened: no request to a view, or to any
source beneath it, changes it, for sources are moved inside their bytes only and never get shorter.
A window that reaches past the end of its parent breaks the promise, for the place that it moves its
parent to need not exist.

## Main definitions

* `Contract`: what a read may answer, and where it leaves the source.
* `Sources.Fit`, `View.Fit`: every window lies inside its parent.
* `View.after`: requests to a view and to the sources beneath it.

## Main statements

* `Sources.Fit.read`: the promise, for a source and everything beneath it.
* `Sources.Fit.write`: a write keeps the sources fit.
* `View.Fit.contract`: the promise, in every state that a view can be brought into.
-/

namespace BinaryLayout

/-- What became of a read of `amount` bytes at `place`, and where it ended. -/
inductive Contract (amount place : Nat) : Except SourceError Bytes → Nat → Prop
  | read {bytes : Bytes} (h : bytes.length = amount) : Contract amount place (.ok bytes) (place + amount)
  | short {offset got : Nat} (h : got < amount) :
    Contract amount place (.error (.consume offset amount got)) place

/-! ## Sources that are moved and read -/

def Source.place : Source → Nat
  | memory _ _ cursor => cursor
  | empty => 0
  | proxy _ _ _ cursor => cursor
  | device d => d.cursor

/-- The source stands inside its bytes, and a window lies inside its parent. A device does not fail. -/
def Source.Fits (older : Sources) : Source → Prop
  | memory data _ cursor => cursor ≤ data.size
  | empty => True
  | proxy parent base length cursor =>
    parent < older.length ∧ cursor ≤ length ∧ base + length < pow2 64
      ∧ ∀ size, older.size? parent = some size → base + length ≤ size
  | device d => d.seekFault = none ∧ d.readFault = none

namespace Sources

def place (sources : Sources) (id : Nat) : Nat := ((sources.source? id).map Source.place).getD 0

/-- Every source stands inside its bytes, and every window lies inside its parent. -/
inductive Fit : Sources → Prop
  | nil : Fit []
  | cons {s : Source} {older : Sources} (hs : s.Fits older) (h : Fit older) : Fit (s :: older)

/-- No source has become shorter. -/
structure Grew (before after : Sources) : Prop where
  length : after.length = before.length
  size : ∀ id n, after.size? id = some n → ∃ m ≤ n, before.size? id = some m

variable {sources sources' older older' : Sources} {s t : Source} {id amount : Nat}

theorem place_newest : place (s :: older) older.length = s.place := by
  rw [place, source?_cons, if_pos rfl]
  rfl

theorem place_cons (hid : id ≠ older.length) : place (s :: older) id = older.place id := by
  rw [place, source?_cons, if_neg hid, place]

theorem size?_newest : size? (s :: older) older.length = s.size? := by
  rw [size?, source?_cons, if_pos rfl]
  rfl

theorem size?_cons (hid : id ≠ older.length) : size? (s :: older) id = older.size? id := by
  rw [size?, source?_cons, if_neg hid, size?]

theorem size?_rewound (sources : Sources) (id : Nat) : sources.rewound.size? id = sources.size? id := by
  rw [size?, source?_rewound, size?]
  cases sources.source? id with
  | none => rfl
  | some s => cases s <;> rfl

theorem Grew.refl (sources : Sources) : Grew sources sources := ⟨rfl, fun _ n h => ⟨n, Nat.le_refl n, h⟩⟩

/-- What was only read has the sizes that it had. -/
theorem Grew.of_rewound (h : sources'.rewound = sources.rewound) : Grew sources sources' where
  length := by rw [← length_rewound, h, length_rewound]
  size id n hn := ⟨n, Nat.le_refl n, by rwa [← size?_rewound, ← h, size?_rewound]⟩

theorem Grew.cons (h : Grew older older') (hs : ∀ n, t.size? = some n → ∃ m ≤ n, s.size? = some m) :
    Grew (s :: older) (t :: older') where
  length := congrArg Nat.succ h.length
  size id n hn := by
    by_cases hid : id = older.length
    · subst hid
      rw [← h.length, size?_newest] at hn
      rw [size?_newest]
      exact hs n hn
    · rw [size?_cons (h.length.symm ▸ hid)] at hn
      rw [size?_cons hid]
      exact h.size id n hn

theorem Grew.newer (h : Grew older older') (s : Source) : Grew (s :: older) (s :: older') :=
  h.cons fun n hn => ⟨n, Nat.le_refl n, hn⟩

end Sources

namespace Source

open Sources

variable {older older' : Sources} {s : Source}

/-- What lies inside sources lies inside longer ones. -/
theorem Fits.grew (h : s.Fits older) (hgrew : Grew older older') : s.Fits older' := by
  cases s with
  | memory | empty | device => exact h
  | proxy parent base length cursor =>
    obtain ⟨hparent, hcursor, hword, hinside⟩ := h
    refine ⟨hgrew.length ▸ hparent, hcursor, hword, fun size hsize => ?_⟩
    obtain ⟨m, hle, hm⟩ := hgrew.size parent size hsize
    exact Nat.le_trans (hinside m hm) hle

/-- A source that is moved is as fit as before. -/
theorem Fits.seek (h : s.Fits older) (offset : Nat) :
    (s.seek offset).2.Fits older ∧ (s.seek offset).2.size? = s.size? := by
  cases s with
  | memory data writable cursor =>
    rw [Source.seek]
    split
    · exact ⟨h, rfl⟩
    · exact ⟨Nat.le_of_not_lt ‹_›, rfl⟩
  | empty =>
    rw [Source.seek]
    split <;> exact ⟨trivial, rfl⟩
  | proxy parent base length cursor =>
    rw [Source.seek]
    split
    · exact ⟨h, rfl⟩
    · exact ⟨⟨h.1, Nat.le_of_not_lt ‹_›, h.2.2⟩, rfl⟩
  | device d =>
    simp only [Source.seek, Device.seek]
    repeat' split
    all_goals exact ⟨h, rfl⟩

/-- Before it is read, a source is moved to any place inside its bytes. -/
theorem Fits.move (h : s.Fits older) {target? : Option Nat}
    (htarget : ∀ k, target? = some k → ∀ n, s.size? = some n → k ≤ n) :
    ∃ k t, s.move target? = (.ok k, t) ∧ t.Fits older ∧ t.place = target?.getD s.place := by
  cases target? with
  | none => exact ⟨0, s, rfl, h, rfl⟩
  | some offset =>
    have hoffset := htarget offset rfl
    cases s with
    | memory data writable cursor =>
      have hle : offset ≤ data.size := hoffset _ rfl
      exact ⟨cursor, .memory data writable offset, if_neg (Nat.not_lt.2 hle), hle, rfl⟩
    | empty =>
      have hle : offset = 0 := Nat.le_zero.1 (hoffset 0 rfl)
      subst hle
      exact ⟨0, .empty, rfl, trivial, rfl⟩
    | proxy parent base length cursor =>
      have hle : offset ≤ length := hoffset _ rfl
      exact ⟨cursor, .proxy parent base length offset, if_neg (Nat.not_lt.2 hle), ⟨h.1, hle, h.2.2⟩, rfl⟩
    | device d =>
      have hbound : ¬ (d.bounded ∧ d.data.size < offset) := fun ⟨hbounded, hlt⟩ =>
        Nat.not_lt.2 (hoffset d.data.size (if_pos hbounded)) hlt
      refine ⟨d.cursor, .device { d with cursor := offset }, ?_, h, rfl⟩
      simp only [Source.move, Source.seek, Device.seek, h.1, Device.beyond, Option.any_none,
        if_neg hbound]
      rfl

end Source

/-- A read of a device that does not fail. -/
theorem Device.contract_consume {d : Device} (h : d.readFault = none) (amount : Nat) :
    Contract amount d.cursor (d.consume amount).1 (d.consume amount).2.cursor := by
  have hbeyond : Device.beyond d.readFault d.cursor = false := by rw [h]; rfl
  cases hnext : ({ d with reads := d.reads + 1 } : Device).next amount with
  | ok bytes =>
    simp only [Device.consume, hnext]
    exact .read (length_next hnext)
  | error e =>
    simp only [Device.consume, hnext]
    simp only [Device.next, hbeyond, Bool.false_eq_true, if_false] at hnext
    repeat' split at hnext
    all_goals
      cases hnext
      try exact .short (by omega)

namespace Sources

section

variable {sources older : Sources} {s : Source} {id : Nat}

/-- A read where the newest source stands. -/
theorem Fit.readHere (h : older.Fit) (hs : s.Fits older) (amount : Nat)
    (ih : ∀ id target?, id < older.length →
      (∀ k, target? = some k → ∀ n, older.size? id = some n → k ≤ n) →
      (read older id target? amount).2.Fit
        ∧ Contract amount (target?.getD (older.place id)) (read older id target? amount).1
          ((read older id target? amount).2.place id)) :
    (Sources.readHere older amount s).2.Fit
      ∧ Contract amount s.place (Sources.readHere older amount s).1
        ((Sources.readHere older amount s).2.place older.length) := by
  cases s with
  | memory data writable cursor =>
    rw [Sources.readHere]
    by_cases hroom : cursor + amount ≤ data.size
    · have hslice : slice data cursor amount cursor
          = .ok (data.extract cursor (cursor + amount)).toList := if_pos hroom
      rw [hslice]
      refine ⟨.cons hroom h, ?_⟩
      rw [place_newest]
      exact .read (length_slice hslice)
    · have hcursor : cursor ≤ data.size := hs
      rw [slice, if_neg hroom]
      refine ⟨.cons hs h, ?_⟩
      rw [place_newest]
      exact .short (by omega)
  | empty =>
    rw [Sources.readHere]
    split
    · rename_i hnone
      refine ⟨.cons trivial h, ?_⟩
      rw [place_newest, hnone]
      exact .read rfl
    · refine ⟨.cons trivial h, ?_⟩
      rw [place_newest]
      exact .short (Nat.pos_of_ne_zero ‹_›)
  | proxy parent base length cursor =>
    obtain ⟨hparent, hcursor, hword, hinside⟩ := id hs
    have hplace : wrapOffset (base + cursor) = base + cursor := Nat.mod_eq_of_lt (by omega)
    have hread := ih parent (some (base + cursor)) hparent fun k hk n hn => by
      cases hk
      have := hinside n hn
      omega
    have hgrew := Grew.of_rewound (rewound_read older parent (some (base + cursor)) amount)
    rw [Sources.readHere, hplace]
    by_cases hroom : length - cursor < amount
    · rw [if_pos hroom]
      refine ⟨.cons hs h, ?_⟩
      rw [place_newest]
      exact .short hroom
    · rw [if_neg hroom]
      generalize read older parent (some (base + cursor)) amount = run at hread hgrew
      obtain ⟨result, left⟩ := run
      obtain ⟨hfit, hcontract⟩ := hread
      rw [← hgrew.length]
      generalize place (result, left).2 parent = ended at hcontract
      cases hcontract with
      | read hlength =>
        refine ⟨.cons (Source.Fits.grew (s := .proxy parent base length (cursor + amount))
          ⟨hparent, by omega, hword, hinside⟩ hgrew) hfit, ?_⟩
        rw [place_newest]
        exact .read hlength
      | short hshort =>
        refine ⟨.cons (hs.grew hgrew) hfit, ?_⟩
        rw [place_newest]
        exact .short hshort
  | device d =>
    have hcontract := Device.contract_consume hs.2 amount
    have hfault : (d.consume amount).2.seekFault = d.seekFault
        ∧ (d.consume amount).2.readFault = d.readFault := by
      rw [Device.consume]
      generalize ({ d with reads := d.reads + 1 } : Device).next amount = next
      cases next <;> exact ⟨rfl, rfl⟩
    refine ⟨.cons ⟨hfault.1.trans hs.1, hfault.2.trans hs.2⟩ h, ?_⟩
    simp only [Sources.readHere, place_newest]
    exact hcontract

/-- A read of a source, where it stands or at a place inside its bytes. -/
theorem Fit.read (h : sources.Fit) {target? : Option Nat} (amount : Nat) (hid : id < sources.length)
    (htarget : ∀ k, target? = some k → ∀ n, sources.size? id = some n → k ≤ n) :
    (sources.read id target? amount).2.Fit
      ∧ Contract amount (target?.getD (sources.place id)) (sources.read id target? amount).1
        ((sources.read id target? amount).2.place id) := by
  induction h generalizing id target? with
  | nil => exact absurd hid (Nat.not_lt_zero id)
  | @cons s older hs h ih =>
    by_cases hnewest : id = older.length
    · subst hnewest
      rw [size?_newest] at htarget
      obtain ⟨k, t, hmove, ht, hplace⟩ := hs.move htarget
      rw [read_cons, hmove, place_newest, ← hplace]
      exact h.readHere ht amount fun id target? hid htarget => ih hid htarget
    · have hlt : id < older.length := Nat.lt_of_le_of_ne (Nat.le_of_lt_succ hid) hnewest
      rw [size?_cons hnewest] at htarget
      obtain ⟨hfit, hcontract⟩ := ih hlt htarget
      have hgrew := Grew.of_rewound (rewound_read older id target? amount)
      rw [read_older hnewest, place_cons hnewest, place_cons (hgrew.length.symm ▸ hnewest)]
      exact ⟨.cons (hs.grew hgrew) hfit, hcontract⟩

/-- A source that is moved. -/
theorem Fit.seek (h : sources.Fit) (id offset : Nat) : (sources.seek id offset).2.Fit := by
  induction h with
  | nil => exact .nil
  | @cons s older hs h ih =>
    rw [Sources.seek, update]
    split
    · exact .cons (hs.seek offset).1 h
    · exact .cons (hs.grew (.of_rewound (rewound_seek older id offset))) ih

/-! ## Sources that are written -/

theorem size_written_ge (data : Array UInt8) (offset : Nat) (bytes : Bytes) :
    data.size ≤ (Device.written data offset bytes).size
      ∧ offset + bytes.length ≤ (Device.written data offset bytes).size := by
  have hlength (a : Array UInt8) : (a ++ bytes).size = a.size + bytes.length := by
    rw [← Array.length_toList, Array.toList_appendList, List.length_append, Array.length_toList]
  simp only [Device.written, Array.take_eq_extract, Array.drop_eq_extract, Array.size_append, hlength,
    Array.size_extract, Array.size_replicate]
  omega

/-- What a write leaves: fit sources that are no shorter, and no more bytes written than were given. -/
structure Written (before : Sources) (bytes : Bytes) (run : Except SourceError Nat × Sources) : Prop where
  fit : run.2.Fit
  grew : Grew before run.2
  count : ∀ n, run.1 = .ok n → n ≤ bytes.length

/-- A write where the newest source stands. -/
theorem Fit.writeHere (h : older.Fit) (hs : s.Fits older) (bytes : Bytes)
    (ih : ∀ id target?, Written older bytes (write older id target? bytes)) :
    Written (s :: older) bytes (Sources.writeHere older bytes s) := by
  have hrefused (e : SourceError) : Written (s :: older) bytes (.error e, s :: older) :=
    ⟨.cons hs h, .refl _, fun _ h => by cases h⟩
  cases s with
  | memory data writable cursor =>
    rw [Sources.writeHere]
    split
    · obtain ⟨hsize, hcursor⟩ := size_written_ge data cursor bytes
      refine ⟨.cons hcursor h, (Grew.refl older).cons fun n hn => ?_, fun n hn => ?_⟩
      · cases hn
        exact ⟨data.size, hsize, rfl⟩
      · cases hn
        exact Nat.le_refl _
    · exact hrefused _
  | empty => exact hrefused _
  | proxy parent base length cursor =>
    rw [Sources.writeHere]
    split
    · exact hrefused _
    · rename_i hroom
      obtain ⟨hparent, hcursor, hword, hinside⟩ := id hs
      have hwrite := ih parent (some (wrapOffset (base + cursor)))
      generalize write older parent (some (wrapOffset (base + cursor))) bytes = run at hwrite
      obtain ⟨e | written, left⟩ := run
      · exact ⟨.cons (hs.grew hwrite.grew) hwrite.fit, hwrite.grew.newer _, fun _ h => by cases h⟩
      · have hcount := hwrite.count written rfl
        refine ⟨.cons (Source.Fits.grew (s := .proxy parent base length (cursor + written))
          ⟨hparent, by omega, hword, hinside⟩ hwrite.grew) hwrite.fit, ?_, hwrite.count⟩
        exact hwrite.grew.cons fun n hn => ⟨n, Nat.le_refl n, hn⟩
  | device d =>
    rw [Sources.writeHere, Device.store]
    split
    · exact hrefused _
    · split
      · exact hrefused _
      · refine ⟨.cons hs h, (Grew.refl older).cons fun n hn => ?_, fun n hn => ?_⟩
        · simp only [Source.size?, Device.size?] at hn ⊢
          split at hn
          · cases hn
            rename_i hbounded
            exact ⟨d.data.size, (size_written_ge _ _ _).1, if_pos hbounded⟩
          · cases hn
        · cases hn
          exact List.length_take_le' _ _

/-- A write to a source, anywhere. -/
theorem Fit.write (h : sources.Fit) (id : Nat) (target? : Option Nat) (bytes : Bytes) :
    Written sources bytes (sources.write id target? bytes) := by
  induction h generalizing id target? with
  | nil => exact ⟨.nil, .refl _, nofun⟩
  | @cons s older hs h ih =>
    by_cases hnewest : id = older.length
    · subst hnewest
      rw [write_cons]
      have hmoved : (s.move target?).2.Fits older ∧ (s.move target?).2.size? = s.size? := by
        cases target? with
        | none => exact ⟨hs, rfl⟩
        | some offset => exact hs.seek offset
      generalize s.move target? = moved at hmoved
      obtain ⟨e | k, t⟩ := moved
      · refine ⟨.cons hmoved.1 h, (Grew.refl older).cons fun n hn => ⟨n, Nat.le_refl n, ?_⟩, nofun⟩
        exact hmoved.2.symm.trans hn
      · obtain ⟨hfit, hgrew, hcount⟩ := h.writeHere hmoved.1 bytes ih
        refine ⟨hfit, ⟨hgrew.length, fun id n hn => ?_⟩, hcount⟩
        obtain ⟨m, hle, hm⟩ := hgrew.size id n hn
        refine ⟨m, hle, ?_⟩
        rw [size?, source?_cons] at hm ⊢
        split
        · rw [if_pos ‹_›] at hm
          exact hmoved.2.symm.trans hm
        · rwa [if_neg ‹_›] at hm
    · obtain ⟨hfit, hgrew, hcount⟩ := ih id target?
      rw [write_older hnewest]
      exact ⟨.cons (hs.grew hgrew) hfit, hgrew.newer s, hcount⟩

/-- A source that is not open is not read. -/
theorem read_none (hid : sources.length ≤ id) (target? : Option Nat) (amount : Nat) :
    sources.read id target? amount = (.error notOpen, sources) := by
  induction sources with
  | nil => rfl
  | cons s older ih =>
    rw [List.length_cons] at hid
    rw [read_older (by omega), ih (by omega)]

/-- A request to a source keeps the sources fit, and their number. -/
theorem Fit.ask (h : sources.Fit) (id : Nat) (r : Request) :
    (sources.ask id r).2.Fit ∧ (sources.ask id r).2.length = sources.length := by
  cases r with
  | seek offset => exact ⟨h.seek id offset, length_sources_update (·.seek offset) sources id⟩
  | consume amount =>
    refine ⟨?_, length_sources_read sources id none amount⟩
    by_cases hid : id < sources.length
    · exact (h.read amount hid fun k (hk : none = some k) => nomatch hk).1
    · rw [Sources.ask, consume, read_none (Nat.le_of_not_lt hid)]
      exact h
  | store bytes => exact ⟨(h.write id none bytes).fit, length_sources_write sources id none bytes⟩

end

end Sources

/-! ## Views -/

/-- The view stands inside the bytes that it was given, and what it shows has its offsets in words. -/
def Reader.Fits (sources : Sources) : Reader → Prop
  | .source id => id < sources.length
  | .detached data origin cursor =>
    origin ≤ cursor ∧ cursor ≤ origin + data.size ∧ origin + data.size < pow2 64
  | .window inner _ _ => inner.Fits sources

theorem Reader.Fits.of_length {sources sources' : Sources} {r : Reader} (h : r.Fits sources)
    (hlength : sources'.length = sources.length) : r.Fits sources' := by
  induction r with
  | source id => exact Nat.lt_of_lt_of_eq h hlength.symm
  | detached => exact h
  | window inner limit cursor ih => exact ih h

namespace View

def place (v : View) : Nat :=
  match v.1 with
  | .source id => v.2.place id
  | .detached _ _ cursor | .window _ _ cursor => cursor

/-- The view stands inside its bytes, and so does everything beneath it. -/
structure Fit (v : View) : Prop where
  sources : v.2.Fit
  reader : v.1.Fits v.2

def store (v : View) (bytes : Bytes) : Except SourceError Nat × View := v.1.store v.2 bytes

/-- The view itself is asked, or a source beneath it. -/
def ask (v : View) : Option Nat × Request → View
  | (none, .seek offset) => (v.seek offset).2
  | (none, .consume amount) => (v.consume amount).2
  | (none, .store bytes) => (v.store bytes).2
  | (some id, r) => (v.1, (v.2.ask id r).2)

/-- The view after one request and another. -/
def after (v : View) (steps : List (Option Nat × Request)) : View := steps.foldl ask v

theorem store_window (v : View) (limit cursor : Nat) (bytes : Bytes) :
    (v.window limit cursor).store bytes = match v.store bytes with
      | (.ok written, w) => (.ok written, w.window limit (cursor + written))
      | (.error e, w) => (.error e, w.window limit cursor) := by
  simp only [store, window, Reader.store]
  generalize v.1.store v.2 bytes = run
  obtain ⟨_ | _, _, _⟩ := run <;> rfl

namespace Fit

variable {v : View}

theorem window (h : v.Fit) (limit cursor : Nat) : (v.window limit cursor).Fit := ⟨h.sources, h.reader⟩

/-- What is true of a view is proved for the sources, for detached bytes and for a window. -/
theorem induct {motive : ∀ v : View, v.Fit → Prop}
    (source : ∀ id sources (h : Fit (.source id, sources)), motive (.source id, sources) h)
    (detached : ∀ data origin cursor sources (h : Fit (.detached data origin cursor, sources)),
      motive (.detached data origin cursor, sources) h)
    (window : ∀ (v : View) limit cursor (h : v.Fit), motive v h →
      motive (v.window limit cursor) (h.window limit cursor)) (h : v.Fit) : motive v h := by
  obtain ⟨r, sources⟩ := v
  induction r with
  | source id => exact source id sources h
  | detached data origin cursor => exact detached data origin cursor sources h
  | window inner limit cursor ih =>
    have hinner : Fit (inner, sources) := ⟨h.sources, h.reader⟩
    exact window (inner, sources) limit cursor hinner (ih hinner)

theorem seek (h : v.Fit) (offset : Nat) : (v.seek offset).2.Fit := by
  induction h using induct with
  | source id sources h =>
    refine ⟨h.sources.seek id offset, ?_⟩
    exact Nat.lt_of_lt_of_eq h.reader (Sources.length_sources_update (·.seek offset) sources id).symm
  | detached data origin cursor sources h =>
    obtain ⟨hplace, hend, hword⟩ := h.reader
    have hstop : Reader.detachedEnd data origin = origin + data.size := Nat.mod_eq_of_lt hword
    rw [View.seek, Reader.seek, hstop]
    split
    · exact h
    · exact ⟨h.sources, by omega, by omega, hword⟩
  | window v limit cursor h ih =>
    rw [seek_window]
    split
    · exact h.window limit cursor
    · generalize v.seek offset = moved at ih
      obtain ⟨_ | _, w⟩ := moved
      · exact ih.window limit cursor
      · exact ih.window limit offset

theorem store (h : v.Fit) (bytes : Bytes) : (v.store bytes).2.Fit := by
  induction h using induct with
  | source id sources h =>
    refine ⟨(h.sources.write id none bytes).fit, ?_⟩
    exact Nat.lt_of_lt_of_eq h.reader (Sources.length_sources_write sources id none bytes).symm
  | detached data origin cursor sources h => exact h
  | window v limit cursor h ih =>
    rw [store_window]
    generalize v.store bytes = run at ih
    obtain ⟨_ | written, w⟩ := run
    · exact ih.window limit cursor
    · exact ih.window limit (cursor + written)

/-- A read of a view. -/
theorem consume (h : v.Fit) (amount : Nat) : (v.consume amount).2.Fit
    ∧ Contract amount v.place (v.consume amount).1 (v.consume amount).2.place := by
  induction h using induct with
  | source id sources h =>
    obtain ⟨hfit, hcontract⟩ :=
      h.sources.read amount h.reader fun k (hk : none = some k) => nomatch hk
    refine ⟨⟨hfit, ?_⟩, hcontract⟩
    exact Nat.lt_of_lt_of_eq h.reader (Sources.length_sources_read sources id none amount).symm
  | detached data origin cursor sources h =>
    obtain ⟨hplace, hend, hword⟩ := h.reader
    rw [View.consume, Reader.consume]
    cases hslice : Sources.slice data (cursor - origin) amount cursor with
    | ok bytes =>
      refine ⟨⟨h.sources, ?_⟩, .read (Sources.length_slice hslice)⟩
      rw [Sources.slice] at hslice
      split at hslice
      · exact ⟨by omega, by omega, hword⟩
      · cases hslice
    | error e =>
      refine ⟨h, ?_⟩
      rw [Sources.slice] at hslice
      split at hslice
      · cases hslice
      · cases hslice
        exact .short (by omega)
  | window v limit cursor h ih =>
    obtain ⟨hfit, hcontract⟩ := ih
    rw [consume_window]
    split
    · exact ⟨h.window limit cursor, .short ‹_›⟩
    · generalize v.consume amount = run at hfit hcontract
      obtain ⟨result, w⟩ := run
      generalize place (result, w).2 = ended at hcontract
      cases hcontract with
      | read hlength => exact ⟨hfit.window limit (cursor + amount), .read hlength⟩
      | short hshort => exact ⟨hfit.window limit cursor, .short hshort⟩

/-- One request, to the view or to a source beneath it. -/
theorem ask (h : v.Fit) (step : Option Nat × Request) : (v.ask step).Fit := by
  obtain ⟨_ | id, r⟩ := step
  · cases r with
    | seek offset => exact h.seek offset
    | consume amount => exact (h.consume amount).1
    | store bytes => exact h.store bytes
  · obtain ⟨hfit, hlength⟩ := h.sources.ask id r
    exact ⟨hfit, h.reader.of_length hlength⟩

theorem after (h : v.Fit) (steps : List (Option Nat × Request)) : (v.after steps).Fit := by
  induction steps generalizing v with
  | nil => exact h
  | cons step steps ih => exact ih (h.ask step)

/-- Whatever was asked of a view and of the sources beneath it, a read of the view gives as many bytes
as were asked for and moves past them, or reports fewer and does not move. -/
theorem contract (h : v.Fit) (steps : List (Option Nat × Request)) (amount : Nat) :
    Contract amount (v.after steps).place ((v.after steps).consume amount).1
      ((v.after steps).consume amount).2.place :=
  ((h.after steps).consume amount).2

/-- A window of a window of four bytes, seen as far as an offset that it does not have: a read past its
end, after its parent was moved away. -/
theorem contract_of_nested_windows :
    let v : View := (.window (.source 2) 9 0,
      [.proxy 1 1 2 0, .proxy 0 1 3 0, .memory #[1, 2, 3, 4] true 0])
    let steps := [(none, .seek 1), (some 0, .seek 4), (some 1, .store [7]), (none, .consume 1)]
    v.Fit ∧ Contract 1 2 ((v.after steps).consume 1).1 ((v.after steps).consume 1).2.place
      ∧ ((v.after steps).consume 1).1 = .error (.consume 2 1 0) := by
  intro v steps
  have hmemory : Sources.Fit [.memory #[1, 2, 3, 4] true 0] := .cons (Nat.zero_le 4) .nil
  have hinner : Sources.Fit [.proxy 0 1 3 0, .memory #[1, 2, 3, 4] true 0] :=
    .cons ⟨by decide, by decide, by decide, fun n hn => by cases hn; decide⟩ hmemory
  have houter : v.2.Fit :=
    .cons ⟨by decide, by decide, by decide, fun n hn => by cases hn; decide⟩ hinner
  have hfit : v.Fit := ⟨houter, (by decide : 2 < 3)⟩
  exact ⟨hfit, hfit.contract steps 1, rfl⟩

end Fit

/-- The contract is not kept by a window that reaches past the end of its parent. Two bytes in memory,
and a window of four from the fifth on: a read of one byte reports that the source ends at the second. -/
theorem not_contract_of_overhanging_window :
    let v : View := (.source 1, [.proxy 0 5 4 0, .memory #[1, 2] true 0])
    (v.consume 1).1 = .error (.outOfBounds 5 2)
      ∧ ¬ ∀ amount, Contract amount v.place (v.consume amount).1 (v.consume amount).2.place := by
  intro v
  have hread : (v.consume 1).1 = .error (.outOfBounds 5 2) := rfl
  refine ⟨hread, fun hall => ?_⟩
  have hone := hall 1
  rw [hread] at hone
  cases hone

end View

end BinaryLayout
