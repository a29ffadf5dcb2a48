import BinaryLayout.Proofs.Isolation.Read

/-!
# Extents isolate their content

A part with a forced extent is loaded through a window that ends with it. What it becomes then depends
on the bytes of the extent alone: not on those before or after it, and not on how long the source is or
where it stands. This is so for every layout, also for those whose loading asks how far the source goes,
tries again with what is left or takes one byte after another until a rule is content, and for windows
inside it that would end further on.

## Main definitions

* `Isolated`: what two views that answer alike make of an atom.

## Main statements

* `agrees_loadBits`, `agrees_load`: an atom of bits, an atom of bytes.
* `loadSized_isolated`: a part with a forced extent, in two sources that agree on the extent.
-/

namespace BinaryLayout

variable {κ α : Type}

open Agrees LoadState LoadM

/-! ## Bits -/

/-- The same bits come next: the views answer alike and stand at the same byte, and the readers of bits
are the same. -/
structure BitLoadState.SameBits (L : Likeness) (s s' : BitLoadState κ) : Prop where
  base : s.base.SameAt L s.next s'.base
  reader : s'.reader = s.reader
  next : s'.next = s.next

namespace BitLoadM

open BitLoadState

variable {L : Likeness}

/-- What leaves a view where it stands gives the same bits next. -/
theorem agrees_ofLoad {m : LoadM κ α} (hm : ∀ k, Agrees (SameAt L k) (fun _ => SameAt L k) m) :
    Agrees (SameBits L) (fun _ => SameBits L) (ofLoad m) := by
  intro s s' h
  obtain ⟨hresult, hbase⟩ := hm s.next s.base s'.base h.base
  exact ⟨hresult, hbase, h.reader, h.next⟩

theorem agrees_ofLedger (m : LedgerM κ α) : Agrees (SameBits L) (fun _ => SameBits L) (ofLedger m) := by
  refine agrees_ofLoad fun k s s' h => ?_
  show (m s.ledger).1 = (m s'.ledger).1 ∧ SameAt L k { s with ledger := (m s.ledger).2 }
    { s' with ledger := (m s'.ledger).2 }
  rw [← h.ledger]
  exact ⟨rfl, h.view, rfl⟩

variable (hbound : L.bound? = none)
include hbound

theorem agrees_bounded : Agrees (SameBits L) (fun _ => SameBits (κ := κ) L) bounded := by
  refine (agrees_ofLoad fun k s s' h => ⟨?_, h⟩).andThen fun size? => .keep _
  exact L.size hbound (L.like_of_stands h.view)

theorem agrees_fetch : Agrees (SameBits L) (fun _ => SameBits (κ := κ) L) fetch := by
  intro s s' h
  obtain ⟨hresult, hleft⟩ := LoadM.agrees_next hbound 1 s.base s'.base h.base
  rw [run_fetch, run_fetch, ← hresult]
  generalize (LoadM.next 1 s.base).1 = result at hleft
  cases result with
  | ok bytes =>
    refine ⟨rfl, hleft, ?_, congrArg (· + 1) h.next⟩
    exact congrArg (BitReader.refill · (bytes.headD 0)) h.reader
  | error e => exact ⟨congrArg (fun next => Except.error (fetchError next e)) h.next.symm, hleft, h.reader, h.next⟩

theorem agrees_read (width : Nat) : Agrees (SameBits L) (fun _ => SameBits (κ := κ) L) (read width) := by
  intro s s' h
  have hboth : Together (read width) (read width) s s' _ := twice_read (fun _ => SameBits L) (fun _ => SameBits L)
    (fun _ => False) (fun e t result t' => result = .error e ∧ SameBits L t t')
    (fun _ _ _ h => h.reader) (fun _ _ _ h => h.reader) (fun _ t t' _ h _ => ?_) (fun _ _ _ h _ => h)
    (fun _ t t' count _ _ _ h => ⟨h.base, congrArg (BitReader.skip · count) h.reader, h.next⟩)
    (fun _ _ _ h => by cases h.1) (fun _ h => h.elim) (fun _ _ h => h) h
  · rw [Together] at hboth
    generalize (read width s).1 = result at hboth
    cases result with
    | ok value =>
      obtain ⟨hresult, -, -, -, -, h⟩ := hboth.resolve_left id
      exact ⟨hresult.symm, h⟩
    | error e =>
      obtain ⟨hresult, h⟩ := hboth
      generalize (read width s').1 = result' at hresult
      cases result' with
      | ok value => cases hresult
      | error e' => exact ⟨congrArg Except.error (Except.error.inj hresult).symm, h⟩
  · obtain ⟨hresult, h⟩ := agrees_fetch hbound t t' h
    rw [Together, ← hresult]
    generalize (fetch t).1 = result at h
    cases result with
    | ok _ => exact .inr ⟨rfl, h⟩
    | error e => exact ⟨rfl, h⟩

omit hbound in
/-- Bits that are read from a place in views that stand there. -/
theorem agrees_run {m : BitLoadM κ α} (hm : Agrees (SameBits L) (fun _ => SameBits L) m) (order : ByteOrder)
    (offset : Nat) : Agrees (SameAt L offset) (fun _ => Same L) (run order offset m) := by
  intro s s' h
  obtain ⟨hresult, hleft⟩ := hm ⟨s, .new order, offset⟩ ⟨s', .new order, offset⟩ ⟨h, rfl, rfl⟩
  refine ⟨?_, hleft.base.same⟩
  show ((m ⟨s, .new order, offset⟩).1, BitReader.pad _) = ((m ⟨s', .new order, offset⟩).1, BitReader.pad _)
  rw [hresult, hleft.reader]

end BitLoadM

section Bits

open BitLoadState BitLoadM

variable {L : Likeness} {env : Env κ} {part : LoadPart (BitLoadM κ) κ}

theorem agrees_loadBitFields (hpart : ∀ frames a, Agrees (SameBits L) (fun _ => SameBits L) (part frames a))
    (frames : List (Frame κ)) (f : Frame κ) (index cursor : Nat)
    (fields : List (BitField κ (BitLayout κ))) :
    Agrees (SameBits L) (fun _ => SameBits L) (loadBitFields env part frames f index cursor fields) := by
  induction fields generalizing f index cursor with
  | nil => exact .keep _
  | cons field fields ih =>
    rw [loadBitFields]
    split
    · exact .keep _
    · refine (BitLoadM.agrees_ofLedger _).andThen fun blank => ?_
      refine (hpart (f :: frames) blank).andThen fun out => ?_
      dsimp only
      split
      · exact .keep _
      · exact ih _ _ _

theorem agrees_loadBitElements (hbound : L.bound? = none)
    (hpart : ∀ frames a, Agrees (SameBits L) (fun _ => SameBits L) (part frames a)) (element : BitLayout κ)
    (shape : BitShape κ) (frames : List (Frame κ)) (budget : Nat) (f : Frame κ) (index cursor : Nat) :
    Agrees (SameBits L) (fun _ => SameBits L)
      (loadBitElements env part element shape frames budget f index cursor) := by
  induction budget generalizing f index cursor with
  | zero =>
    rw [loadBitElements]
    split <;> exact .keep _
  | succ budget ih =>
    rw [loadBitElements]
    split
    · exact .keep _
    · refine (BitLoadM.agrees_ofLedger _).andThen fun blank => ?_
      refine (hpart (f :: frames) blank).andThen fun out => ?_
      split
      · split
        · exact .keep _
        · exact ih _ _ _
      · exact .keep _
      · split
        · exact .keep _
        · refine (BitLoadM.agrees_ofLedger _).andThen fun _ => ?_
          refine (agrees_bounded hbound).andThen fun known => ?_
          split
          · exact (BitLoadM.agrees_ofLedger _).andThen fun _ => .keep _
          · exact .keep _

/-- An atom of bits. -/
theorem agrees_loadBits (hbound : L.bound? = none) (env : Env κ) (depth : Nat)
    (frames : List (Frame κ)) (a : Atom κ) :
    Agrees (SameBits L) (fun _ => SameBits L) (loadBits env depth frames a) := by
  induction depth generalizing frames a with
  | zero => exact .keep _
  | succ depth ih =>
    rw [loadBits]
    split
    · exact .keep _
    · refine (agrees_read hbound _).andThen fun result => ?_
      split <;> exact .keep _
    · exact agrees_loadBitFields ih _ _ _ _ _
    · exact agrees_loadBitElements hbound ih _ _ _ _ _ _ _

end Bits

/-! ## Arrays -/

/-- Two views that answer alike from `start` on make the same of every atom at these offsets. -/
def Isolated (part : LoadPart (LoadM κ) κ) : Prop :=
  ∀ (L : Likeness) (frames : List (Frame κ)) (a : Atom κ), L.bound? = none → L.start ≤ a.info.offset →
    Agrees (Same L) (fun _ => Same L) (part frames a)

section Load

variable {L : Likeness} {env : Env κ} {part : LoadPart (LoadM κ) κ}

theorem agrees_loadCounted (hpart : Isolated part) (hbound : L.bound? = none) (element : Layout κ)
    (frames : List (Frame κ)) (count : Nat) (f : Frame κ) (index : Nat) {cursor : Nat}
    (hstart : L.start ≤ cursor) :
    Agrees (Same L) (fun _ => Same L) (loadCounted part element frames count f index cursor) := by
  induction count generalizing f index cursor with
  | zero => exact .keep _
  | succ count ih =>
    rw [loadCounted]
    refine (agrees_spawn _ _ cursor).bind fun blank => .given fun hblank => ?_
    refine (hpart L (f :: frames) blank hbound (hblank ▸ hstart)).andThen fun out => ?_
    dsimp only
    split
    · exact .keep _
    · split
      · exact .keep _
      · rename_i next hspan
        obtain ⟨rfl, -⟩ := spanEnd_eq hspan
        exact ih _ _ (Nat.le_trans hstart (Nat.le_add_right _ _))

/-- The elements of a block array end where they began or further on. -/
theorem agrees_loadBlockElements (hpart : Isolated part) (hbound : L.bound? = none) (element : Layout κ)
    (limit : Nat) (frames : List (Frame κ)) (fuel : Nat) (f : Frame κ) (index : Nat) {cursor : Nat}
    (hstart : L.start ≤ cursor) :
    Agrees (Same L) (fun out s s' => Same L s s' ∧ L.start ≤ out.cursor)
      (loadBlockElements part element limit frames fuel f index cursor) := by
  have hstop (a : Atom κ) (error? : Option Error) :
      Agrees (Same L) (fun out s s' => Same L s s' ∧ L.start ≤ out.cursor)
        (Pure.pure ⟨a, cursor, error?⟩ : LoadM κ (BlockOutcome κ)) := .pure fun _ _ h => ⟨h, hstart⟩
  induction fuel generalizing f index cursor with
  | zero => exact hstop _ _
  | succ fuel ih =>
    rw [loadBlockElements]
    split
    · exact hstop _ _
    · split
      · exact hstop _ _
      · refine (agrees_spawn _ _ cursor).bind fun blank => .given fun hblank => ?_
        refine (agrees_inWindow hbound fun L' hnone hsame => hpart L' (f :: frames) blank hnone
          (hsame ▸ hblank ▸ hstart)).andThen fun out => ?_
        split
        · split
          · exact (agrees_ofLedger _).andThen fun _ => hstop _ _
          · exact hstop _ _
        · dsimp only
          split
          · exact hstop _ _
          · split
            · exact hstop _ _
            · rename_i next hspan
              obtain ⟨rfl, -⟩ := spanEnd_eq hspan
              have hnext : L.start ≤ cursor + out.atom.size := Nat.le_trans hstart (Nat.le_add_right _ _)
              exact ih _ _ hnext fun a error? => .pure fun _ _ h => ⟨h, hnext⟩

theorem agrees_loadBlock (hpart : Isolated part) (hbound : L.bound? = none) (element : Layout κ)
    (extent : Nat) (frames : List (Frame κ)) {a : Atom κ} (hstart : L.start ≤ a.info.offset) :
    Agrees (Same L) (fun _ => Same L) (loadBlock part element extent frames a) := by
  rw [loadBlock]
  split
  · exact .keep _
  · refine (agrees_loadBlockElements hpart hbound element _ frames _ _ _ hstart).bind fun out =>
      .given fun hcursor => ?_
    split
    · exact .keep _
    · split
      · exact .keep _
      · refine (agrees_readAt hbound _ hcursor).andThen fun result => ?_
        split
        · exact .keep _
        · exact (agrees_ofLedger _).andThen fun _ => .keep _

theorem agrees_loadOpen (hpart : Isolated part) (hbound : L.bound? = none) (element : Layout κ)
    (rule? : Option κ) (frames : List (Frame κ)) (budget : Nat) (f : Frame κ) (index : Nat)
    {cursor : Nat} (hstart : L.start ≤ cursor) :
    Agrees (Same L) (fun _ => Same L)
      (loadOpen env part element rule? frames budget f index cursor) := by
  induction budget generalizing f index cursor with
  | zero => exact .keep _
  | succ budget ih =>
    rw [loadOpen]
    refine (agrees_viewEnd hbound).andThen fun viewEnd? => ?_
    split
    · exact .keep _
    · refine (agrees_spawn _ _ cursor).bind fun blank => .given fun hblank => ?_
      refine (hpart L (f :: frames) blank hbound (hblank ▸ hstart)).andThen fun out => ?_
      split
      · split
        · exact .keep _
        · refine (agrees_ofLedger _).andThen fun _ => ?_
          split
          · exact .keep _
          · refine (agrees_viewEnd hbound).andThen fun viewEnd? => ?_
            split
            · exact (agrees_ofLedger _).andThen fun _ => .keep _
            · exact .keep _
      · split
        · exact .keep _
        · rename_i next hspan
          obtain ⟨rfl, -⟩ := spanEnd_eq hspan
          split
          · exact .keep _
          · exact ih _ _ (Nat.le_trans hstart (Nat.le_add_right _ _))

/-! ## Compound atoms -/

theorem agrees_loadSized (hpart : Isolated part) (hbound : L.bound? = none) (frames : List (Frame κ))
    {a : Atom κ} (extent : Nat) (hstart : L.start ≤ a.info.offset) :
    Agrees (Same L) (fun _ => Same L) (loadSized part frames a extent) := by
  rw [loadSized]
  have hoffset : (a.mapInfo fun info => { info with extent? := some extent }).info.offset =
      a.info.offset := by
    cases a
    rfl
  generalize a.mapInfo (fun info => { info with extent? := some extent }) = sized at hoffset
  rw [← hoffset] at hstart
  dsimp only
  split
  · exact .keep _
  · refine (agrees_inWindow hbound fun L' hnone hsame => hpart L' frames sized hnone
      (hsame ▸ hstart)).andThen fun out => ?_
    split
    · exact .keep _
    · refine (agrees_readAt hbound _ (Nat.le_trans hstart (Nat.le_add_right _ _))).andThen fun tail => ?_
      split <;> exact .keep _

theorem agrees_loadField (hpart : Isolated part) (hbound : L.bound? = none) (frames : List (Frame κ))
    (f : Frame κ) (index : Nat) (extent? : Option κ) {blank : Atom κ}
    (hstart : L.start ≤ blank.info.offset) :
    Agrees (Same L) (fun _ => Same L) (loadField env part frames f index extent? blank) := by
  cases extent? with
  | none => exact hpart L (f :: frames) blank hbound hstart
  | some rule =>
    rw [loadField]
    split
    · exact .keep _
    · exact agrees_loadSized hpart hbound (f :: frames) _ hstart

theorem agrees_loadFields (hpart : Isolated part) (hbound : L.bound? = none) (frames : List (Frame κ))
    (f : Frame κ) (index : Nat) {cursor : Nat} (fields : List (Field κ (Layout κ)))
    (hstart : L.start ≤ cursor) :
    Agrees (Same L) (fun _ => Same L) (loadFields env part frames f index cursor fields) := by
  induction fields generalizing f index cursor with
  | nil => exact .keep _
  | cons field fields ih =>
    rw [loadFields]
    split
    · exact .keep _
    · refine (agrees_spawn _ _ cursor).bind fun blank => .given fun hblank => ?_
      refine (agrees_loadField hpart hbound frames f index field.extent? (hblank ▸ hstart)).andThen
        fun out => ?_
      dsimp only
      split
      · exact .keep _
      · split
        · exact .keep _
        · rename_i next hspan
          obtain ⟨rfl, -⟩ := spanEnd_eq hspan
          exact ih _ _ (Nat.le_trans hstart (Nat.le_add_right _ _))

/-- The members of a union are loaded from its bytes, whatever the view is. -/
theorem agrees_loadMembers (part : LoadPart (LoadM κ) κ) (backing : Bytes) (frames : List (Frame κ))
    (f : Frame κ) (members : List (String × Layout κ)) :
    Agrees (Same L) (fun _ => Same L) (loadMembers part backing frames f members) := by
  induction members generalizing f with
  | nil => exact .keep _
  | cons member members ih =>
    rw [loadMembers]
    refine (agrees_ofLedger _).andThen fun blank => (agrees_ofLedger _).andThen fun out => ?_
    dsimp only
    split
    · exact .keep _
    · exact ih _

theorem agrees_loadRoot (hbound : L.bound? = none) (depth : Nat) (order : ByteOrder)
    (frames : List (Frame κ)) {a : Atom κ} (root : Atom κ) (hstart : L.start ≤ a.info.offset) :
    Agrees (Same L) (fun _ => Same L) (loadRoot env depth order frames a root) := by
  rw [loadRoot]
  refine (agrees_seekTo hbound 1 hstart).bind fun result => ?_
  cases result with
  | error e => exact .keep _
  | ok =>
    refine (BitLoadM.agrees_run (agrees_loadBits hbound env depth _ root) order a.info.offset).bind
      fun result => ?_
    dsimp only
    split <;> exact .keep _

theorem agrees_loadHost (hbound : L.bound? = none) (depth : Nat) (layout : BitLayout κ)
    (order : ByteOrder) (frames : List (Frame κ)) {a : Atom κ} (hstart : L.start ≤ a.info.offset) :
    Agrees (Same L) (fun _ => Same L) (loadHost env depth layout order frames a) := by
  rw [loadHost]
  split
  · exact .keep _
  · refine (agrees_ofLedger _).andThen fun root => ?_
    split
    · refine (agrees_ofLedger _).andThen fun out => ?_
      split <;> exact .keep _
    · exact agrees_loadRoot hbound depth order frames root hstart

theorem agrees_loadLeaf (hbound : L.bound? = none) (layout : Layout κ) (frames : List (Frame κ))
    {a : Atom κ} (hstart : L.start ≤ a.info.offset) :
    Agrees (Same L) (fun _ => Same L) (loadLeaf env layout frames a) := by
  rw [loadLeaf]
  refine (agrees_readLeaf hbound _ frames layout hstart).andThen fun result => ?_
  split
  · exact .keep _
  · dsimp only
    split
    · exact (agrees_ofLedger _).andThen fun _ => .keep _
    · exact .keep _

/-- An atom of bytes. -/
theorem agrees_load (env : Env κ) (depth : Nat) : Isolated (load env depth) := by
  induction depth with
  | zero => exact fun L frames a _ _ => .keep _
  | succ depth ih =>
    intro L frames a hbound hstart
    have hclear : Agrees (Same L) (fun b s s' => Same L s s' ∧ b.info.offset = a.info.offset)
        (ofLedger (LedgerM.clear a)) := agrees_ofLedger_of fun l => by
      show a.cleared.info.offset = a.info.offset
      cases a
      rfl
    rw [load]
    split
    · exact .keep _
    · refine hclear.bind fun b => .given fun hoffset => ?_
      rw [← hoffset] at hstart
      split
      · exact agrees_loadFields ih hbound frames _ _ _ hstart
      · exact agrees_loadCounted ih hbound _ frames _ _ _ hstart
      · exact agrees_loadBlock ih hbound _ _ frames hstart
      · exact agrees_loadOpen ih hbound _ _ frames _ _ _ hstart
      · exact agrees_loadOpen ih hbound _ _ frames _ _ _ hstart
      · refine (agrees_readAt hbound _ hstart).andThen fun result => ?_
        split
        · exact .keep _
        · exact agrees_loadMembers _ _ frames _ _
      · exact agrees_loadHost hbound depth _ _ frames hstart
      · exact agrees_loadLeaf hbound _ frames hstart

/-! ## Extents -/

/-- The view is a source that holds these bytes in memory. -/
def LoadState.Holds (data : Array UInt8) (s : LoadState κ) : Prop :=
  ∃ id writable cursor, s.reader = .source id
    ∧ s.sources.source? id = some (.memory data writable cursor)

/-- The ledgers are the same, and both views serve the bytes at `start`, whatever else they show. -/
structure LoadState.Share (bytes : Bytes) (start : Nat) (s s' : LoadState κ) : Prop where
  left : ∃ k, s.view.Serves bytes start k
  right : ∃ k, s'.view.Serves bytes start k
  ledger : s.ledger = s'.ledger

/-- Sources that agree on an extent serve its bytes. -/
theorem LoadState.Holds.share {data data' : Array UInt8} {offset extent : Nat} {s s' : LoadState κ}
    (h : s.Holds data) (h' : s'.Holds data') (hsize : offset + extent ≤ data.size)
    (hsize' : offset + extent ≤ data'.size)
    (hagree : ∀ k < extent, data[offset + k]? = data'[offset + k]?) (hledger : s.ledger = s'.ledger) :
    ∃ bytes : Bytes, bytes.length = extent ∧ Share bytes offset s s' := by
  obtain ⟨id, writable, cursor, hreader, hsource⟩ := h
  obtain ⟨id', writable', cursor', hreader', hsource'⟩ := h'
  have hbytes : (data.toList.drop offset).take extent = (data'.toList.drop offset).take extent := by
    refine List.ext_getElem? fun k => ?_
    by_cases hk : k < extent
    · rw [List.getElem?_take_of_lt hk, List.getElem?_take_of_lt hk, List.getElem?_drop,
        List.getElem?_drop, Array.getElem?_toList, Array.getElem?_toList, hagree k hk]
    · rw [List.getElem?_take_eq_none (Nat.le_of_not_lt hk),
        List.getElem?_take_eq_none (Nat.le_of_not_lt hk)]
  have hlength : ((data.toList.drop offset).take extent).length = extent := by
    rw [List.length_take, List.length_drop, Array.length_toList]
    omega
  refine ⟨(data.toList.drop offset).take extent, hlength, ⟨cursor, ?_⟩, ⟨cursor', ?_⟩, hledger⟩
  · rw [view, hreader]
    exact .source hsource (by rwa [hlength]) (List.take_prefix _ _)
  · rw [view, hreader']
    exact .source hsource' (by rwa [hlength]) (hbytes ▸ List.take_prefix _ _)

/-- A computation in a window that ends with the bytes that both views serve. -/
theorem agrees_enclosed {m : LoadM κ α} {bytes : Bytes} {start : Nat}
    (hm : Agrees (Same (.enclosed bytes start)) (fun _ => Same (.enclosed bytes start)) m) :
    Agrees (Share bytes start) (fun _ => Share bytes start) (inWindow (start + bytes.length) m) := by
  intro s s' h
  obtain ⟨j, hleft⟩ := h.left
  obtain ⟨k, hright⟩ := h.right
  have hinside := hm { s with reader := .window s.reader (start + bytes.length) 0 }
    { s' with reader := .window s'.reader (start + bytes.length) 0 } ⟨.intro 0 0 hleft hright, h.ledger⟩
  simp only [inWindow, modifyGet, MonadStateOf.modifyGet, StateT.modifyGet, Pure.pure]
  generalize m { s with reader := .window s.reader (start + bytes.length) 0 } = run at hinside
  generalize m { s' with reader := .window s'.reader (start + bytes.length) 0 } = run' at hinside
  obtain ⟨result, ledger, sources, reader⟩ := run
  obtain ⟨result', ledger', sources', reader'⟩ := run'
  obtain ⟨hresult, hview, hledger⟩ := hinside
  cases hview with
  | intro _ _ hleft hright => exact ⟨hresult, ⟨_, hleft⟩, ⟨_, hright⟩, hledger⟩

/-- A read of some of the bytes that a view serves. -/
theorem ends_readAt {bytes : Bytes} {start offset amount : Nat} {s : LoadState κ}
    (h : ∃ k, s.view.Serves bytes start k) (hstart : start ≤ offset)
    (hstop : offset + amount ≤ start + bytes.length) :
    Ends (readAt offset amount) s fun result t =>
      result = .ok ((bytes.drop (offset - start)).take amount)
        ∧ (∃ k, t.view.Serves bytes start k) ∧ t.ledger = s.ledger := by
  obtain ⟨k, hserves⟩ := h
  rw [readAt]
  split
  · rename_i hnone
    exact Ends.pure ⟨by rw [hnone, List.take_zero], ⟨k, hserves⟩, rfl⟩
  · obtain ⟨j, v, hmoved, hthere⟩ := hserves.seek hstart (by omega)
    obtain ⟨w, hread, hafter⟩ := hthere.consume hstart hstop
    have hseek : seekTo offset amount s = (.ok (), { s with reader := v.1, sources := v.2 }) := by
      simp only [View.seek, LoadState.view] at hmoved
      simp only [seekTo, modifyGet, MonadStateOf.modifyGet, StateT.modifyGet, Pure.pure, hmoved]
    refine Ends.via (fun result t => result = .ok () ∧ t = { s with reader := v.1, sources := v.2 })
      ⟨congrArg Prod.fst hseek, congrArg Prod.snd hseek⟩ fun result t ht => ?_
    obtain ⟨rfl, rfl⟩ := ht
    have hnext : next amount { s with reader := v.1, sources := v.2 } =
        (.ok ((bytes.drop (offset - start)).take amount), { s with reader := w.1, sources := w.2 }) := by
      simp only [View.consume] at hread
      simp only [next, modifyGet, MonadStateOf.modifyGet, StateT.modifyGet, Pure.pure, hread]
    refine Ends.via (fun result t => result = .ok ((bytes.drop (offset - start)).take amount)
        ∧ t = { s with reader := w.1, sources := w.2 })
      ⟨congrArg Prod.fst hnext, congrArg Prod.snd hnext⟩ fun result t ht => ?_
    obtain ⟨rfl, rfl⟩ := ht
    exact Ends.pure ⟨rfl, ⟨_, hafter⟩, rfl⟩

/-- The same read of bytes that both views serve. -/
theorem agrees_readShared {bytes : Bytes} {start offset amount : Nat} (hstart : start ≤ offset)
    (hstop : offset + amount ≤ start + bytes.length) :
    Agrees (Share bytes start) (fun _ => Share (κ := κ) bytes start) (readAt offset amount) := by
  intro s s' h
  obtain ⟨hresult, hleft, hledger⟩ := ends_readAt h.left hstart hstop
  obtain ⟨hresult', hright, hledger'⟩ := ends_readAt h.right hstart hstop
  exact ⟨hresult.trans hresult'.symm, hleft, hright, hledger.trans (h.ledger.trans hledger'.symm)⟩

/-- A part of `extent` bytes at an offset, loaded from two sources in memory that have these bytes and
agree on them. The atom with all its parts and its tail, the error if there is one, the warnings and the
handles are the same, whatever lies before and after these bytes and however long the sources are. -/
theorem loadSized_isolated (env : Env κ) (depth : Nat) (frames : List (Frame κ)) (a : Atom κ)
    (extent : Nat) {s s' : LoadState κ} {data data' : Array UInt8} (hleft : s.Holds data)
    (hright : s'.Holds data') (hsize : a.info.offset + extent ≤ data.size)
    (hsize' : a.info.offset + extent ≤ data'.size)
    (hagree : ∀ k < extent, data[a.info.offset + k]? = data'[a.info.offset + k]?)
    (hledger : s.ledger = s'.ledger) :
    (loadSized (load env depth) frames a extent s).1 = (loadSized (load env depth) frames a extent s').1
      ∧ (loadSized (load env depth) frames a extent s).2.ledger =
        (loadSized (load env depth) frames a extent s').2.ledger := by
  obtain ⟨bytes, hlength, hshare⟩ := hleft.share hright hsize hsize' hagree hledger
  have hboth : Agrees (Share bytes a.info.offset) (fun _ => Share bytes a.info.offset)
      (loadSized (load env depth) frames a extent) := by
    rw [loadSized]
    have hoffset : (a.mapInfo fun info => { info with extent? := some extent }).info.offset =
        a.info.offset := by
      cases a
      rfl
    generalize a.mapInfo (fun info => { info with extent? := some extent }) = sized at hoffset
    dsimp only
    rw [hoffset]
    split
    · exact .keep _
    · rename_i limit hspan
      obtain ⟨rfl, -⟩ := spanEnd_eq hspan
      rw [← hlength]
      refine (agrees_enclosed (agrees_load env depth _ frames sized rfl (Nat.le_of_eq hoffset.symm))).andThen
        fun out => ?_
      split
      · exact .keep _
      · refine (agrees_readShared (Nat.le_add_right _ _) (by omega)).andThen fun tail => ?_
        split <;> exact .keep _
  obtain ⟨houtcome, hafter⟩ := hboth s s' hshare
  exact ⟨houtcome, hafter.ledger⟩

/-- An unending array of two-byte words forced to five bytes: two words and a tail of one byte, whether
more bytes follow in the source or none. -/
theorem loadSized_isolated_of_words :
    let rules : Rules Unit := ⟨fun _ _ => .ok (.block 1), fun _ _ => .ok (.int 1 false),
      fun _ _ => .ok 1, fun _ _ => .ok (.bool true), fun _ _ _ _ => false, fun _ n => n,
      fun _ _ _ => .ok 0, fun _ _ _ => .ok 0⟩
    let env : Env Unit := ⟨{}, rules⟩
    let element : Layout Unit := .int ⟨2, false, .little, by decide⟩
    let a : Atom Unit := .blank 0 "words" (.bytes (.array element .unending)) 2
    let data : Array UInt8 := #[9, 9, 1, 2, 3, 4, 5, 6, 7]
    let data' : Array UInt8 := #[0, 8, 1, 2, 3, 4, 5]
    let s : LoadState Unit := ⟨{}, [.memory data true 9], .source 0⟩
    let s' : LoadState Unit := ⟨{}, [.memory data' false 1, .empty], .source 1⟩
    s.Holds data ∧ s'.Holds data' ∧ 2 + 5 ≤ data.size ∧ 2 + 5 ≤ data'.size
      ∧ (∀ k < 5, data[2 + k]? = data'[2 + k]?)
      ∧ (loadSized (load env 2) [] a 5 s).1.error? = none
      ∧ (loadSized (load env 2) [] a 5 s).1.atom.parts.length = 2
      ∧ (loadSized (load env 2) [] a 5 s).1.atom.info.tail = [5]
      ∧ (loadSized (load env 2) [] a 5 s).1 = (loadSized (load env 2) [] a 5 s').1
      ∧ (loadSized (load env 2) [] a 5 s).2.ledger = (loadSized (load env 2) [] a 5 s').2.ledger := by
  intro rules env element a data data' s s'
  have hleft : s.Holds data := ⟨0, true, 9, rfl, rfl⟩
  have hright : s'.Holds data' := ⟨1, false, 1, rfl, rfl⟩
  have hagree : ∀ k < 5, data[2 + k]? = data'[2 + k]? := by decide
  have hsame := loadSized_isolated env 2 [] a 5 hleft hright (by decide) (by decide) hagree rfl
  exact ⟨hleft, hright, by decide, by decide, hagree, by decide +kernel, by decide +kernel,
    by decide +kernel, hsame⟩

end Load

end BinaryLayout
