import BinaryLayout.Proofs.Locality.Document
import BinaryLayout.Proofs.Span.Bits

/-!
# Bits of a source that ends too early

An array of bits that a rule ends may find that its source has ended first, in the middle of an
element. The element is dropped, and the bits handed out for it are lost: they are not given back to
the host, whose unused bits are empty from then on. No bit can be read after that, so nothing is put
in the wrong place: the bits that the atoms of a host hold are the first ones of its bytes, whether an
element was dropped or not. Only the unused bits of its last byte may be written as zeros, and only
after a warning.

## Main definitions

* `Reader.Dry`: a view without a further byte.
* `BitLoadState.Heads`: the bits handed out for the atoms kept are the first ones of the data.

## Main statements

* `heads_loadBits`: an atom of bits that was read.
* `Document.serialize_loadNew_bits`: a host of bits that was loaded.
-/

namespace BinaryLayout

variable {κ : Type} {data : Bytes} {order : ByteOrder} {start : Nat}

open Atom

/-! ## Views without a further byte -/

namespace Reader

/-- The view has no further byte. -/
def Dry (sources : Sources) : Reader → Prop
  | .source id => ∃ data writable cursor,
      sources.source? id = some (.memory data writable cursor) ∧ data.size ≤ cursor
  | .detached data origin cursor => data.size ≤ cursor - origin
  | .window inner limit cursor => limit ≤ cursor ∨ inner.Dry sources

variable {r r' : Reader} {sources sources' : Sources}

theorem Dry.consume_ne_ok (h : r.Dry sources) (bytes : Bytes) :
    (r.consume sources 1).1 ≠ .ok bytes := by
  induction r generalizing bytes with
  | source id =>
    obtain ⟨held, writable, cursor, hmemory, hend⟩ := h
    have hresult := (Sources.consume_memory 1 hmemory).1
    rw [Sources.slice, if_neg (Nat.not_le.2 (Nat.lt_succ_of_le hend))] at hresult
    intro hok
    cases hresult.symm.trans hok
  | detached held origin cursor =>
    rw [consume, Sources.slice, if_neg (Nat.not_le.2 (Nat.lt_succ_of_le h))]
    intro hok
    cases hok
  | window inner limit cursor ih =>
    rw [consume]
    intro hok
    split at hok
    · cases hok
    · rename_i hroom
      have hinner := ih (h.resolve_left fun hle => hroom (by omega))
      generalize inner.consume sources 1 = read at hok hinner
      obtain ⟨e | more, inner', sources'⟩ := read
      · cases hok
      · exact hinner more rfl

/-- A view that was found to be short of a byte has no further one. -/
theorem dry_of_consume (h : r.Shows data sources) {offset desired got : Nat}
    (hread : r.consume sources 1 = (.error (.consume offset desired got), r', sources')) :
    r'.Dry sources' := by
  induction r generalizing r' sources' offset desired got with
  | source id =>
    obtain ⟨writable, cursor, hmemory⟩ := h
    obtain ⟨hresult, hleft⟩ := Sources.consume_memory 1 hmemory
    simp only [consume, Prod.mk.injEq] at hread
    obtain ⟨herror, rfl, rfl⟩ := hread
    rw [herror] at hresult
    rw [← hresult] at hleft
    refine ⟨_, writable, cursor, hleft, ?_⟩
    rw [Sources.slice] at hresult
    split at hresult
    · cases hresult
    · omega
  | detached held origin cursor =>
    rw [consume, Sources.slice] at hread
    split at hread <;> rename_i hslice
    · cases hread
    · cases hread
      split at hslice
      · cases hslice
      · show held.size ≤ cursor - origin
        omega
  | window inner limit cursor ih =>
    rw [consume] at hread
    split at hread
    · cases hread
      left
      omega
    · generalize hinner : inner.consume sources 1 = read at hread
      obtain ⟨e | more, inner', sources''⟩ := read
      · cases hread
        right
        exact ih h hinner
      · cases hread

end Reader

/-! ## Bits handed out -/

namespace BitLoadState

/-- Nothing is pending, and the view has no further byte. -/
structure Stopped (order : ByteOrder) (s : BitLoadState κ) : Prop where
  packing : s.order = order
  idle : s.pending = []
  dry : s.base.reader.Dry s.base.sources

/-- The bits `handed` out for the atoms kept are the first ones from the byte at `start` on. Either no
bit is lost, and the pending ones come next, or there are no more bits. -/
structure Heads (data : Bytes) (order : ByteOrder) (start : Nat) (handed : List Bool)
    (s : BitLoadState κ) : Prop where
  shows : s.base.Shows data
  bits : handed <+: (data.drop start).flatMap (BitStream.ofByte order)
  next : s.Follows data order start handed ∨ s.Stopped order

theorem Follows.heads {handed : List Bool} {s : BitLoadState κ}
    (h : s.Follows data order start handed) : s.Heads data order start handed := by
  refine ⟨h.shows, ?_, .inl h⟩
  obtain ⟨read, ⟨rest, hrest⟩, -, hbits⟩ := h.bytes
  rw [← hrest, List.flatMap_append, ← hbits, List.append_assoc]
  exact List.prefix_append _ _

theorem Heads.packing {handed : List Bool} {s : BitLoadState κ}
    (h : s.Heads data order start handed) : s.order = order := by
  rcases h.next with hnext | hnext
  · exact hnext.packing
  · exact hnext.packing

end BitLoadState

open BitLoadState

/-- What bits were read into: those of `result` come after those handed out before, and a read that
finds no further byte leaves none. -/
structure HeadsBy {α : Type} (data : Bytes) (order : ByteOrder) (start : Nat) (handed : List Bool)
    (stream : α → List Bool) (result : Except Error α) (t : BitLoadState κ) : Prop where
  shows : t.base.Shows data
  ok : ∀ a, result = .ok a → t.Heads data order start (handed ++ stream a)
  short : ∀ e, result = .error e → e.isConsume = true → t.Stopped order

namespace BitLoadM

variable {handed : List Bool} {s : BitLoadState κ}

/-- A byte is fetched after bits that were not lost, or it is not there. -/
theorem heads_fetch (hs : s.Heads data order start handed) (hidle : s.pending = []) :
    Ends fetch s fun result t =>
      match result with
      | .ok () => Streams data order start handed t
      | .error e => t.base.Shows data ∧ (e.isConsume = true → t.Stopped order) := by
  have hstops : Ends fetch s fun result t => match result with
      | .ok () => True
      | .error e => t.base.Shows data ∧ (e.isConsume = true → t.Stopped order) := by
    refine ends_fetch ?_
    have hshows : (LoadM.next 1 s.base).2.Shows data := Reader.shows_consume 1 hs.shows
    have hdry : ∀ offset desired got, (LoadM.next 1 s.base).1 = .error (.consume offset desired got) →
        (LoadM.next 1 s.base).2.reader.Dry (LoadM.next 1 s.base).2.sources :=
      fun _ _ _ herror => Reader.dry_of_consume hs.shows (Prod.ext herror rfl)
    rw [Ends]
    cases hresult : (LoadM.next 1 s.base).1 with
    | ok bytes => trivial
    | error e =>
      refine ⟨hshows, fun hconsume => ⟨hs.packing, hidle, ?_⟩⟩
      cases e with
      | consume offset desired got => exact hdry _ _ _ hresult
      | io | outOfBounds | store | readOnly | poisoned => cases hconsume
  rcases hs.next with hfollows | hstopped
  · refine ((follows_fetch hfollows hidle).and hstops).mono fun result t ht => ?_
    cases result with
    | ok _ => exact ht.1
    | error e => exact ht.2
  · have hnone : Ends fetch s fun result _ => match result with
        | .ok () => False
        | .error _ => True := by
      refine ends_fetch ?_
      rw [Ends]
      cases hresult : (LoadM.next 1 s.base).1 with
      | ok bytes => exact hstopped.dry.consume_ne_ok bytes hresult
      | error e => trivial
    refine (hnone.and hstops).mono fun result t ht => ?_
    cases result with
    | ok _ => exact ht.1.elim
    | error e => exact ht.2

/-- A field of bits handed out. -/
theorem heads_read (width : Nat) (hs : s.Heads data order start handed) :
    Ends (read width) s (HeadsBy data order start handed (Bitmap.stream order)) := by
  refine (ends_read (fun done t => t.Heads data order start (handed ++ done))
    (fun done => Streams data order start (handed ++ done))
    (fun e t => t.base.Shows data ∧ (e.isConsume = true → t.Stopped order))
    (fun done t _ ht hnone => heads_fetch ht (t.pending_eq_nil.2 hnone)) (fun done t ht hsome => ?_)
    (fun done t count hpos _ _ ht => ?_) (by simpa using hs)).mono fun result t ht => ?_
  · rcases ht.next with hfollows | hstopped
    · exact ⟨hfollows.shows, hfollows.packing, hfollows.bytes⟩
    · exact absurd (t.pending_eq_nil.1 hstopped.idle) hsome
  · rw [← List.append_assoc]
    exact (follows_skip ht hpos).heads
  · cases result with
    | error e =>
      refine ⟨ht.1, nofun, fun e' he' => ?_⟩
      cases he'
      exact ht.2
    | ok value =>
      obtain ⟨bits, -, rfl, -, ht⟩ := ht
      refine ⟨ht.shows, fun value hvalue => ?_, nofun⟩
      cases hvalue
      rwa [hs.packing, Bitmap.stream_ofStream]

theorem stopped_ofLedger {α : Type} (m : LedgerM κ α) (hs : s.Stopped order) :
    Ends (ofLedger m) s fun _ t => t.Stopped order :=
  ⟨hs.packing, hs.idle, hs.dry⟩

/-- Handles do not matter to the bits. -/
theorem heads_ofLedger {α : Type} (m : LedgerM κ α) (hs : s.Heads data order start handed) :
    Ends (ofLedger m) s fun _ t => t.Heads data order start handed := by
  refine ⟨hs.shows, hs.bits, ?_⟩
  rcases hs.next with hnext | hnext
  · exact .inl (follows_ofLedger m hnext)
  · exact .inr (stopped_ofLedger m hnext)

end BitLoadM

/-! ## Atoms of bits -/

/-- What an atom of bits was made into: its bits come after those handed out before. -/
def Outcome.Heads (data : Bytes) (order : ByteOrder) (start : Nat) (handed : List Bool)
    (out : Outcome κ) (t : BitLoadState κ) : Prop :=
  HeadsBy data order start handed (Atom.stream order)
    (match out.error? with
      | none => .ok out.atom
      | some e => .error e) t

def HeadsBits (data : Bytes) (order : ByteOrder) (start : Nat) (part : LoadPart (BitLoadM κ) κ) : Prop :=
  ∀ frames a handed s, s.Heads data order start handed →
    Ends (part frames a) s (Outcome.Heads data order start handed)

namespace Outcome.Heads

variable {handed : List Bool} {s t : BitLoadState κ} {out : Outcome κ}

/-- A failure that tells nothing about the source. -/
theorem failed (hs : s.base.Shows data) (a : Atom κ) {e : Error} (he : e.isConsume = false) :
    Outcome.Heads data order start handed ⟨a, some e⟩ s := by
  refine ⟨hs, fun b h => ?_, fun e' h hconsume => ?_⟩
  · cases h
  · cases h
    rw [he] at hconsume
    cases hconsume

/-- The failure of a part, passed on. -/
theorem passed {handed' : List Bool} (h : out.Heads data order start handed t) {e e' : Error}
    (herror : out.error? = some e) (hsame : e'.isConsume = e.isConsume) (a : Atom κ) :
    Outcome.Heads data order start handed' ⟨a, some e'⟩ t := by
  rw [Outcome.Heads, herror] at h
  refine ⟨h.shows, fun b hb => ?_, fun e'' he'' hconsume => ?_⟩
  · cases hb
  · cases he''
    rw [hsame] at hconsume
    exact h.short e rfl hconsume

theorem heads (h : out.Heads data order start handed t) (herror : out.error? = none) :
    t.Heads data order start (handed ++ out.atom.stream order) := by
  rw [Outcome.Heads, herror] at h
  exact h.ok out.atom rfl

/-- A complete atom of bits. -/
theorem ofFrame {f : Frame κ} (hs : s.Heads data order start (handed ++ f.close.stream order)) :
    Outcome.Heads data order start handed ⟨f.close.ready, none⟩ s := by
  refine ⟨hs.shows, fun a h => ?_, fun e h => ?_⟩
  · cases h
    rwa [stream_ready]
  · cases h

end Outcome.Heads

section Load

variable {env : Env κ} {part : LoadPart (BitLoadM κ) κ}

theorem heads_loadBitFields (hpart : HeadsBits data order start part) (frames : List (Frame κ))
    {f : Frame κ} (hf : f.content = .group) (hright : f.right = []) (index cursor : Nat)
    (fields : List (BitField κ (BitLayout κ))) {handed : List Bool} {s : BitLoadState κ}
    (hs : s.Heads data order start (handed ++ f.close.stream order)) :
    Ends (loadBitFields env part frames f index cursor fields) s
      (Outcome.Heads data order start handed) := by
  induction fields generalizing f index cursor s with
  | nil => exact Ends.pure (.ofFrame hs)
  | cons field fields ih =>
    rw [loadBitFields]
    split
    · rename_i e hresolve
      apply Ends.pure
      apply Outcome.Heads.failed hs.shows
      rw [Error.isConsume_within]
      exact Env.isConsume_resolveBits hresolve
    · rename_i layout _
      refine (BitLoadM.heads_ofLedger (LedgerM.spawn field.name (.bits layout) cursor) hs).bind
        fun blank t ht => ?_
      refine (hpart _ _ _ _ ht).bind fun out u hu => ?_
      dsimp only
      split
      · rename_i e herror
        exact Ends.pure (hu.passed herror (Error.isConsume_within _ e) _)
      · rename_i herror
        apply ih (f := f.push out.atom) hf hright
        rw [Frame.stream_push hf hright, ← List.append_assoc]
        exact hu.heads herror

/-- The element that could not be completed is dropped, and the bits handed out for it are the last
ones. -/
theorem heads_loadBitElements (hpart : HeadsBits data order start part) (element : BitLayout κ)
    (shape : BitShape κ) (frames : List (Frame κ)) (budget : Nat) {f : Frame κ}
    (hf : f.content = .group) (hright : f.right = []) (index cursor : Nat) {handed : List Bool}
    {s : BitLoadState κ} (hs : s.Heads data order start (handed ++ f.close.stream order)) :
    Ends (loadBitElements env part element shape frames budget f index cursor) s
      (Outcome.Heads data order start handed) := by
  induction budget generalizing f index cursor s with
  | zero =>
    rw [loadBitElements]
    split
    · exact Ends.pure (.ofFrame hs)
    · exact Ends.pure (.failed hs.shows _ rfl)
  | succ budget ih =>
    rw [loadBitElements]
    split
    · exact Ends.pure (.ofFrame hs)
    · refine (BitLoadM.heads_ofLedger (LedgerM.spawn (toString index) (.bits element) cursor) hs).bind
        fun blank t ht => ?_
      refine (hpart _ _ _ _ ht).bind fun out u hu => ?_
      split
      · rename_i herror _
        have hmore : u.Heads data order start (handed ++ (f.push out.atom).close.stream order) := by
          rw [Frame.stream_push hf hright, ← List.append_assoc]
          exact hu.heads herror
        split
        · exact Ends.pure (.ofFrame hmore)
        · exact ih (f := f.push out.atom) hf hright _ _ hmore
      · rename_i e _ herror _
        exact Ends.pure (hu.passed herror (Error.isConsume_within _ e) _)
      · rename_i e _ herror _
        split
        · exact Ends.pure (hu.passed herror (Error.isConsume_within _ e) _)
        · rename_i hconsume
          have hstopped : u.Stopped order := by
            rw [Outcome.Heads, herror] at hu
            exact hu.short e rfl (by simpa using hconsume)
          -- the bits of the atoms kept before are still the first ones
          have hkept : u.Heads data order start (handed ++ f.close.stream order) :=
            ⟨hu.shows, hs.bits, .inr hstopped⟩
          refine ((BitLoadM.heads_ofLedger (LedgerM.release out.atom) hkept).and
            (BitLoadM.stopped_ofLedger _ hstopped)).bind fun _ v hv => ?_
          have hbounded : Ends (BitLoadM.bounded : BitLoadM κ Bool) v fun _ w => w = v := rfl
          refine hbounded.bind fun known w hw => ?_
          subst hw
          split
          · refine (BitLoadM.heads_ofLedger (LedgerM.warn
              (.unterminatedArray (Place.path ⟨f.close, frames⟩) index)) hv.1).bind fun _ x hx => ?_
            exact Ends.pure (.ofFrame hx)
          · refine Ends.pure ⟨hv.1.shows, fun b h => ?_, fun _ _ _ => hv.2⟩
            cases h

/-- The bits of an atom that was read come after those handed out before, and with these they are the
first ones of the data. -/
theorem heads_loadBits (env : Env κ) (data : Bytes) (order : ByteOrder) (start depth : Nat) :
    HeadsBits data order start (loadBits env depth) := by
  induction depth with
  | zero => exact fun _ _ _ _ hs => Ends.pure (.failed hs.shows _ rfl)
  | succ depth ih =>
    intro frames a handed s hs
    have hempty : s.Heads data order start (handed ++ (a.fill .group []).frame.close.stream order) := by
      rw [close_frame]
      show s.Heads data order start (handed ++ [])
      rwa [List.append_nil]
    rw [loadBits]
    split
    · exact Ends.pure (.failed hs.shows _ rfl)
    · rename_i bits signed _
      refine (BitLoadM.heads_read bits hs).bind fun result t ht => ?_
      cases result with
      | error e =>
        refine Ends.pure ⟨ht.shows, fun b h => ?_, fun e' h => ?_⟩
        · cases h
        · cases h
          exact ht.short e rfl
      | ok value =>
        refine Ends.pure ⟨ht.shows, fun b h => ?_, fun e h => ?_⟩
        · cases h
          show t.Heads data order start (handed ++ (value.withSign signed).stream order)
          rw [Bitmap.stream_withSign]
          exact ht.ok value rfl
        · cases h
    · exact heads_loadBitFields ih frames rfl rfl _ _ _ hempty
    · exact heads_loadBitElements ih _ _ frames _ rfl rfl _ _ hempty

end Load

/-! ## Hosts of bits -/

/-- The bytes of a beginning of a stream that stops between two bytes. -/
theorem BitStream.pack_prefix {bits : List Bool} {bytes : Bytes}
    (h : bits <+: bytes.flatMap (ofByte order)) (hwhole : bits.length % 8 = 0) :
    pack order bits <+: bytes := by
  have hshort := h.length_le
  rw [length_flatMap_ofByte] at hshort
  have hfront : (bytes.take (bits.length / 8)).flatMap (ofByte order) <+: bytes.flatMap (ofByte order) := by
    refine ⟨(bytes.drop (bits.length / 8)).flatMap (ofByte order), ?_⟩
    rw [← List.flatMap_append, List.take_append_drop]
  have hlength : ((bytes.take (bits.length / 8)).flatMap (ofByte order)).length = bits.length := by
    rw [length_flatMap_ofByte, List.length_take]
    omega
  have hsame : bits = (bytes.take (bits.length / 8)).flatMap (ofByte order) :=
    (List.prefix_of_prefix_length_le h hfront (Nat.le_of_eq hlength.symm)).eq_of_length hlength.symm
  rw [hsame, pack_flatMap]
  exact List.take_prefix _ _

/-- The root and the unused bits of a host that was loaded from the data at `offset`: the bytes of the
host are those of the data, unless the unused bits were lost. Without a warning they were not. -/
structure Hosted (data : Bytes) (order : ByteOrder) (offset : Nat) (quiet : Prop) (root : Atom κ)
    (pad : Bitmap) : Prop where
  bits : root.stream order <+: (data.drop offset).flatMap (BitStream.ofByte order)
  bytes : BitStream.pack order (BitStream.close order (root.stream order) pad) <+: data.drop offset
    ∨ ¬ quiet ∧ BitStream.close order (root.stream order) pad = root.stream order

/-- The bits of a root that was read, together with those left over. -/
theorem BitLoadState.Heads.hosted {quiet : Prop} {root : Atom κ} {t : BitLoadState κ}
    (h : t.Heads data order start (root.stream order))
    (hwhole : quiet → (root.bitCount + t.reader.remaining) % 8 = 0) :
    Hosted data order start quiet root t.reader.pad := by
  refine ⟨h.bits, ?_⟩
  rcases h.next with hfollows | hstopped
  · exact .inl hfollows.pack_close
  · have hnone := t.pending_eq_nil.1 hstopped.idle
    have hclose : BitStream.close order (root.stream order) t.reader.pad = root.stream order := by
      rw [BitStream.close, BitReader.width_pad, hnone, if_neg (by omega)]
    by_cases hquiet : quiet
    · left
      rw [hclose]
      apply BitStream.pack_prefix h.bits
      have hbits := hwhole hquiet
      rwa [hnone, Nat.add_zero, ← length_stream order] at hbits
    · exact .inr ⟨hquiet, hclose⟩

section Load

variable {env : Env κ}

/-- What a host of bits was made into from the atom `a`, when `ended` arrays had been found to end
with their source before. -/
def Outcome.HostedIn (data : Bytes) (order : ByteOrder) (a : Atom κ) (ended : Nat) (out : Outcome κ)
    (t : LoadState κ) : Prop :=
  out.error? = none → ∃ root pad, out.atom = (hostedBits a root pad).ready
    ∧ Hosted data order a.info.offset (t.ledger.unterminated = ended) root pad

theorem hosted_loadRoot (depth : Nat) (frames : List (Frame κ)) (a root : Atom κ) {s : LoadState κ}
    (hs : s.Shows data) :
    Ends (loadRoot env depth order frames a root) s
      (Outcome.HostedIn data order a s.ledger.unterminated) := by
  rw [loadRoot]
  have hseek : Ends (LoadM.seekTo a.info.offset 1) s fun result t =>
      t.ledger = s.ledger ∧ t.Shows data ∧ (result = .ok () → t.Stands a.info.offset) :=
    ⟨rfl, LoadM.shows_seekTo a.info.offset 1 hs⟩
  refine hseek.bind fun result t ht => ?_
  obtain ⟨hledger, hshows, hstands⟩ := ht
  split
  · intro herror
    cases herror
  · have hstart : BitLoadState.Follows data order a.info.offset []
        ⟨t, .new order, a.info.offset⟩ :=
      ⟨hshows, rfl, by simp, [], List.nil_prefix, hstands rfl, by simp⟩
    have hread : Ends (BitLoadM.run order a.info.offset
        (loadBits env depth ((a.fill (.host .empty) []).frame :: frames) root)) t
        fun result u => result.1.error? = none → Hosted data order a.info.offset
          (u.ledger.unterminated = s.ledger.unterminated) result.1.atom result.2 := by
      have hheads := heads_loadBits env data order a.info.offset depth
        ((a.fill (.host .empty) []).frame :: frames) root [] _ hstart.heads
      have hspans := spansBits_loadBits env data depth ((a.fill (.host .empty) []).frame :: frames)
        root ⟨t, .new order, a.info.offset⟩ ⟨hshows, hstands rfl⟩
      intro herror
      rw [← hledger]
      apply (hheads.heads herror).hosted
      intro hquiet
      have hcounted := hspans.counted herror
      have hexact := hspans.exact herror hquiet
      have hnext := hspans.advances.next
      rw [← BitLoadState.length_pending]
      simp only [BitLoadState.pending_mk, BitReader.pending_new, List.length_nil, Nat.add_zero]
        at hcounted hexact hnext
      omega
    refine hread.bind fun result u hu => ?_
    obtain ⟨out, pad⟩ := result
    dsimp only
    split
    · intro herror
      cases herror
    · rename_i herror
      intro _
      exact ⟨out.atom, pad, rfl, hu herror⟩

/-- A host whose root is known to have no bits reads nothing. -/
theorem hosted_loadHost (depth : Nat) (layout : BitLayout κ) (frames : List (Frame κ)) (a : Atom κ)
    {s : LoadState κ} (hs : s.Shows data) :
    Ends (loadHost env depth layout order frames a) s
      (Outcome.HostedIn data order a s.ledger.unterminated) := by
  rw [loadHost]
  split
  · intro herror
    cases herror
  · rename_i position _
    have hspawn : Ends (LoadM.ofLedger (LedgerM.spawn "" (.bits layout) position)) s fun root t =>
        root.info.layout = .bits layout ∧ t.Shows data
          ∧ t.ledger.unterminated = s.ledger.unterminated :=
      ⟨rfl, hs, s.ledger.unterminated_take⟩
    refine hspawn.bind fun root t ht => ?_
    obtain ⟨hlayout, hshows, hledger⟩ := ht
    split
    · rename_i hzero
      have hwidth : Ends (LoadM.ofLedger (allocateBits env depth
          ((a.fill (.host .empty) []).frame :: frames) root)) t fun out _ =>
          out.error? = none → out.atom.bitCount = 0 :=
        keepsWidth_allocateBits env depth _ root layout 0 t.ledger hlayout hzero
      refine hwidth.bind fun out u hout => ?_
      split
      · intro herror
        cases herror
      · rename_i herror
        intro _
        have hnil : out.atom.stream order = [] :=
          List.eq_nil_of_length_eq_zero ((length_stream order out.atom).trans (hout herror))
        refine ⟨out.atom, .empty, rfl, ?_, .inl ?_⟩
        · rw [hnil]
          exact List.nil_prefix
        · rw [hnil]
          exact List.nil_prefix
    · rw [← hledger]
      exact hosted_loadRoot depth frames a root hshows

/-- A host of bits that was loaded, whatever it held before. -/
theorem hosted_load (depth : Nat) {layout : BitLayout κ} (frames : List (Frame κ)) (a : Atom κ)
    (hlayout : a.info.layout = .bytes (.bits layout order)) {s : LoadState κ} (hs : s.Shows data) :
    Ends (load env depth frames a) s fun out t => ∃ b : Atom κ, b.IsBlank ∧ b.info.site = a.info.site
      ∧ out.HostedIn data order b s.ledger.unterminated t := by
  cases depth with
  | zero =>
    refine ⟨a.cleared, isBlank_cleared a, site_cleared a, fun herror => ?_⟩
    cases herror
  | succ depth =>
    rw [load, hlayout]
    have hclear : Ends (LoadM.ofLedger (LedgerM.clear a)) s fun b t => b.IsBlank
        ∧ b.info.site = a.info.site ∧ t.Shows data
        ∧ t.ledger.unterminated = s.ledger.unterminated := by
      obtain ⟨hblank, hsame⟩ := Ends.clear a s.ledger
      exact ⟨hblank, hsame.site, hs, s.ledger.unterminated_releaseAll a.parts⟩
    refine hclear.bind fun b t hb => ?_
    obtain ⟨hblank, hsite, hshows, hledger⟩ := hb
    refine ⟨b, hblank, hsite, ?_⟩
    rw [← hledger]
    exact hosted_loadHost depth layout frames b hshows

end Load

/-- A host has as many bytes as the bits of its atoms need. -/
theorem BitStream.length_pack_close_eq (bits : List Bool) (pad : Bitmap) :
    (pack order (close order bits pad)).length = bytesOfBits bits.length := by
  rw [length_pack, close, bytesOfBits]
  split
  · rw [List.length_append, Bitmap.length_stream]
    omega
  · rfl

/-- The bytes of a host. -/
theorem serialize_hostedBits {a root : Atom κ} {layout : BitLayout κ} (hblank : a.IsBlank)
    (hlayout : a.info.layout = .bytes (.bits layout order)) (pad : Bitmap) (standard : ByteOrder) :
    (hostedBits a root pad).ready.serialize standard =
      BitStream.pack order (BitStream.close order (root.stream order) pad) := by
  have hbits : (hostedBits a root pad).isBits = false := by
    rw [isBits, hostedBits, info_fill, hlayout]
    rfl
  have hsame : (hostedBits a root pad).ready.serialize standard
      = (hostedBits a root pad).serialize standard := by
    rw [hostedBits]
    cases a
    rfl
  have htail : (hostedBits a root pad).info.tail = [] := by
    rw [hostedBits, info_fill]
    exact hblank.tail
  rw [hsame, serialize_of_bytes standard hbits, htail, List.append_nil, contentBytes_hostedBits hlayout]

namespace Document

variable {d : Document κ}

/-- A host of bits that was loaded from bytes in memory: the bits of its atoms are the first ones from
its offset on, and it is written back as these bytes. Only when an array was found to end with its
source may the unused bits of the last byte be written as zeros. -/
theorem serialize_loadNew_bits {t : Document κ} {data : Array UInt8} {writable : Bool} {cursor : Nat}
    (hsource : d.sources.source? d.source = some (.memory data writable cursor))
    {layout : BitLayout κ} {order : ByteOrder} {name : String} {offset id : Nat}
    (hrun : (loadNew (.bits layout order) name offset).run d = (.ok id, t)) :
    ∃ p root, t.find? id = some p ∧ p.frames = [] ∧ p.atom.info.layout = .bytes (.bits layout order)
      ∧ p.atom.info.offset = offset ∧ p.atom.parts = [root]
      ∧ p.atom.size = bytesOfBits root.bitCount
      ∧ root.stream order <+: (data.toList.drop offset).flatMap (BitStream.ofByte order)
      ∧ ∀ standard, (p.serialize standard).length = p.atom.size
        ∧ (p.serialize standard = (data.extract offset (offset + p.atom.size)).toList
          ∨ t.ledger.unterminated ≠ d.ledger.unterminated
            ∧ p.serialize standard = BitStream.pack order (root.stream order)) := by
  obtain ⟨out, s, others, hload, herror, rfl, hroots, hledger, -⟩ :=
    (yields_loadNew_next d (.bits layout order) name offset).of_ok hrun
  have hshows : d.loadingNext.Shows data.toList := ⟨writable, cursor, hsource⟩
  have hhost : Ends (load d.env Layout.nestingLimit [] (d.next (.bits layout order) name offset))
      d.loadingNext _ := hosted_load Layout.nestingLimit [] _ rfl hshows
  rw [Ends, hload] at hhost
  obtain ⟨b, hblank, hsite, hhosted⟩ := hhost
  obtain ⟨root, pad, hatom, hhosted⟩ := hhosted herror
  have hlayout : b.info.layout = .bytes (.bits layout order) := Info.layout_of_site hsite
  have hoffset : b.info.offset = offset := Info.offset_of_site hsite
  have hinfo : out.atom.info.site = b.info.site := by
    rw [hatom, site_ready, hostedBits, info_fill]
  have hparts : out.atom.parts = [root] := by
    rw [hatom, parts_ready, hostedBits, parts_fill]
  have hbytes (standard : ByteOrder) : Place.serialize ⟨out.atom, []⟩ standard =
      BitStream.pack order (BitStream.close order (root.stream order) pad) := by
    rw [Place.serialize, hatom]
    exact serialize_hostedBits hblank hlayout pad _
  have hlaid := laid_load d.env Layout.nestingLimit [] (d.next (.bits layout order) name offset)
    d.loadingNext
  rw [Ends, hload] at hlaid
  have hlength (standard : ByteOrder) :
      (Place.serialize ⟨out.atom, []⟩ standard).length = out.atom.size :=
    length_serialize _ out.atom (hlaid herror).1
  have hsize : out.atom.size = bytesOfBits root.bitCount := by
    rw [← hlength .big, hbytes, BitStream.length_pack_close_eq, length_stream]
  refine ⟨⟨out.atom, []⟩, root, find?_of_roots hroots, rfl, ?_, ?_, hparts, hsize, ?_,
    fun standard => ⟨hlength standard, ?_⟩⟩
  · exact (Info.layout_of_site hinfo).trans hlayout
  · exact (Info.offset_of_site hinfo).trans hoffset
  · rw [← hoffset]
    exact hhosted.bits
  · rcases hhosted.bytes with hprefix | ⟨hwarned, hclose⟩
    · left
      rw [← hbytes standard, List.prefix_iff_eq_take, hlength, hoffset] at hprefix
      rw [Array.toList_extract, List.extract_eq_take_drop, Nat.add_sub_cancel_left]
      exact hprefix
    · right
      refine ⟨fun hquiet => hwarned ?_, ?_⟩
      · rw [← hledger, hquiet]
        exact (Ledger.unterminated_take _).symm
      · rw [hbytes, hclose]

/-- A document over some bytes, where an array of bits that a rule ends goes up to a field of zeros. -/
def upToZero (data : Array UInt8) : Document Unit where
  env :=
    { config := {}
      rules :=
        { layout := fun _ _ => .ok (.block 1)
          bitLayout := fun _ _ => .ok (.int 1 false)
          extent := fun _ _ => .ok 0
          update := fun _ _ => .ok (.bool true)
          accepts := fun _ _ _ p => match p.atom.content with
            | .bits value => decide (value.value = 0)
            | _ => false
          distance := fun _ n => n
          toAddress := fun _ _ _ => .ok 0
          ofAddress := fun _ _ _ => .ok 0 } }
  sources := [.memory data false 0]
  source := 0

/-- Three bits and fields of four bits up to one of zeros, with one unused bit. -/
theorem serialize_loadNew_bits_of_zero :
    let layout : BitLayout Unit := .record "head" [⟨"kind", .given (.int 3 false)⟩,
      ⟨"items", .given (.array (.int 4 false) (.terminated ()))⟩]
    let run := (loadNew (.bits layout .big) "x" 1).run (upToZero #[9, 0xA5, 0x81, 7])
    run.1.toOption = some 0 ∧ ∃ p root, run.2.find? 0 = some p ∧ p.atom.parts = [root]
      ∧ root.bitCount = 15 ∧ ∀ standard, p.serialize standard = [0xA5, 0x81] := by
  intro layout run
  have hok : run.1.toOption = some 0 := by decide +kernel
  have hrun : (loadNew (.bits layout .big) "x" 1).run (upToZero #[9, 0xA5, 0x81, 7])
      = (.ok 0, run.2) := run_of_toOption hok
  have hsource : (upToZero #[9, 0xA5, 0x81, 7]).sources.source? (upToZero #[9, 0xA5, 0x81, 7]).source
      = some (.memory #[9, 0xA5, 0x81, 7] false 0) := rfl
  obtain ⟨p, root, hfind, -, -, -, hparts, hsize, -, hbytes⟩ := serialize_loadNew_bits hsource hrun
  have hcount : (run.2.find? 0).map (fun p => p.atom.parts.map bitCount) = some [15] := by
    decide +kernel
  rw [hfind, Option.map_some, hparts] at hcount
  have hfifteen : root.bitCount = 15 := List.head_eq_of_cons_eq (Option.some.inj hcount)
  have hquiet : run.2.ledger.unterminated = (upToZero #[9, 0xA5, 0x81, 7]).ledger.unterminated := by
    decide +kernel
  refine ⟨hok, p, root, hfind, hparts, hfifteen, fun standard => ?_⟩
  have hslice := (hbytes standard).2.resolve_right fun h => h.1 hquiet
  rw [hsize, hfifteen] at hslice
  exact hslice

/-- Five bits of one byte are an element, and the other three are lost with the next one. -/
theorem serialize_loadNew_ne_of_dropped_bits :
    let run := (loadNew (.bits (.array (.int 5 false) (.terminated ())) .big) "h" 0).run
      (upToZero #[0xFF])
    run.1.toOption = some 0 ∧ ∃ p, run.2.find? 0 = some p ∧ p.atom.size = 1
      ∧ p.serialize .big ≠ (#[0xFF].extract 0 (0 + p.atom.size) : Array UInt8).toList := by
  intro run
  have hok : run.1.toOption = some 0 := by decide +kernel
  have hshown : (run.2.find? 0).map (fun p => (p.atom.size, p.serialize .big)) = some (1, [0xF8]) := by
    decide +kernel
  obtain ⟨p, hfind, hp⟩ := Option.map_eq_some_iff.1 hshown
  simp only [Prod.mk.injEq] at hp
  refine ⟨hok, p, hfind, hp.1, ?_⟩
  rw [hp.1, hp.2]
  decide

end Document

end BinaryLayout
