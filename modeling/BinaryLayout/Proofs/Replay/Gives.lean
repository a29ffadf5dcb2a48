import BinaryLayout.Proofs.Codec.Text
import BinaryLayout.Proofs.Replay.View

/-!
# Reading certain bytes

A view that gives certain bytes at an offset gives them to whatever reads as many of them. So what was
read once can be read again from any view of the bytes that were read, wherever these bytes are from
and whatever stands behind them.

## Main definitions

* `View.Gives`: a view that gives certain bytes at an offset.
* `View.Reads`: what a read at an offset gives.
* `NonzeroUnits`: the code units of a text that a zero unit may end.

## Main statements

* `View.Gives.front`, `View.Gives.rest`, `View.Gives.window`: parts of the bytes, and windows.
* `View.gives_ofBytes`, `View.gives_memory`: detached bytes and bytes in memory.
* `LoadM.ends_readAt`: a read at an offset.
* `LoadM.gives_readUnits`, `LoadM.units_readUnits`: code units up to a zero unit.
* `LoadM.again_readLeaf`: the bytes of a layout without parts.
-/

namespace BinaryLayout

variable {κ α : Type}

/-! ## Sources in memory -/

namespace Sources

/-- A source in memory can be moved to any offset up to its end. -/
theorem moved_of_memory {sources : Sources} {id : Nat} {data : Array UInt8} {writable : Bool} {cursor k : Nat}
    (h : sources.source? id = some (.memory data writable cursor)) (hk : k ≤ data.size) :
    sources.moved id k = .ok () := by
  induction sources with
  | nil => cases h
  | cons s older ih =>
    rw [source?_cons] at h
    split at h
    · rename_i hid
      cases h
      rw [hid, moved_newest, Source.seek, if_neg (by omega)]
      rfl
    · rename_i hid
      rw [moved_older hid]
      exact ih h

/-- It gives its bytes as they are. -/
theorem given_of_memory {sources : Sources} {id : Nat} {data : Array UInt8} {writable : Bool}
    {cursor k amount : Nat} (h : sources.source? id = some (.memory data writable cursor))
    (hk : k + amount ≤ data.size) : sources.given id k amount = .ok ((data.toList.drop k).take amount) := by
  induction sources with
  | nil => cases h
  | cons s older ih =>
    rw [source?_cons] at h
    split at h
    · rename_i hid
      cases h
      have hslice : slice data k amount k = .ok ((data.toList.drop k).take amount) := by
        rw [slice, if_pos hk, Array.toList_extract, List.extract_eq_take_drop, Nat.add_sub_cancel_left]
      rw [hid, given_newest, Source.standing, readHere, hslice]
    · rename_i hid
      rw [given_older hid]
      exact ih h

end Sources

/-! ## Views of certain bytes -/

namespace View

/-- The view gives these bytes at `start`, and any stretch of them. A view that has to give no bytes
need not even reach `start`. -/
structure Gives (v : View) (start : Nat) (bytes : Bytes) : Prop where
  moved : bytes ≠ [] → ∀ i ≤ bytes.length, v.moved (start + i) = .ok ()
  given : ∀ i n, 0 < n → i + n ≤ bytes.length → v.given (start + i) n = .ok ((bytes.drop i).take n)

/-- A read of so many bytes at the offset gives these bytes. -/
def Reads (v : View) (offset amount : Nat) (bytes : Bytes) : Prop :=
  if amount = 0 then bytes = [] else v.moved offset = .ok () ∧ v.given offset amount = .ok bytes

variable {v w : View} {start : Nat} {bytes first more : Bytes}

theorem Reads.of_rewound {offset amount : Nat} (h : v.Reads offset amount bytes)
    (hv : w.rewound = v.rewound) : w.Reads offset amount bytes := by
  rw [Reads] at h ⊢
  rwa [← w.moved_rewound, ← w.given_rewound, hv, v.moved_rewound, v.given_rewound]

namespace Gives

theorem of_rewound (h : v.Gives start bytes) (hv : w.rewound = v.rewound) : w.Gives start bytes := by
  refine ⟨fun hne i hi => ?_, fun i n hn hi => ?_⟩
  · rw [← moved_rewound, hv, moved_rewound]
    exact h.moved hne i hi
  · rw [← given_rewound, hv, given_rewound]
    exact h.given i n hn hi

theorem front (h : v.Gives start (bytes ++ more)) : v.Gives start bytes := by
  refine ⟨fun hne i hi => ?_, fun i n hn hi => ?_⟩
  · refine h.moved (fun hnil => hne (List.append_eq_nil_iff.1 hnil).1) i ?_
    rw [List.length_append]
    omega
  · rw [h.given i n hn (by rw [List.length_append]; omega), List.drop_append_of_le_length (by omega),
      List.take_append_of_le_length (by rw [List.length_drop]; omega)]

theorem rest (h : v.Gives start (first ++ bytes)) : v.Gives (start + first.length) bytes := by
  refine ⟨fun hne i hi => ?_, fun i n hn hi => ?_⟩
  · rw [Nat.add_assoc]
    refine h.moved (fun hnil => hne (List.append_eq_nil_iff.1 hnil).2) _ ?_
    rw [List.length_append]
    omega
  · rw [Nat.add_assoc, h.given _ n hn (by rw [List.length_append]; omega), ← List.drop_drop,
      List.drop_left' rfl]

/-- Windows that end after the bytes. -/
theorem window (h : v.Gives start bytes) {limit : Nat} (hlimit : start + bytes.length ≤ limit)
    (cursor : Nat) : (v.window limit cursor).Gives start bytes := by
  refine ⟨fun hne i hi => ?_, fun i n hn hi => ?_⟩
  · rw [moved_window, if_neg (by omega)]
    exact h.moved hne i hi
  · rw [given_window, if_neg (by omega)]
    exact h.given i n hn hi

/-- All the bytes at once. -/
theorem reads (h : v.Gives start bytes) : v.Reads start bytes.length bytes := by
  rw [Reads]
  split
  · exact List.eq_nil_of_length_eq_zero ‹_›
  · rename_i hpos
    have hmoved := h.moved (fun hnil => hpos (by rw [hnil]; rfl)) 0 (Nat.zero_le _)
    have hgiven := h.given 0 bytes.length (Nat.pos_of_ne_zero hpos) (by omega)
    rw [List.drop_zero, List.take_length] at hgiven
    exact ⟨hmoved, hgiven⟩

end Gives

/-- Detached bytes, as long as their end is an offset. -/
theorem gives_ofBytes {bytes : Bytes} {origin : Nat} (h : origin + bytes.length < pow2 64)
    (sources : Sources) : Gives (.ofBytes bytes origin, sources) origin bytes := by
  have hsize : bytes.toArray.size = bytes.length := rfl
  have hend : Reader.detachedEnd bytes.toArray origin = origin + bytes.length := Nat.mod_eq_of_lt h
  refine ⟨fun _ i hi => ?_, fun i n hn hi => ?_⟩
  · simp only [View.moved, Reader.ofBytes, Reader.moved, hend]
    rw [if_neg (by omega)]
  · simp only [View.given, Reader.ofBytes, Reader.given]
    rw [Nat.add_sub_cancel_left, Sources.slice, if_pos (by rw [hsize]; omega), Array.toList_extract,
      List.extract_eq_take_drop, Nat.add_sub_cancel_left]

/-- A source in memory gives any stretch of its bytes. -/
theorem gives_memory {sources : Sources} {id : Nat} {data : Array UInt8} {writable : Bool} {cursor : Nat}
    (h : sources.source? id = some (.memory data writable cursor)) (hbytes : bytes <+: data.toList.drop start) :
    Gives (.source id, sources) start bytes := by
  obtain ⟨more, hmore⟩ := hbytes
  have hlength : bytes.length + more.length = data.size - start := by
    rw [← List.length_append, hmore, List.length_drop, Array.length_toList]
  refine ⟨fun hne i hi => Sources.moved_of_memory h ?_, fun i n hn hi => ?_⟩
  · have hpos := List.length_pos_iff.2 hne
    omega
  · refine (Sources.given_of_memory h (by omega)).trans (congrArg Except.ok ?_)
    rw [← List.drop_drop, ← hmore, List.drop_append_of_le_length (by omega),
      List.take_append_of_le_length (by rw [List.length_drop]; omega)]

/-- A view that gave all bytes up to an offset in one go, and a view of these bytes, as far as there. -/
theorem Coherent.echoes (hv : v.Coherent) {cursor limit amount : Nat} (hpos : amount ≠ 0)
    (hread : v.Reads cursor amount bytes) (hlimit : cursor + amount = limit) (hlength : bytes.length = amount)
    (hw : w.Gives cursor bytes) (i j : Nat) : (v.window limit i).Echoes cursor (w.window limit j) := by
  rw [Reads, if_neg hpos] at hread
  obtain ⟨hmoved, hgiven⟩ := hread
  have hne : bytes ≠ [] := by
    rintro rfl
    exact hpos hlength.symm
  refine ⟨fun k hk => ?_, fun k n hk hn => ?_, ?_⟩
  · rw [moved_window, moved_window]
    split
    · exact .short rfl rfl
    · obtain ⟨m, rfl⟩ := Nat.exists_eq_add_of_le hk
      rw [hw.moved hne m (by omega)]
      cases hthere : v.moved (cursor + m) with
      | ok _ => exact .same ()
      | error e => exact .lost (hv.reach hmoved hgiven m (by omega) e hthere)
  · rw [given_window, given_window]
    split
    · exact .short rfl rfl
    · obtain ⟨m, rfl⟩ := Nat.exists_eq_add_of_le hk
      have hpart := hv.part hmoved hgiven m n hn (by omega)
      rw [hw.given m n hn (by omega)]
      cases hthere : v.given (cursor + m) n with
      | ok there =>
        rw [hthere] at hpart
        have hsame : there = (bytes.drop m).take n := hpart
        rw [hsame]
        exact .same _
      | error e =>
        rw [hthere] at hpart
        exact .lost hpart
  · rw [isSome_size?_window, isSome_size?_window]

end View

/-! ## Reads -/

/-- Code units of so many bytes, none of which are all zero. -/
def NonzeroUnits (unit : Nat) (units : List Bytes) : Prop :=
  ∀ bytes ∈ units, bytes.length = unit ∧ bytes.all (· = 0) = false

/-- A computation that only reads and warns leaves a view of what it was. -/
theorem Ends.kept {m : LoadM κ α} {s : LoadState κ} {post : α → LoadState κ → Prop} (h : Ends m s post)
    (hm : Harmless LoadState.record m) :
    Ends m s fun a t => post a t ∧ t.view.rewound = s.view.rewound :=
  ⟨h, (hm s).contents⟩

namespace LoadM

/-- A read at an offset. -/
theorem ends_readAt (offset amount : Nat) (s : LoadState κ) :
    Ends (readAt offset amount) s fun result t => t.view.rewound = s.view.rewound
      ∧ ∀ bytes, result = .ok bytes ↔ s.view.Reads offset amount bytes := by
  rw [readAt]
  split
  · rename_i hzero
    refine Ends.pure ⟨rfl, fun bytes => ?_⟩
    rw [View.Reads, if_pos hzero, Except.ok.injEq, eq_comm]
  · rename_i hpos
    refine (ends_seekTo offset amount s).bind fun result t ht => ?_
    obtain ⟨hkept, hmoved, hstands⟩ := ht
    cases result with
    | error e =>
      refine Ends.pure ⟨hkept, fun bytes => ?_⟩
      rw [View.Reads, if_neg hpos]
      exact ⟨(fun h => by cases h), fun h => by cases hmoved.2 h.1⟩
    | ok _ =>
      refine (ends_next amount (hstands rfl)).bind fun result u hu => Ends.pure ?_
      obtain ⟨hkept', rfl, -⟩ := hu
      refine ⟨hkept'.trans hkept, fun bytes => ?_⟩
      rw [View.Reads, if_neg hpos, ← t.view.given_rewound, hkept, View.given_rewound]
      constructor
      · exact fun h => ⟨hmoved.1 rfl, ok_of_mapError h⟩
      · intro h
        rw [h.2]
        rfl

/-- A read of bytes that the view gives. -/
theorem gives_readAt {offset amount : Nat} {bytes : Bytes} {s : LoadState κ}
    (h : s.view.Gives offset bytes) (hlength : bytes.length = amount) :
    Ends (readAt offset amount) s fun result t => result = .ok bytes
      ∧ t.view.rewound = s.view.rewound := by
  subst hlength
  exact (ends_readAt offset _ s).mono fun result t ht => ⟨(ht.2 bytes).2 h.reads, ht.1⟩

/-- A read of bytes that the view gives where it stands. -/
theorem gives_next {k amount : Nat} {bytes : Bytes} (hpos : 0 < amount) (hlength : bytes.length = amount)
    {s : LoadState κ} (hat : s.view.StandsAt k) (h : s.view.Gives k bytes) :
    Ends (next amount) s fun result t => result = .ok bytes ∧ t.view.StandsAt (k + amount)
      ∧ t.view.rewound = s.view.rewound := by
  have hgiven := h.given 0 amount hpos (by omega)
  rw [List.drop_zero, ← hlength, List.take_length, hlength, Nat.add_zero] at hgiven
  refine (ends_next amount hat).mono fun result t ht => ?_
  obtain ⟨hkept, hresult, hstands⟩ := ht
  rw [hgiven] at hresult
  exact ⟨hresult, (hstands bytes hresult).2, hkept⟩

/-! ## Bytes read again -/

/-- What is read now is read again from any view of it. -/
def ReadAgain (m m' : LoadM κ (Except Error Bytes)) (offset : Nat) (holds : Bytes → Prop)
    (s : LoadState κ) : Prop :=
  Ends m s fun result _ => ∀ raw, result = .ok raw → holds raw ∧ ∀ w : LoadState κ, w.view.Gives offset raw →
    Ends m' w fun result' _ => result' = .ok raw

theorem again_readAt (offset amount : Nat) (s : LoadState κ) :
    ReadAgain (readAt offset amount) (readAt offset amount) offset (·.length = amount) s :=
  (length_readAt offset amount s).mono fun _ _ hlength raw hraw =>
    ⟨hlength raw hraw, fun _ hw => (gives_readAt hw (hlength raw hraw)).mono fun _ _ h => h.1⟩

/-- Code units that are not zero are read up to the first one that is. -/
theorem gives_readUnits {unit : Nat} (hunit : 0 < unit) (limit : Nat) {units : List Bytes}
    (hunits : NonzeroUnits unit units) {budget : Nat} (hbudget : units.length < budget) (read : Bytes) {k : Nat}
    {s : LoadState κ} (hat : s.view.StandsAt k)
    (hs : s.view.Gives k (units.flatten ++ List.replicate unit 0)) :
    Ends (readUnits unit limit budget read) s fun result _ =>
      result = .ok (read.reverse ++ (units.flatten ++ List.replicate unit 0)) := by
  obtain ⟨budget, rfl⟩ := Nat.exists_eq_succ_of_ne_zero (Nat.ne_of_gt (Nat.zero_lt_of_lt hbudget))
  induction units generalizing budget read k s with
  | nil =>
    have hzero : (List.replicate unit (0 : UInt8)).all (· = 0) = true := by
      rw [List.all_replicate]
      simp
    rw [readUnits]
    refine (gives_next hunit List.length_replicate hat hs).bind fun result t ht => ?_
    obtain ⟨rfl, -⟩ := ht
    dsimp only
    rw [if_pos hzero, List.reverse_append, List.reverse_reverse]
    exact Ends.pure rfl
  | cons bytes units ih =>
    obtain ⟨⟨hlength, hmore⟩, hrest⟩ := List.forall_mem_cons.1 hunits
    obtain ⟨budget, rfl⟩ := Nat.exists_eq_succ_of_ne_zero
      (Nat.ne_of_gt (Nat.zero_lt_of_lt (Nat.lt_of_succ_lt_succ hbudget)))
    rw [List.flatten_cons, List.append_assoc] at hs
    rw [readUnits]
    refine (gives_next hunit hlength hat hs.front).bind fun result t ht => ?_
    obtain ⟨rfl, hat', hkept⟩ := ht
    dsimp only
    rw [hmore, if_neg Bool.false_ne_true]
    have hgives := hs.rest.of_rewound hkept
    rw [hlength] at hgives
    refine (ih hrest (bytes.reverse ++ read) hat' hgives budget (Nat.lt_of_succ_lt_succ hbudget)).mono
      fun result u hu => ?_
    rw [hu, List.reverse_append, List.reverse_reverse, List.flatten_cons]
    simp only [List.append_assoc]

/-- Nothing else is read. -/
theorem units_readUnits (unit limit budget : Nat) (read : Bytes) {k : Nat} {s : LoadState κ}
    (hs : s.view.StandsAt k) :
    Ends (readUnits unit limit budget read) s fun result _ => ∀ raw, result = .ok raw →
      ∃ units, NonzeroUnits unit units ∧ units.length < budget
        ∧ raw = read.reverse ++ (units.flatten ++ List.replicate unit 0) := by
  induction budget generalizing read k s with
  | zero => exact Ends.pure fun _ h => by cases h
  | succ budget ih =>
    rw [readUnits]
    refine (ends_next unit hs).bind fun result t ht => ?_
    obtain ⟨-, -, hstands⟩ := ht
    cases result with
    | error e => exact Ends.pure fun _ h => by cases h
    | ok bytes =>
      obtain ⟨hlength, hstands⟩ := hstands bytes rfl
      dsimp only
      split
      · rename_i hzero
        have hbytes : bytes = List.replicate unit 0 := by
          rw [← hlength]
          refine List.eq_replicate_of_mem fun b hb => ?_
          have := List.all_eq_true.1 hzero b hb
          simpa using this
        refine Ends.pure fun raw hraw => ⟨[], fun _ h => absurd h List.not_mem_nil, Nat.succ_pos _, ?_⟩
        cases hraw
        rw [List.reverse_append, List.reverse_reverse, List.flatten_nil, List.nil_append, hbytes]
      · rename_i hmore
        refine (ih (bytes.reverse ++ read) hstands).mono fun result u hu raw hraw => ?_
        obtain ⟨units, hunits, hbudget, hbody⟩ := hu raw hraw
        refine ⟨bytes :: units, ?_, Nat.succ_lt_succ hbudget, ?_⟩
        · exact List.forall_mem_cons.2 ⟨⟨hlength, Bool.eq_false_iff.2 hmore⟩, hunits⟩
        · rw [hbody, List.reverse_append, List.reverse_reverse, List.flatten_cons]
          simp only [List.append_assoc]

/-- Code units up to a zero unit, after those that were read. -/
theorem again_readUnits {unit : Nat} (hunit : 0 < unit) (limit budget : Nat) (read : Bytes) {k : Nat}
    {s : LoadState κ} (hs : s.view.StandsAt k) :
    Ends (readUnits unit limit budget read) s fun result _ => ∀ raw, result = .ok raw →
      ∃ body, raw = read.reverse ++ (body ++ List.replicate unit 0)
        ∧ ∀ w : LoadState κ, w.view.StandsAt k → w.view.Gives k (body ++ List.replicate unit 0) →
          Ends (readUnits unit limit budget read) w fun result' _ => result' = .ok raw := by
  refine (units_readUnits unit limit budget read hs).mono fun result t ht raw hraw => ?_
  obtain ⟨units, hunits, hbudget, rfl⟩ := ht raw hraw
  exact ⟨_, rfl, fun w hat hw => gives_readUnits hunit limit hunits hbudget read hat hw⟩

/-- A text with what marks its end. -/
theorem again_readText (format : TextFormat) (limit offset : Nat) (s : LoadState κ) :
    ReadAgain (readText format limit offset) (readText format limit offset) offset format.Framed s := by
  have hunit : 0 < format.encoding.unit := unit_pos _
  rw [ReadAgain, readText]
  simp only [TextFormat.Framed]
  cases hlength : format.length with
  | counted count =>
    dsimp only
    cases hbytes : unitBytes count format.encoding.unit with
    | error e => exact Ends.pure nofun
    | ok amount =>
      have hword := word?_of_unitBytes hbytes
      refine (again_readAt offset amount s).mono fun result t ht raw hraw => ?_
      obtain ⟨hlength, hagain⟩ := ht raw hraw
      rw [hword, hlength]
      exact ⟨rfl, hagain⟩
  | terminated =>
    dsimp only
    refine (ends_seekTo offset _ s).bind fun result t ht => ?_
    obtain ⟨-, -, hstands⟩ := ht
    cases result with
    | error e => exact Ends.pure nofun
    | ok _ =>
      refine (again_readUnits hunit limit _ [] (hstands rfl)).mono fun result u hu raw hraw => ?_
      obtain ⟨body, rfl, hagain⟩ := hu raw hraw
      refine ⟨⟨body, rfl⟩, fun w hw => ?_⟩
      have hne : body ++ List.replicate format.encoding.unit 0 ≠ [] := by
        intro hnil
        have hlength := congrArg List.length hnil
        rw [List.length_append, List.length_replicate, List.length_nil] at hlength
        omega
      refine (ends_seekTo offset _ w).bind fun result' x hx => ?_
      obtain ⟨hkept, hmoved, hstands⟩ := hx
      obtain rfl := hmoved.2 (hw.moved hne 0 (Nat.zero_le _))
      exact hagain x (hstands rfl) (hw.of_rewound hkept)
  | «prefixed» length =>
    dsimp only
    refine (again_readAt offset length.width s).bind fun result t ht => ?_
    cases result with
    | error e => exact Ends.pure nofun
    | ok front =>
      obtain ⟨hfront, hagain⟩ := ht front rfl
      dsimp only
      split
      · exact Ends.pure nofun
      · rename_i hcount
        cases hspan : spanEnd offset length.width with
        | error e => exact Ends.pure nofun
        | ok start =>
          cases hbytes : unitBytes (length.order.readNat front) format.encoding.unit with
          | error e => exact Ends.pure nofun
          | ok amount =>
            dsimp only
            refine (again_readAt start amount t).bind fun result u hu => Ends.pure fun raw hraw => ?_
            cases result with
            | error e => cases hraw
            | ok body =>
              cases hraw
              obtain ⟨hbody, hagain'⟩ := hu body rfl
              obtain ⟨rfl, -⟩ := spanEnd_eq hspan
              refine ⟨⟨front, body, rfl, hfront, ?_⟩, fun w hw => ?_⟩
              · exact hbody.trans (eq_of_word? (word?_of_unitBytes hbytes))
              · refine ((hagain w hw.front).kept (harmless_readAt _ _)).bind fun result' x hx => ?_
                obtain ⟨rfl, hkept⟩ := hx
                dsimp only
                rw [if_neg hcount, hbytes]
                dsimp only
                have hrest := hw.rest
                rw [hfront] at hrest
                refine (hagain' x (hrest.of_rewound hkept)).bind fun result' y hy => Ends.pure ?_
                rw [hy]
                rfl

/-- The bytes of any settable layout without parts. -/
theorem again_readLeaf {rules : Rules κ} (config : Config) {frames frames' : List (Frame κ)}
    {layout : Layout κ} (hframes : layout.Freestanding rules ∨ Frame.base frames = Frame.base frames')
    (hlayout : layout.SettableHere rules) (offset : Nat) (s : LoadState κ) :
    ReadAgain (readLeaf config frames layout offset) (readLeaf config frames' layout offset) offset
      layout.Holds s := by
  have hany (amount : Nat) : ReadAgain (readAt offset amount) (readAt offset amount) offset
      (fun _ => True) s :=
    (again_readAt offset amount s).mono fun _ _ h raw hraw => ⟨trivial, (h raw hraw).2⟩
  cases layout with
  | int | pointer => exact again_readAt offset _ s
  | block | constant | padding => exact hany _
  | align alignment =>
    rw [readLeaf, readLeaf, alignPadding_eq, alignPadding_eq, hframes.resolve_left fun h => h]
    exact hany _
  | text format => exact again_readText format _ offset s
  | record | array | union | bits => exact Ends.pure fun _ h => by cases h
  | float | fixed | varint => exact hlayout.elim

end LoadM

end BinaryLayout
