import BinaryLayout.Proofs.Codec.Varint
import BinaryLayout.Proofs.Replay.Gives

/-!
# Numbers in groups of seven bits

What is written for a number of 128 bits is read as that number, takes 19 bytes at most, and is as short
as it can be. A loader that stands at it takes these bytes and no more, whatever follows: it stops at the
first byte that none follows, and there is but one in an encoding.

## Main definitions

* `Varint.Delimited`: bytes that a loader tells from what follows them.

## Main statements

* `Varint.Whole.gives_readGroups`, `Varint.Whole.delimited`: a loader takes one encoding.
* `Varint.write_shortest`: what is written, read again.
-/

namespace BinaryLayout.Varint

variable {κ : Type}

/-- Wherever these bytes stand and whatever follows them, a loader takes them and no more. -/
def Delimited (κ : Type) (e : Bytes) : Prop :=
  ∀ (s : LoadState κ) (offset : Nat) (rest : Bytes), s.view.Gives offset (e ++ rest) →
    Ends (LoadM.readVarint offset) s fun result t => result = .ok e ∧ t.view.StandsAt (offset + e.length)

/-- The groups of an encoding, read one after another. -/
theorem Whole.gives_readGroups {e : Bytes} (h : Whole e) {budget : Nat} (hbudget : e.length ≤ budget)
    (read : Bytes) {k : Nat} {s : LoadState κ} (hat : s.view.StandsAt k) (hs : s.view.Gives k e) :
    Ends (LoadM.readGroups budget read) s fun result t =>
      result = .ok (read ++ e) ∧ t.view.StandsAt (k + e.length) := by
  induction h generalizing budget read k s with
  | @last b hlast =>
    obtain ⟨budget, rfl⟩ := Nat.exists_eq_succ_of_ne_zero (Nat.ne_of_gt hbudget)
    rw [LoadM.readGroups]
    refine (LoadM.gives_next Nat.one_pos rfl hat hs).bind fun result t ht => ?_
    obtain ⟨rfl, hat', -⟩ := ht
    dsimp only
    rw [List.any_cons, hlast, List.any_nil, Bool.or_false, if_neg Bool.false_ne_true]
    exact Ends.pure ⟨rfl, hat'⟩
  | @more b e hmore h ih =>
    obtain ⟨budget, rfl⟩ := Nat.exists_eq_succ_of_ne_zero (Nat.ne_of_gt (Nat.zero_lt_of_lt hbudget))
    have hcons : s.view.Gives k ([b] ++ e) := hs
    rw [LoadM.readGroups]
    refine (LoadM.gives_next Nat.one_pos rfl hat hcons.front).bind fun result t ht => ?_
    obtain ⟨rfl, hat', hkept⟩ := ht
    dsimp only
    rw [List.any_cons, hmore, Bool.true_or, if_pos rfl]
    refine (ih (Nat.le_of_succ_le_succ hbudget) (read ++ [b]) hat' (hcons.rest.of_rewound hkept)).mono
      fun result u hu => ?_
    obtain ⟨hresult, hstands⟩ := hu
    refine ⟨by rw [hresult, List.append_assoc]; rfl, ?_⟩
    rwa [List.length_cons, Nat.add_comm e.length, ← Nat.add_assoc]

/-- A loader tells an encoding of 19 groups at most from what follows it. -/
theorem Whole.delimited {e : Bytes} (h : Whole e) (hlength : e.length ≤ 19) : Delimited κ e := by
  intro s offset rest hs
  have hne : e ++ rest ≠ [] := fun hnil => by
    have hpos := h.length_pos
    rw [(List.append_eq_nil_iff.1 hnil).1] at hpos
    cases hpos
  rw [LoadM.readVarint]
  refine (LoadM.ends_seekTo offset 1 s).bind fun result t ht => ?_
  obtain ⟨hkept, hmoved, hstands⟩ := ht
  obtain rfl := hmoved.2 (hs.moved hne 0 (Nat.zero_le _))
  exact h.gives_readGroups hlength [] (hstands rfl) (hs.front.of_rewound hkept)

/-- No fewer bytes are read as the same number. -/
theorem length_writeNat_le_of_read {bytes : Bytes} {n : Nat} (h : readNat bytes = .ok n) :
    (writeNat n).length ≤ bytes.length := by
  obtain ⟨e, rest, rfl, he, -, rfl, -⟩ := readNat_eq_ok_iff.1 h
  rw [List.length_append]
  exact Nat.le_trans he.length_writeNat_le (Nat.le_add_right _ _)

/-- Nor as the same integer. The bits that the reader drops are in the last of 19 groups, so that fewer groups
stand for what is read. -/
theorem length_writeInt_le_of_read {bytes : Bytes} {n : Int} (h : readInt bytes = .ok n)
    (hlength : (writeInt n).length ≤ 19) : (writeInt n).length ≤ bytes.length := by
  obtain ⟨e, rest, rfl, he, -, hn⟩ := readInt_eq_ok_iff.1 h
  rw [List.length_append]
  by_cases hshort : e.length ≤ 18
  · have hrange : Codec.InRange true 16 (intValue e) := by
      obtain ⟨hlow, hhigh⟩ := he.intValue_range
      have hle : pow2 (7 * e.length - 1) ≤ pow2 127 := pow2_le_pow2 (by omega)
      exact inRange_iff.2 ⟨by omega, by omega⟩
    rw [bmod_eq_self_iff.2 hrange] at hn
    rw [← hn]
    exact Nat.le_trans he.length_writeInt_le (Nat.le_add_right _ _)
  · omega

/-- What is written for a number of 128 bits is read as that number, takes 19 bytes at most, is no longer than
any bytes that are read as the same number, and is told from what follows it. The same holds of integers. -/
theorem write_shortest :
    (∀ n < pow2 128, readNat (writeNat n) = .ok n ∧ (writeNat n).length ≤ 19
        ∧ (∀ bytes, readNat bytes = .ok n → (writeNat n).length ≤ bytes.length)
        ∧ Delimited κ (writeNat n))
      ∧ ∀ n, Codec.InRange true 16 n → readInt (writeInt n) = .ok n ∧ (writeInt n).length ≤ 19
        ∧ (∀ bytes, readInt bytes = .ok n → (writeInt n).length ≤ bytes.length)
        ∧ Delimited κ (writeInt n) := by
  constructor
  · intro n hn
    have hwhole := whole_writeNat n
    have hlength : (writeNat n).length ≤ 19 :=
      length_writeNatWith_le (k := 18) (Nat.lt_of_lt_of_le hn (pow2_le_pow2 (by decide)))
    exact ⟨readNat_eq_ok_iff.2 ⟨_, [], (List.append_nil _).symm, hwhole, hlength, natValue_writeNat n, hn⟩,
      hlength, fun bytes => length_writeNat_le_of_read, hwhole.delimited hlength⟩
  · intro n hn
    have hwhole := whole_writeInt n
    have hlength : (writeInt n).length ≤ 19 := by
      obtain ⟨hlow, hhigh⟩ := inRange_iff.1 hn
      have hle : pow2 127 ≤ pow2 (7 * 18 + 6) := pow2_le_pow2 (by decide)
      exact length_writeIntWith_le (k := 18) (by omega) (by omega)
    have hvalue : Int.bmod (intValue (writeInt n)) (pow2 128) = n := by
      rw [intValue_writeInt, bmod_eq_self_iff.2 hn]
    exact ⟨readInt_eq_ok_iff.2 ⟨_, [], (List.append_nil _).symm, hwhole, hlength, hvalue⟩, hlength,
      fun bytes h => length_writeInt_le_of_read h hlength, hwhole.delimited hlength⟩

def loaderOver (bytes : Bytes) : LoadState Unit := ⟨{}, [.memory bytes.toArray false 0], .source 0⟩

/-- The greatest number and the lowest integer of 128 bits, read between other bytes. -/
theorem write_shortest_of_extremes :
    pow2 128 - 1 < pow2 128 ∧ Codec.InRange true 16 (-(pow2 127 : Int))
      ∧ readNat (writeNat (pow2 128 - 1)) = .ok (pow2 128 - 1)
      ∧ readInt (writeInt (-(pow2 127 : Int))) = .ok (-(pow2 127 : Int))
      ∧ Ends (LoadM.readVarint 1) (loaderOver ([0xAA] ++ writeNat (pow2 128 - 1) ++ [0xFF])) (fun result t =>
        result = .ok (writeNat (pow2 128 - 1)) ∧ t.view.StandsAt (1 + (writeNat (pow2 128 - 1)).length))
      ∧ Ends (LoadM.readVarint 1) (loaderOver ([0xAA] ++ writeInt (-(pow2 127 : Int)) ++ [0xFF])) fun result t =>
        result = .ok (writeInt (-(pow2 127 : Int)))
          ∧ t.view.StandsAt (1 + (writeInt (-(pow2 127 : Int))).length) := by
  have hgives (e : Bytes) : (loaderOver ([0xAA] ++ e ++ [0xFF])).view.Gives 1 (e ++ [0xFF]) := by
    refine View.gives_memory rfl ?_
    rw [List.append_assoc]
    exact List.prefix_refl _
  have hgreatest : pow2 128 - 1 < pow2 128 := by decide
  have hlowest : Codec.InRange true 16 (-(pow2 127 : Int)) := by decide
  obtain ⟨hnat, -, -, hnatEnd⟩ := write_shortest.1 _ hgreatest
  obtain ⟨hint, -, -, hintEnd⟩ := write_shortest.2 _ hlowest
  exact ⟨hgreatest, hlowest, hnat, hint, hnatEnd _ 1 _ (hgives _), hintEnd _ 1 _ (hgives _)⟩

end BinaryLayout.Varint
