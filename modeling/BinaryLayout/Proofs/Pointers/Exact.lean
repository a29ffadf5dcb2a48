import BinaryLayout.Proofs.Ending.View
import BinaryLayout.Proofs.Pointers.Invertible

/-!
# Exact addresses

A pointer whose policy has no rules is followed to the exact sum of its number and of the offset that it
counts from, and it is refused exactly if this is no address of 64 bits. The sum is one of 128 bits: where the
number fits into these with a sign, it cannot come out as another address, for the offsets are those of 64
bits. The bytes of an atom, taken out of their source for a copy, can be read at all of their offsets and
nowhere else, as long as they end within 64 bits.

## Main definitions

* `Reader.ReadsExactly`: bytes that can be read where they stood.

## Main statements

* `Document.Balanced.yields_dereference_exact`: where a pointer is followed to, and why it is not.
* `Reader.readsExactly`: where detached bytes can be read.
* `Document.Reachable.offsets_exact`: both in a document.
-/

namespace BinaryLayout

variable {κ : Type}

open Atom

/-! ## Detached bytes -/

/-- Bytes that were taken out of their source can be read where they stood, and nowhere else. -/
structure Reader.ReadsExactly (bytes : Bytes) (origin : Nat) : Prop where
  size : ∀ k sources, origin ≤ k →
    View.size? (.detached bytes.toArray origin k, sources) = some (origin + bytes.length)
  seek : ∀ k sources, origin ≤ k → ∀ offset,
    (∃ j v, View.seek (.detached bytes.toArray origin k, sources) offset = (.ok j, v))
      ↔ origin ≤ offset ∧ offset ≤ origin + bytes.length
  consume : ∀ k sources, origin ≤ k → ∀ amount,
    (∃ read v, View.consume (.detached bytes.toArray origin k, sources) amount = (.ok read, v))
      ↔ k + amount ≤ origin + bytes.length

/-- It is so if they end within 64 bits. -/
theorem Reader.readsExactly {bytes : Bytes} {origin : Nat} (hword : origin + bytes.length < pow2 64) :
    ReadsExactly bytes origin := by
  have hend : detachedEnd bytes.toArray origin = origin + bytes.length := by
    rw [detachedEnd, wrapOffset, List.size_toArray, Nat.mod_eq_of_lt hword]
  refine ⟨fun _ _ _ => congrArg some hend, fun k sources _ offset => ?_, fun k sources hk amount => ?_⟩
  · rw [View.seek, Reader.seek, hend]
    split
    · rename_i hout
      refine ⟨?_, fun h => by omega⟩
      rintro ⟨_, _, hrun⟩
      cases hrun
    · exact ⟨fun _ => by omega, fun _ => ⟨_, _, rfl⟩⟩
  · have hslice : k - origin + amount ≤ bytes.toArray.size ↔ k + amount ≤ origin + bytes.length := by
      rw [List.size_toArray]
      omega
    rw [View.consume, Reader.consume, Sources.slice, ← hslice]
    split
    · rename_i hread
      split at hread
      · exact ⟨fun _ => ‹_›, fun _ => ⟨_, _, rfl⟩⟩
      · cases hread
    · rename_i hlost
      split at hlost
      · cases hlost
      · refine ⟨?_, fun h => absurd h ‹_›⟩
        rintro ⟨_, _, hrun⟩
        cases hrun

namespace Document

variable {d : Document κ}

/-! ## Pointers -/

/-- A pointer is followed to the exact address, or it is at fault exactly if there is no such address. -/
theorem Balanced.yields_dereference_exact (hd : d.Balanced) {id start : Nat} {pointer : PointerLayout κ}
    {raw : Bytes} {p : Place κ} (h : d.Pointing id pointer raw p)
    (hstart : pointer.policy.CountsFrom p start) (hword : start < pow2 64) (hfits : pointer.wire.Fits raw)
    (hwire : pointer.wire.number raw ≠ 0) :
    Yields (dereference id) d
      (fun r e => ∃ q, e.find? r = some q ∧ (q.atom.info.offset : Int) = start + pointer.wire.number raw
        ∧ start + pointer.wire.number raw < pow2 64)
      fun e _ => if 0 ≤ start + pointer.wire.number raw ∧ start + pointer.wire.number raw < pow2 64
        then ∀ problem, e ≠ .located p.path problem
        else e = .located p.path
          (.initialization (.addressOutOfRange (addWide start (pointer.wire.number raw)))) := by
  obtain ⟨hinside, houtside⟩ := Env.address_eq_of_fits d.env hstart hword hfits
  have hread : pointer.wire.read raw ≠ 0 := IntFormat.read_of_fits hfits ▸ hwire
  split
  · rename_i hrange
    refine (hd.yields_dereference_of_address h hread (hinside hrange)).mono (fun r e hr => ?_)
      fun _ _ he => he
    obtain ⟨q, hq, hoffset⟩ := hr
    exact ⟨q, hq, by rw [hoffset]; exact Int.toNat_of_nonneg hrange.1, hrange.2⟩
  · rename_i hrange
    refine (Balanced.yields_dereference_of_error h hread (houtside hrange)).mono (fun _ _ h => h.elim)
      fun _ _ he => ?_
    rw [he, Error.initialization, Error.within, List.append_nil]

/-- An atom of bytes is copied exactly if its layout is loaded from its bytes. -/
theorem Balanced.copy_iff (hd : d.Balanced) {p : Place κ} (hp : p ∈ d.places) {layout : Layout κ}
    (hlayout : p.atom.info.layout = .bytes layout) :
    (∃ new t, (copy p.atom.info.id).run d = (.ok new, t))
      ↔ (load d.env Layout.nestingLimit [] (d.nextCast layout p) (d.casting p)).1.error? = none := by
  have hcopy := hd.yields_copy_next hp hlayout
  constructor
  · rintro ⟨new, t, hrun⟩
    obtain ⟨out, s, hload, herror, -⟩ := hcopy.of_ok hrun
    rwa [hload]
  · intro hload
    obtain ⟨new, t, hrun, -⟩ := hcopy.succeeds fun _ _ ⟨out, s, hfailed, herror⟩ => by
      rw [hfailed] at hload
      exact herror hload
    exact ⟨new, t, hrun⟩

/-- Whatever offset a pointer without rules counts from, it is followed to the exact address that its number
means, if that is one of 128 bits with a sign, and it is not initialized exactly if that address is not one
of 64 bits. The error tells the address, unless the sum takes more than 128 bits. An atom is copied if it is
loaded from its own bytes, and these are read exactly where they stood, if they end within 64 bits. -/
theorem Reachable.offsets_exact (hd : Reachable d) :
    (∀ id start (pointer : PointerLayout κ) raw p, d.Pointing id pointer raw p →
      pointer.policy.CountsFrom p start → start < pow2 64 → pointer.wire.Fits raw →
        pointer.wire.number raw ≠ 0 →
          (∀ r e, (dereference id).run d = (.ok r, e) →
            ∃ q, e.find? r = some q ∧ (q.atom.info.offset : Int) = start + pointer.wire.number raw)
          ∧ ((∃ fault, ((dereference id).run d).1 = .error (.located p.path (.initialization fault)))
            ↔ ¬ (0 ≤ start + pointer.wire.number raw ∧ start + pointer.wire.number raw < pow2 64))
          ∧ (start + pointer.wire.number raw < pow2 127 → ∀ fault,
            ((dereference id).run d).1 = .error (.located p.path (.initialization fault)) →
              fault = .addressOutOfRange (start + pointer.wire.number raw)))
      ∧ ∀ p ∈ d.places, ∀ layout, p.atom.info.layout = .bytes layout →
        ((∃ new t, (copy p.atom.info.id).run d = (.ok new, t))
          ↔ (load d.env Layout.nestingLimit [] (d.nextCast layout p) (d.casting p)).1.error? = none)
        ∧ (p.atom.byteOffset + (p.serialize d.env.config.bitOrder).length < pow2 64 →
          Reader.ReadsExactly (p.serialize d.env.config.bitOrder) p.atom.byteOffset) := by
  refine ⟨fun id start pointer raw p h hstart hword hfits hwire => ?_, fun p hp layout hlayout =>
    ⟨hd.balanced.copy_iff hp hlayout, Reader.readsExactly⟩⟩
  have hends := hd.balanced.yields_dereference_exact h hstart hword hfits hwire
  refine ⟨fun r e hrun => ?_, ⟨?_, fun hout => ?_⟩, fun hwide fault hrun => ?_⟩
  · obtain ⟨q, hq, hoffset, -⟩ := hends.of_ok hrun
    exact ⟨q, hq, hoffset⟩
  · rintro ⟨fault, hrun⟩ hinside
    have hfault := hends.of_error hrun
    rw [if_pos hinside] at hfault
    exact hfault _ rfl
  · obtain ⟨e, t, hrun, hfault⟩ := hends.fails fun _ _ ⟨_, _, hoffset, hlt⟩ => hout ⟨by omega, hlt⟩
    rw [if_neg hout] at hfault
    exact ⟨_, by rw [hrun, hfault]⟩
  · have hfault := hends.of_error hrun
    split at hfault
    · exact absurd rfl (hfault _)
    · have hexact : addWide start (pointer.wire.number raw) = start + pointer.wire.number raw :=
        bmod_of_range (by have := hfits.1; omega) hwide
      rw [hexact] at hfault
      cases hfault
      rfl

end Document

/-! ## Pointers of one byte and of sixteen -/

namespace BytePointer

open Document PlainBytes

/-- The pointer, as it was loaded. -/
theorem pointing_loaded : ∃ p, loaded.Pointing 2 ⟨.u8, .int .u8, .relative .root⟩ [2] p
    ∧ AddressPolicy.CountsFrom p (.relative .root) 1 := by
  obtain ⟨p, hp, hfind, -, hshown⟩ := shown_of_live (show loaded.Live 2 by decide +kernel)
    (fun p => p.atom.content == .pointer [2] && p.atom.parts.isEmpty && p.root.atom.info.offset == 1)
    (by decide +kernel)
  simp only [Bool.and_eq_true, beq_iff_eq, List.isEmpty_iff] at hshown
  obtain ⟨⟨hcontent, hparts⟩, hroot⟩ := hshown
  have hlayout : (loaded.find? 2).map (fun p => p.atom.info.layout)
      = some (.bytes (.pointer .u8 (.int .u8) (.relative .root))) := by rfl
  rw [hfind, Option.map_some, Option.some.injEq] at hlayout
  exact ⟨p, ⟨hfind, hp, by rw [pointerAt, hlayout], hcontent, hparts⟩, .relative (congrArg Except.ok hroot)⟩

/-- The pointer with the number two is followed to three, since its record stands at one. -/
theorem offsets_exact_of_byte : (∃ r e q, (dereference 2).run loaded = (.ok r, e) ∧ e.find? r = some q
      ∧ (q.atom.info.offset : Int) = 1 + 2)
    ∧ ∃ p, loaded.find? 0 = some p ∧ Reader.ReadsExactly (p.serialize .big) p.atom.byteOffset
      ∧ (load loaded.env Layout.nestingLimit [] (loaded.nextCast layout p) (loaded.casting p)).1.error?
        = none := by
  obtain ⟨hfollow, hread⟩ := attained_loaded.reachable.offsets_exact
  constructor
  · obtain ⟨p, hpointing, hstart⟩ := pointing_loaded
    obtain ⟨hexact, -, -⟩ :=
      hfollow 2 1 _ [2] p hpointing hstart (by decide) (IntFormat.fits_of_width (by decide) rfl)
        (by decide +kernel)
    have hok : ((dereference 2).run loaded).1.toOption = some 3 := by decide +kernel
    obtain ⟨q, hq, hoffset⟩ := hexact 3 _ (run_of_toOption hok)
    exact ⟨3, _, q, run_of_toOption hok, hq, hoffset⟩
  · obtain ⟨p, hp, hfind, hid, hshown⟩ := shown_of_live (show loaded.Live 0 by decide +kernel)
      (fun p => p.atom.byteOffset + (p.serialize .big).length < pow2 64) (by decide +kernel)
    rw [decide_eq_true_iff] at hshown
    have hlayout : (loaded.find? 0).map (fun p => p.atom.info.layout) = some (.bytes layout) := by rfl
    rw [hfind, Option.map_some, Option.some.injEq] at hlayout
    obtain ⟨hcopy, hexact⟩ := hread p hp layout hlayout
    have hok : ((copy 0).run loaded).1.toOption = some 3 := by decide +kernel
    rw [hid] at hcopy
    exact ⟨p, hfind, hexact hshown, hcopy.1 ⟨3, _, run_of_toOption hok⟩⟩

end BytePointer

namespace WidePointer

open Document PlainBytes

/-- The number of sixteen bytes leads far past the last address, and still the pointer is followed. -/
theorem followed_past_last_address : Attained loaded
    ∧ (∃ p, loaded.find? 2 = some p ∧ p.atom.content = .pointer number
      ∧ AddressPolicy.CountsFrom p (.relative .root) 16)
    ∧ ¬ 16 + wide.number number < pow2 64
    ∧ ∃ e q, (dereference 2).run loaded = (.ok 3, e) ∧ e.find? 3 = some q ∧ q.atom.info.offset = 8 := by
  refine ⟨attained_loaded, ?_, by decide +kernel, ?_⟩
  · obtain ⟨p, -, hfind, -, hshown⟩ := shown_of_live (show loaded.Live 2 by decide +kernel)
      (fun p => p.atom.content == .pointer number && p.root.atom.info.offset == 16) (by decide +kernel)
    rw [Bool.and_eq_true, beq_iff_eq, beq_iff_eq] at hshown
    exact ⟨p, hfind, hshown.1, .relative (congrArg Except.ok hshown.2)⟩
  · have hok : ((dereference 2).run loaded).1.toOption = some 3 := by decide +kernel
    have hshown : (((dereference 2).run loaded).2.find? 3).map (fun q => q.atom.info.offset) = some 8 := by
      decide +kernel
    obtain ⟨q, hq, hoffset⟩ := Option.map_eq_some_iff.1 hshown
    exact ⟨_, q, run_of_toOption hok, hq, hoffset⟩

end WidePointer

end BinaryLayout
