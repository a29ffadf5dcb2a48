import BinaryLayout.Proofs.Locality.Array

/-!
# Atoms of views that are alike

The atoms of two views that are alike are the same, as long as loading stays inside the bound. The
parts of a record are loaded from the views themselves or, where a rule forces their extent, through a
window; the members of a union from its bytes, which are the same in both; and a host of bits reads
one byte after another, so that bits past the bound are bits of a host that ends there too.

## Main statements

* `together_load`: an atom of bytes.
-/

namespace BinaryLayout

variable {κ : Type} {mark : Nat → Nat} {L : Likeness}

open Atom

section Load

variable {env : Env κ} {part : LoadPart (LoadM κ) κ} {s s' : LoadState κ}

/-! ## Records and unions -/

theorem together_loadSized (hspans : ∀ data, SpansBytes data part)
    (hpart : LoadedAlike env.rules mark part) {layout : Layout κ}
    (hending : layout.WithoutUnending env.rules) {frames frames' : List (Frame κ)}
    (hframes : frames.map (Frame.rename mark) = frames'.map (Frame.rename mark)) {a a' : Atom κ}
    (ha : a.rename mark = a'.rename mark) (hblank : a.IsBlank) (hlayout : a.info.layout = .bytes layout)
    (extent : Nat) (hstart : L.start ≤ a.info.offset) (h : s.Alike L mark s') :
    Together (loadSized part frames a extent) (loadSized part frames' a' extent) s s'
      (Outcome.Alike L mark a.info.offset) := by
  have hbits : a.isBits = false := by rw [isBits, hlayout]; rfl
  rcases L.inside_or (a.info.offset + extent) with hlimit | ⟨b, hb, hpast⟩
  · have hsized := congrArg (mapInfo fun info => { info with extent? := some extent }) ha
    rw [← rename_sized, ← rename_sized] at hsized
    have hsite : (a.mapInfo fun info => { info with extent? := some extent }).info.site = a.info.site := by
      cases a
      rfl
    have hempty : (a.mapInfo fun info => { info with extent? := some extent }).IsBlank := by
      rw [isBlank_iff] at hblank ⊢
      simpa using hblank
    rw [loadSized, loadSized]
    generalize a.mapInfo (fun info => { info with extent? := some extent }) = sized
      at hsized hsite hempty
    generalize a'.mapInfo (fun info => { info with extent? := some extent }) = sized' at hsized
    dsimp only
    have hoffset : sized.info.offset = a.info.offset := Info.offset_of_site hsite
    rw [← offset_of_rename hsized, hoffset]
    rw [← hoffset] at hstart
    have hkind : sized.info.layout = .bytes layout := (Info.layout_of_site hsite).trans hlayout
    split
    · exact Together.pure (.alike ⟨hsized, rfl⟩ h)
    · rename_i limit hspan
      obtain ⟨rfl, -⟩ := spanEnd_eq hspan
      by_cases hbrink : ∃ b, L.bound? = some b ∧ b.stop ≤ L.start
      · obtain ⟨b, hb, hstop⟩ := hbrink
        have hnone : extent = 0 := by
          have := hlimit b hb
          omega
        refine (hpart.atBrink _ hb hstop hframes hempty hkind hsized hending hstart h).bind
          fun out t out' t' ht => ?_
        rw [hnone, if_pos (.inr (Nat.zero_le _)), if_pos (.inr (Nat.zero_le _)), ← hoffset]
        exact Together.pure ht
      · have hinside (b : Bound) (hb : L.bound? = some b) :
            L.start < b.stop ∧ a.info.offset + extent ≤ b.stop :=
          ⟨Nat.not_le.1 fun hstop => hbrink ⟨b, hb, hstop⟩, hlimit b hb⟩
        refine (hpart.inWindow hspans hinside hframes hempty hkind hsized hending hstart h).bind
          fun out t out' t' ht => ?_
        obtain ⟨hgoes, ⟨hatom, herror⟩, hnoisy | halike⟩ := ht
        · obtain ⟨b, hb, -⟩ := id hnoisy
          refine Together.left (p := fun _ u => u.Noisy L.bound?) ?_ fun _ _ _ _ hu => .inl (.noisy hu)
          split
          · exact Ends.pure hnoisy
          · refine (LoadM.goes_readAt _ _ (hgoes b hb).shows).bind fun result u hu => ?_
            split
            · exact Ends.pure (hnoisy.mono hu.1.unterminated)
            · exact Ends.pure (hnoisy.mono hu.1.unterminated)
        · rw [← contentSize_of_rename hatom, ← herror]
          split
          · exact Together.pure (.alike ⟨hatom, herror⟩ halike)
          · rename_i hshort
            have hused : a.info.offset + out.atom.contentSize + (extent - out.atom.contentSize) =
                a.info.offset + extent := by omega
            refine (LoadM.together_readInside (by rwa [hused]) ?_ halike).bind
              fun result u result' u' hu => ?_
            · exact Nat.le_trans hstart (hoffset ▸ Nat.le_add_right _ _)
            · rcases hu with ⟨⟨b, hb⟩, e, rfl⟩ | ⟨rfl, halike⟩
              · exact .failed hb _ _
              · split
                · exact Together.pure (.alike ⟨hatom, rfl⟩ halike)
                · refine Together.pure (.alike ⟨?_, rfl⟩ halike)
                  rw [rename_withTail, rename_withTail, hatom]
  · refine Together.left (spans_loadSized (hspans b.data) frames hblank hbits extent (h.shows hb))
      fun out t _ _ ht => .inl (.past hb fun herror => ?_)
    exact Nat.lt_of_lt_of_le hpast (Nat.add_le_add_left (ht.2 herror) _)

theorem together_loadField (hrules : env.rules.SeeOnly mark) (hspans : ∀ data, SpansBytes data part)
    (hpart : LoadedAlike env.rules mark part) {layout : Layout κ}
    (hending : layout.WithoutUnending env.rules) {frames frames' : List (Frame κ)}
    (hframes : frames.map (Frame.rename mark) = frames'.map (Frame.rename mark)) {f f' : Frame κ}
    (hf : f.rename mark = f'.rename mark) (index : Nat) (extent? : Option κ) {blank blank' : Atom κ}
    (hsame : blank.rename mark = blank'.rename mark) (hblank : blank.IsBlank)
    (hlayout : blank.info.layout = .bytes layout) (hstart : L.start ≤ blank.info.offset)
    (h : s.Alike L mark s') :
    Together (loadField env part frames f index extent? blank)
      (loadField env part frames' f' index extent? blank') s s'
      (Outcome.Alike L mark blank.info.offset) := by
  have hinner := Frame.rename_cons_of hf hframes
  cases extent? with
  | none => exact hpart hinner hsame hblank hlayout hending hstart h
  | some rule =>
    rw [loadField, loadField, env.extent_of_rename hrules
      (Place.rename_of (Frame.rename_plug_of hf hsame) hframes)]
    split
    · exact Together.pure (.alike ⟨hsame, rfl⟩ h)
    · exact together_loadSized hspans hpart hending hinner hsame hblank hlayout _ hstart h

theorem together_loadFields (hrules : env.rules.SeeOnly mark) (hspans : ∀ data, SpansBytes data part)
    (hpart : LoadedAlike env.rules mark part) {frames frames' : List (Frame κ)}
    (hframes : frames.map (Frame.rename mark) = frames'.map (Frame.rename mark)) {f f' : Frame κ}
    {cursor : Nat} (hf : f.rename mark = f'.rename mark) (hspanning : f.Spanning cursor) (index : Nat)
    {fields : List (Field κ (Layout κ))}
    (hending : ∀ field ∈ fields, ∀ layout, field.layout.Offers env.rules.layout layout →
      layout.WithoutUnending env.rules) (hstart : L.start ≤ cursor) (h : s.Alike L mark s') :
    Together (loadFields env part frames f index cursor fields)
      (loadFields env part frames' f' index cursor fields) s s'
      (Outcome.Alike L mark f.info.offset) := by
  induction fields generalizing f f' index cursor s s' with
  | nil => exact Together.pure (.alike (Frame.matches_done hf) h)
  | cons field fields ih =>
    rw [loadFields, loadFields, env.resolve_of_rename hrules
      (Place.rename_of (Frame.close_of_rename hf) hframes)]
    split
    · exact Together.pure (.alike (Frame.matches_failed hf _) h)
    · rename_i layout hresolve
      have hfield := hending field (List.mem_cons_self ..) layout (Env.offers_of_resolve hresolve)
      refine (LoadM.together_spawn h field.name (.bytes layout) cursor).bind fun blank t blank' t' ht => ?_
      obtain ⟨⟨hempty, hlayout, hoffset⟩, hblank, halike⟩ := ht
      refine ((together_loadField hrules hspans hpart hfield hframes hf index field.extent? hblank hempty
        hlayout (hoffset ▸ hstart) halike).andLeft
          (p := fun out u => ∀ b, L.bound? = some b →
            out.Spans b.data blank.info.offset blank.info.offset t u) fun b hb =>
          spans_loadField (hspans b.data) frames f index field.extent? hempty
            (by rw [isBits, hlayout]; rfl) (halike.shows hb)).bind fun out u out' u' hu => ?_
      rw [hoffset] at hu
      obtain ⟨hout, hu⟩ := hu
      obtain ⟨atom, error?⟩ := out
      rcases hu with hstray | ⟨⟨hatom, herror⟩, halike⟩
      · obtain ⟨b, hb, -⟩ := id hstray
        refine Together.left (p := Outcome.Strays L.bound? f.info.offset) ?_ fun _ _ _ _ h => .inl h
        dsimp only
        split
        · exact Ends.pure (.failed hb _ _)
        · split
          · exact Ends.pure (.failed hb _ _)
          · rename_i hspan
            exact (spans_loadFields (hspans b.data) frames (hspanning.pushed hspan) _ fields
              (hout b hb).goes.shows).mono fun _ _ hrest => hstray.after rfl hspan hrest
      · obtain ⟨atom', error?'⟩ := out'
        cases herror
        have hnew := Frame.rename_push_of hf hatom
        have hsize : atom.size = atom'.size := size_of_rename hatom
        dsimp only
        rw [hsize]
        split
        · exact Together.pure (.alike (Frame.matches_failed hnew _) halike)
        · split
          · exact Together.pure (.alike (Frame.matches_failed hnew _) halike)
          · rename_i hspan
            refine ih (f := f.push atom) hnew (hspanning.pushed (hsize ▸ hspan)) _
              (fun field hfield => hending field (List.mem_cons_of_mem _ hfield)) ?_ halike
            exact Nat.le_trans hstart ((spanEnd_eq hspan).1 ▸ Nat.le_add_right _ _)

/-- A member is loaded from the bytes of its union, which are the same in both views. -/
theorem LoadedAlike.fromBytes (hpart : LoadedAlike env.rules mark part)
    (hspans : ∀ data, SpansBytes data part) (bytes : Bytes) (origin : Nat)
    {frames frames' : List (Frame κ)}
    (hframes : frames.map (Frame.rename mark) = frames'.map (Frame.rename mark)) {a a' : Atom κ}
    {layout : Layout κ} (hblank : a.IsBlank) (hlayout : a.info.layout = .bytes layout)
    (ha : a.rename mark = a'.rename mark) (hending : layout.WithoutUnending env.rules)
    (h : s.Alike L mark s') :
    Together (LoadM.fromBytes bytes origin (part frames a))
      (LoadM.fromBytes bytes origin (part frames' a')) s s' fun out t out' t' =>
        (∀ b, L.bound? = some b → s.Goes b.data t) ∧ out.Matches mark out'
          ∧ (t.Noisy L.bound? ∨ t.Alike L mark t') := by
  let u : LoadState κ := ⟨s.ledger, [], .ofBytes bytes origin⟩
  let u' : LoadState κ := ⟨s'.ledger, [], .ofBytes bytes origin⟩
  have hu : u.Alike .same mark u' := ⟨rfl, h.handles, fun b hb => nomatch hb⟩
  have hinside := hpart (L := .same) hframes ha hblank hlayout hending (Nat.zero_le _) hu
  rcases hinside with ⟨b, hb, -⟩ | ⟨hmatches, halike⟩
  · exact nomatch hb
  · have hspan := hspans _ frames a u hblank (by rw [isBits, hlayout]; rfl)
      (LoadM.shows_ofBytes bytes origin s.ledger)
    have hgoes (b : Bound) (hb : L.bound? = some b) :
        Ends (LoadM.fromBytes bytes origin (part frames a)) s fun _ t => s.Goes b.data t :=
      ⟨h.shows hb, hspan.goes.unterminated⟩
    refine ⟨hgoes, hmatches, (h.noisy_or hgoes).imp_right fun hquiet => ?_⟩
    exact ⟨h.view, halike.handles, hquiet⟩

theorem together_loadMembers (hspans : ∀ data, SpansBytes data part)
    (hpart : LoadedAlike env.rules mark part) {backing : Bytes} {frames frames' : List (Frame κ)}
    (hframes : frames.map (Frame.rename mark) = frames'.map (Frame.rename mark)) {f f' : Frame κ}
    (hf : f.rename mark = f'.rename mark) (hcontent : f.content = .overlay backing)
    (hbits : f.info.layout.isBits = false) (htail : f.info.tail = [])
    {members : List (String × Layout κ)}
    (hending : ∀ member ∈ members, member.2.WithoutUnending env.rules) (h : s.Alike L mark s') :
    Together (loadMembers part backing frames f members) (loadMembers part backing frames' f' members)
      s s' (Outcome.Alike L mark f.info.offset) := by
  induction members generalizing f f' s s' with
  | nil => exact Together.pure (.alike (Frame.matches_done hf) h)
  | cons member members ih =>
    obtain ⟨name, layout⟩ := member
    rw [loadMembers, loadMembers, ← Frame.offset_of_rename hf]
    refine (LoadM.together_spawn h name (.bytes layout) f.info.offset).bind fun blank t blank' t' ht => ?_
    obtain ⟨⟨hempty, hlayout, -⟩, hblank, halike⟩ := ht
    refine (hpart.fromBytes hspans backing f.info.offset (Frame.rename_cons_of hf hframes) hempty
      hlayout hblank (hending _ (List.mem_cons_self ..)) halike).bind fun out u out' u' hu => ?_
    obtain ⟨hgoes, ⟨hatom, herror⟩, hu⟩ := hu
    obtain ⟨atom, error?⟩ := out
    rcases hu with hnoisy | halike
    · obtain ⟨b, hb, -⟩ := id hnoisy
      refine Together.left (p := fun _ v => v.Noisy L.bound?) ?_ fun _ _ _ _ hv => .inl (.noisy hv)
      dsimp only
      split
      · exact Ends.pure hnoisy
      · exact (spans_loadMembers hspans frames (f := f.push atom) hcontent hbits htail members
          (hgoes b hb).shows).mono fun _ _ hrest => hnoisy.mono hrest.1.unterminated
    · obtain ⟨atom', error?'⟩ := out'
      cases herror
      have hnew := Frame.rename_push_of hf hatom
      dsimp only
      split
      · exact Together.pure (.alike (Frame.matches_failed hnew _) halike)
      · exact ih (f := f.push atom) hnew hcontent hbits htail
          (fun member hmember => hending member (List.mem_cons_of_mem _ hmember)) halike

theorem together_loadUnion (hspans : ∀ data, SpansBytes data part)
    (hpart : LoadedAlike env.rules mark part) {members : List (String × Layout κ)}
    (hending : ∀ member ∈ members, member.2.WithoutUnending env.rules) (size : Nat)
    {frames frames' : List (Frame κ)}
    (hframes : frames.map (Frame.rename mark) = frames'.map (Frame.rename mark)) {a a' : Atom κ}
    (ha : a.rename mark = a'.rename mark) (hbits : a.isBits = false) (htail : a.info.tail = [])
    (hstart : L.start ≤ a.info.offset) (h : s.Alike L mark s') :
    Together (loadUnion part members size frames a) (loadUnion part members size frames' a') s s'
      (Outcome.Alike L mark a.info.offset) := by
  rw [loadUnion, loadUnion, ← offset_of_rename ha]
  refine ((LoadM.together_readAt size h hstart).andLeft
    (p := fun _ t => ∀ b, L.bound? = some b → s.Goes b.data t) fun b hb =>
      (LoadM.goes_readAt _ _ (h.shows hb)).1).bind fun result t result' t' ht => ?_
  obtain ⟨hgoes, ⟨b, hb, hpast⟩ | ⟨rfl, halike⟩⟩ := ht
  · cases result with
    | error e => exact .failed hb _ _
    | ok backing =>
      refine Together.left (spans_loadMembers hspans (f := (a.fill (.overlay backing) []).frame) frames
        rfl hbits htail members (hgoes b hb).shows) fun out u _ _ hu => .inl (.past hb fun herror => ?_)
      rw [hu.2 herror]
      exact hpast backing rfl
  · split
    · exact Together.pure (.alike ⟨ha, rfl⟩ halike)
    · exact together_loadMembers hspans hpart hframes (Frame.rename_start_of ha _) rfl hbits htail
        hending halike

/-! ## Hosts of bits -/

/-- Bits that were read past the bound are bits of the host, unless an element was dropped. -/
theorem Outcome.SpansBits.past {data : Bytes} {order : ByteOrder} {offset : Nat} {out : Outcome κ}
    {t : BitLoadState κ} (h : out.SpansBits data 0 ⟨s, .new order, offset⟩ t) {b : Bound}
    (hquiet : s.ledger.unterminated = b.unterminated) (hpast : b.stop < t.next) :
    out.error?.isSome ∨ b.unterminated < t.base.ledger.unterminated
      ∨ b.stop < offset + bytesOfBits (out.atom.bitCount + t.reader.remaining) := by
  cases herror : out.error? with
  | some e => exact .inl rfl
  | none =>
    have hle := h.advances.unterminated
    rcases Nat.eq_or_lt_of_le hle with heq | hlt
    · have hexact := h.exact herror heq.symm
      have hlength := t.length_pending
      simp only [BitLoadState.pending_mk, BitReader.pending_new, List.length_nil] at hexact
      rw [bytesOfBits]
      omega
    · exact .inr (.inl (hquiet ▸ hlt))

/-- The bits of a host, and those left over. When they go past the bound, then so does the host. -/
theorem BitLoadM.together_run (hrules : env.rules.SeeOnly mark) (depth : Nat) (order : ByteOrder)
    {offset : Nat} {frames frames' : List (Frame κ)}
    (hframes : frames.map (Frame.rename mark) = frames'.map (Frame.rename mark)) {root root' : Atom κ}
    (hroot : root.rename mark = root'.rename mark) (h : s.AlikeAt L mark offset s') :
    Together (BitLoadM.run order offset (loadBits env depth frames root))
      (BitLoadM.run order offset (loadBits env depth frames' root')) s s' fun result t result' t' =>
        (∃ b, L.bound? = some b ∧ (result.1.error?.isSome ∨ b.unterminated < t.ledger.unterminated
          ∨ b.stop < offset + bytesOfBits (result.1.atom.bitCount + result.2.width)))
        ∨ (result.1.Matches mark result'.1 ∧ result.2 = result'.2) ∧ t.Alike L mark t' := by
  have hbegun : BitLoadState.Alike L mark ⟨s, .new order, offset⟩ ⟨s', .new order, offset⟩ :=
    ⟨h, rfl, rfl⟩
  have hboth := together_loadBits hrules depth hframes hroot hbegun
  rcases hboth with ⟨⟨b, hb⟩, e, herror⟩ | ⟨b, hb, hmore | hpast⟩ | ⟨hmatches, halike⟩
  · exact .inl ⟨b, hb, .inl (herror ▸ rfl)⟩
  · exact .inl ⟨b, hb, .inr (.inl hmore)⟩
  · have hspans := spansBits_loadBits env b.data depth frames root ⟨s, .new order, offset⟩
      ⟨h.alike.shows hb, h.stands hb⟩
    exact .inl ⟨b, hb, hspans.past (h.quiet b hb) hpast⟩
  · refine .inr ⟨⟨hmatches, ?_⟩, halike.base.alike⟩
    exact congrArg BitReader.pad halike.reader.symm

theorem together_loadRoot (hrules : env.rules.SeeOnly mark) (depth : Nat) (order : ByteOrder)
    {frames frames' : List (Frame κ)}
    (hframes : frames.map (Frame.rename mark) = frames'.map (Frame.rename mark)) {a a' root root' : Atom κ}
    (ha : a.rename mark = a'.rename mark) (hroot : root.rename mark = root'.rename mark)
    (hbits : a.isBits = false) (htail : a.info.tail = []) (hstart : L.start ≤ a.info.offset)
    (h : s.Alike L mark s') :
    Together (loadRoot env depth order frames a root) (loadRoot env depth order frames' a' root') s s'
      (Outcome.Alike L mark a.info.offset) := by
  have hhosted (b b' : Atom κ) (hb : b.rename mark = b'.rename mark) (pad : Bitmap) :
      (hostedBits a b pad).rename mark = (hostedBits a' b' pad).rename mark := by
    rw [rename_hostedBits, rename_hostedBits, ha, hb]
  rcases L.inside_or a.info.offset with hstop | ⟨b, hb, hpast⟩
  · rw [loadRoot, loadRoot, ← offset_of_rename ha]
    refine (LoadM.together_seekTo 1 h hstart hstop).bind fun result t result' t' ht => ?_
    cases ht with
    | lost hb => exact .failed hb _ _
    | failed hfailed => exact Together.pure (.alike ⟨hhosted _ _ hroot _, rfl⟩ hfailed)
    | ok hat =>
      have hinner := Frame.rename_cons_of (Frame.rename_start_of ha (.host .empty)) hframes
      refine (BitLoadM.together_run hrules depth order hinner hroot hat).bind
        fun result u result' u' hu => ?_
      obtain ⟨out, pad⟩ := result
      obtain ⟨out', pad'⟩ := result'
      rcases hu with ⟨b, hb, hstray⟩ | ⟨⟨⟨hatom, herror⟩, hpad⟩, halike⟩
      · refine Together.left (p := Outcome.Strays L.bound? a.info.offset) ?_ fun _ _ _ _ hv => .inl hv
        dsimp only
        split
        · exact Ends.pure (.failed hb _ _)
        · rename_i hnone
          rcases hstray with hfailed | hmore | hpast
          · rw [hnone] at hfailed
            cases hfailed
          · exact Ends.pure (.noisy ⟨b, hb, hmore⟩)
          · refine Ends.pure (.past hb fun _ => ?_)
            rw [size_hostedBits hbits htail]
            exact hpast
      · dsimp only at herror hpad ⊢
        rw [← herror, ← hpad]
        split
        · exact Together.pure (.alike ⟨hhosted _ _ hatom _, rfl⟩ halike)
        · refine Together.pure (.alike ⟨?_, rfl⟩ halike)
          rw [rename_ready, rename_ready, hhosted _ _ hatom]
  · exact .inl (.past hb fun _ => Nat.lt_of_lt_of_le hpast (Nat.le_add_right _ _))

theorem together_loadHost (hrules : env.rules.SeeOnly mark) (depth : Nat) (layout : BitLayout κ)
    (order : ByteOrder) {frames frames' : List (Frame κ)}
    (hframes : frames.map (Frame.rename mark) = frames'.map (Frame.rename mark)) {a a' : Atom κ}
    (ha : a.rename mark = a'.rename mark) (hbits : a.isBits = false) (htail : a.info.tail = [])
    (hstart : L.start ≤ a.info.offset) (h : s.Alike L mark s') :
    Together (loadHost env depth layout order frames a) (loadHost env depth layout order frames' a') s s'
      (Outcome.Alike L mark a.info.offset) := by
  rw [loadHost, loadHost, ← offset_of_rename ha]
  split
  · exact Together.pure (.alike ⟨ha, rfl⟩ h)
  · rename_i position _
    refine (LoadM.together_spawn h "" (.bits layout) position).bind fun root t root' t' ht => ?_
    obtain ⟨-, hroot, halike⟩ := ht
    split
    · have hinner := Frame.rename_cons_of (Frame.rename_start_of ha (.host .empty)) hframes
      have hmade : Together
          (LoadM.ofLedger (allocateBits env depth ((a.fill (.host .empty) []).frame :: frames) root))
          (LoadM.ofLedger (allocateBits env depth ((a'.fill (.host .empty) []).frame :: frames') root'))
          t t' fun out u out' u' => out.Matches mark out' ∧ u.Alike L mark u' := by
        have hboth := together_allocateBits hrules depth hinner hroot halike.handles
        have hsame := leaves_allocateBits env depth ((a.fill (.host .empty) []).frame :: frames) root
          t.ledger
        refine ⟨hboth.1, halike.view, hboth.2, fun b hb => ?_⟩
        exact (congrArg (List.countP Warning.isUnterminated) hsame).trans (halike.quiet b hb)
      refine hmade.bind fun out u out' u' hu => ?_
      obtain ⟨⟨hatom, herror⟩, halike⟩ := hu
      have hhosted : (hostedBits a out.atom .empty).rename mark =
          (hostedBits a' out'.atom .empty).rename mark := by
        rw [rename_hostedBits, rename_hostedBits, ha, hatom]
      rw [← herror]
      split
      · exact Together.pure (.alike ⟨hhosted, rfl⟩ halike)
      · refine Together.pure (.alike ⟨?_, rfl⟩ halike)
        rw [rename_ready, rename_ready, hhosted]
    · exact together_loadRoot hrules depth order hframes ha hroot hbits htail hstart halike

/-! ## Loading -/

/-- An atom of bytes. -/
theorem together_load (hrules : env.rules.SeeOnly mark) (depth : Nat) :
    LoadedAlike env.rules mark (load env depth) := by
  induction depth with
  | zero => exact fun _ ha _ _ _ _ h => Together.pure (.alike ⟨ha, rfl⟩ h)
  | succ depth ih =>
    intro L frames frames' a a' layout s s' hframes ha hblank hlayout hending hstart h
    have hspans (data : Bytes) : SpansBytes data (load env depth) := fun frames a s _ _ hs =>
      spans_load env data depth frames a hs
    rw [load, load, ← layout_of_rename ha, hlayout]
    refine (LoadM.together_clear h ha).bind fun b t b' t' ht => ?_
    obtain ⟨⟨hempty, hsite⟩, hb, halike⟩ := ht
    have hbits : b.isBits = false := by rw [isBits, Info.layout_of_site hsite, hlayout]; rfl
    have hoffset : b.info.offset = a.info.offset := Info.offset_of_site hsite
    have hgroup : (b.fill .group []).frame.Spanning b.info.offset := .start hbits hempty.tail
    have hframe := Frame.rename_start_of hb .group
    rw [← hoffset] at hstart ⊢
    rw [← offset_of_rename hb]
    cases layout
    case record name fields =>
      refine together_loadFields hrules hspans ih hframes hframe hgroup 0 ?_ hstart halike
      exact fun field hfield inner hinner => hending.inner (.field hfield hinner (.here _))
    case array element shape =>
      have helement : element.WithoutUnending env.rules := hending.inner (.element (.here _))
      cases shape with
      | counted count =>
        exact together_loadCounted hspans ih helement hframes count hframe hgroup 0 hstart halike
      | block extent =>
        refine together_loadBlock hspans ih helement extent hframes ?_ hgroup hstart halike
        rw [rename_fill, rename_fill, hb]
      | terminated rule =>
        exact together_loadOpen hrules hspans ih helement rule hframes _ hframe hgroup 0 hstart halike
      | unending => exact absurd (.here _) (hending element)
    case union name members size =>
      refine together_loadUnion hspans ih ?_ size hframes hb hbits hempty.tail hstart halike
      exact fun member hmember => hending.inner (.member hmember (.here _))
    case bits root order =>
      exact together_loadHost hrules depth root order hframes hb hbits hempty.tail hstart halike
    all_goals exact together_loadLeaf hframes hb hbits hempty.tail hstart halike

end Load

end BinaryLayout
