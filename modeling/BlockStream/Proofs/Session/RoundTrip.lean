import BlockStream.Proofs.Decode.Canonical
import BlockStream.Proofs.Session.Follows

namespace BlockStream

theorem Stream.ofItems?_cons {item : Item} {rest : List Item} {S : Stream}
    (h : Stream.ofItems? (item :: rest) = some S) :
    ∃ block T, item.toBlock? = some block ∧ Stream.ofItems? rest = some T ∧
      S = ⟨block :: T.blocks⟩ := by
  rw [ofItems?, List.mapM_cons, Option.map_eq_some_iff] at h
  obtain ⟨blocks, hblocks, rfl⟩ := h
  obtain ⟨block, hblock, hblocks⟩ := Option.bind_eq_some_iff.mp hblocks
  obtain ⟨others, hothers, hblocks⟩ := Option.bind_eq_some_iff.mp hblocks
  cases hblocks
  exact ⟨block, ⟨others⟩, hblock, by rw [ofItems?, hothers]; rfl, rfl⟩

theorem Item.toBlock?_eq_some {item : Item} {block : Block} (h : item.toBlock? = some block) :
    block.toItem = item := by
  cases item with
  | block header items =>
    cases h
    rfl
  | record => cases h
  | definition => cases h

theorem Stream.items_of_ofItems? {items : List Item} {S : Stream}
    (h : Stream.ofItems? items = some S) : S.items = items := by
  induction items generalizing S with
  | nil =>
    cases h
    rfl
  | cons item rest ih =>
    obtain ⟨block, T, hblock, hrest, rfl⟩ := ofItems?_cons h
    rw [← ih hrest, ← Item.toBlock?_eq_some hblock]
    rfl

theorem Buffer.Tidy.allBits_eq {b : Buffer} (h : b.Tidy) (haligned : b.bitLen % 8 = 0) :
    allBits b.bytes = b.bits := by
  have hsize := h.size_eq
  have hlen : 8 * b.bytes.size = b.bitLen := by omega
  rw [allBits, bits, hlen]

namespace Session

theorem finish_of_emits {t : Session} {items : List Item} (h : (start .empty).Emits t items) :
    ∃ body, t.finish = .ok (Format.magic ++ body) ∧
      allBits body = Wire.ofItems Format.topLevelWidth 0 items ++
        padding (Wire.ofItems Format.topLevelWidth 0 items).length := by
  have hstart := Buffer.adds_pushBytes (Buffer.tidy_ofBytes .empty) Format.magic
  have hlen : (start .empty).out.bitLen = 32 := hstart.bitLen_eq
  have hadds := h.adds
  have hwidth : (start .empty).width = Format.topLevelWidth := rfl
  rw [hwidth, hlen, Wire.ofItems_congr (show 32 % 32 = 0 % 32 from rfl)] at hadds
  have hend := hadds.bitLen_eq
  have hpadded := (hstart.trans hadds).trans (Buffer.adds_align32 hadds.tidy)
  have hwhole := Buffer.align32_aligned hadds.tidy
  have hbytes : allBits t.out.align32.bytes = allBits Format.magic ++
      (Wire.ofItems Format.topLevelWidth 0 items ++
        padding (Wire.ofItems Format.topLevelWidth 0 items).length) := by
    rw [hpadded.tidy.allBits_eq (by omega), ← List.append_assoc,
      padding_congr (q := t.out.bitLen) (by omega)]
    exact hpadded.bits_eq
  obtain ⟨body, hbody, hitems⟩ := exists_append_of_allBits hbytes
  refine ⟨body, ?_, hitems⟩
  rw [finish, innermost, h.frames, ← hbody]
  rfl

theorem finish_of_emits_blocks {t : Session} {S : Stream} (h : (start .empty).Emits t S.items) :
    ∃ body, t.finish = .ok (Format.magic ++ body) ∧
      allBits body = Wire.ofItems Format.topLevelWidth 0 S.items := by
  obtain ⟨body, hfinish, hbody⟩ := finish_of_emits h
  rw [Decode.padding_of_stream, List.append_nil] at hbody
  exact ⟨body, hfinish, hbody⟩

/-- Blocks that are nested no deeper than a decoder allows are read back. -/
theorem decode_of_emits_blocks {t : Session} {S : Stream} (h : (start .empty).Emits t S.items)
    (hdepth : S.depth ≤ Format.maxDepth) :
    ∃ body, t.finish = .ok (Format.magic ++ body) ∧
      allBits body = Wire.ofItems Format.topLevelWidth 0 S.items ∧
      Stream.decode (Format.magic ++ body) = .ok S := by
  obtain ⟨body, hfinish, hbody⟩ := finish_of_emits_blocks h
  have hdecode := Decode.decode_of_ofItems h.regular hbody
  exact ⟨body, hfinish, hbody, hdecode.trans (if_pos hdepth)⟩

/-- A script that describes a stream runs without a failure, and what it writes is read back as that
stream, unless its blocks are nested too deep. -/
theorem decode_of_describe {steps : List Step} {S : Stream} (h : describe steps = some S) :
    ∃ reports b bytes, runBody ⟨start .empty, #[]⟩ steps = (none, reports, b) ∧
      (∀ r ∈ reports, ∃ answer, r.outcome = .ok answer) ∧
      b.session.finish = .ok bytes ∧
      Stream.decode bytes =
        if S.depth ≤ Format.maxDepth then .ok S
        else .error (.error (.nestingTooDeep Format.maxDepth)) := by
  obtain ⟨d, hdraft, hstream⟩ := Option.bind_eq_some_iff.mp h
  split at hstream
  · rename_i hempty
    have hstart := Buffer.adds_pushBytes (Buffer.tidy_ofBytes .empty) Format.magic
    have hfresh : Follows ⟨start .empty, #[]⟩ {} ⟨start .empty, #[]⟩ := .refl hstart.tidy
    obtain ⟨hend, hreports, hlast⟩ := succeeds_runBody hfresh steps hdraft
    have hleads := hlast.leads
    rw [List.isEmpty_iff.mp hempty] at hleads
    have hemits := hleads.emits
    rw [← Stream.items_of_ofItems? hstream] at hemits
    obtain ⟨body, hfinish, hbody⟩ := finish_of_emits_blocks hemits
    exact ⟨_, _, _, Prod.ext hend rfl, hreports, hfinish,
      Decode.decode_of_ofItems hemits.regular hbody⟩
  · cases hstream

theorem decode_of_describe_nested :
    ∃ reports b bytes,
      runBody ⟨start .empty, #[]⟩
        [.openBlock 8, .record 1 [2, 300],
          .block 17 [.define [.literal 5, .typeIndex, .array, .char6] 9], .closeBlock 0] =
        (none, reports, b) ∧
      b.session.finish = .ok bytes ∧
      Stream.decode bytes = .ok ⟨[⟨⟨8, 3, 6⟩, [.record 1 [2, 300],
        .block ⟨17, 4, 2⟩ [.definition [.literal 5, .fixed 4, .array, .char6]]]⟩]⟩ := by
  have hdescribe : describe
      [.openBlock 8, .record 1 [2, 300],
        .block 17 [.define [.literal 5, .typeIndex, .array, .char6] 9], .closeBlock 0] =
      some ⟨[⟨⟨8, 3, 6⟩, [.record 1 [2, 300],
        .block ⟨17, 4, 2⟩ [.definition [.literal 5, .fixed 4, .array, .char6]]]⟩]⟩ := by
    cbv
  obtain ⟨reports, b, bytes, hrun, -, hfinish, hdecode⟩ := decode_of_describe hdescribe
  rw [if_pos (by decide)] at hdecode
  exact ⟨reports, b, bytes, hrun, hfinish, hdecode⟩

end Session

end BlockStream
