import BlockStream.Proofs.Session.Nests
import BlockStream.Proofs.Session.Replay

namespace BlockStream.Session

theorem recount_of_finish {calls : List Call} (hcalls : calls.all Call.isFraming = true)
    {body : ByteArray} {S : Stream}
    (hfinish : ((start .empty).after calls).finish = .ok (Format.magic ++ body))
    (h : Stream.decode (Format.magic ++ body) = .ok S) :
    allBits body = Wire.ofItems Format.topLevelWidth 0 S.recount.items := by
  obtain ⟨items, hemits⟩ := emits_of_finish hcalls hfinish
  obtain ⟨written, hend, hwritten⟩ := finish_of_emits hemits
  obtain rfl := append_left_cancel (Except.ok.inj (hfinish.symm.trans hend))
  obtain ⟨rfl, hbits⟩ := Decode.items_eq_of_decode hemits.regular hwritten h
  rw [S.items_recount, Wire.recountAll_of_regular _ hemits.regular]
  exact hbits

/-- A decoded stream that a session can write is written again to bytes that do not depend on the
numbers of types, are no longer, and are decoded to the same tree but for length words that may have
become smaller. These bytes are written again to themselves. Bytes that a session has written
without its buffer being touched are such bytes. -/
theorem replay_of_decode {bytes : ByteArray} {S : Stream} (h : Stream.decode bytes = .ok S)
    (hwritable : Item.AllWritable S.items) :
    ∃ bytes' S',
      (∀ types : Place → UInt32, (∀ place, types place ≠ 0) → S.replay types = .ok bytes') ∧
      Stream.decode bytes' = .ok S' ∧ Shortened S'.items S.items ∧ bytes'.size ≤ bytes.size ∧
      (∀ types : Place → UInt32, (∀ place, types place ≠ 0) → S'.replay types = .ok bytes') ∧
      (∀ calls, calls.all Call.isFraming = true →
        ((start .empty).after calls).finish = .ok bytes → bytes' = bytes) ∧
      ∀ slots steps, allFraming steps = true →
        (Bench.afterAll ⟨start .empty, slots⟩ steps).session.finish = .ok bytes →
        bytes' = bytes := by
  obtain ⟨hdepth, body, rfl, hitems⟩ := Decode.isWritten_of_decode h
  have hshort := Wire.shortened_recountAll hitems
  have hregular := Wire.allRegular_recountAll hitems hwritable
  have hle := Wire.ofItems_recountAll_le hitems (Nat.le_refl 0)
  rw [← S.items_recount] at hshort hregular hle
  have hfixed : S.recount.recount.items = S.recount.items := by
    rw [S.recount.items_recount, Wire.recountAll_of_regular _ hregular]
  obtain ⟨body', hbody', hreplay⟩ := exists_replay hwritable hregular
  obtain ⟨again, hagain, hreplay'⟩ := exists_replay
    (Wire.allWritable_of_shortened hshort hwritable) (hfixed.symm ▸ hregular)
  rw [hfixed] at hagain
  obtain rfl := eq_of_allBits (hagain.trans hbody'.symm)
  have hdecode := Decode.decode_of_ofItems hregular hbody'
  have hdepth' : S.recount.depth = S.depth := Wire.depthAll_of_shortened hshort
  rw [hdepth', if_pos hdepth] at hdecode
  have hcalls (calls : List Call) (hframing : calls.all Call.isFraming = true)
      (hfinish : ((start .empty).after calls).finish = .ok (Format.magic ++ body)) :
      Format.magic ++ again = Format.magic ++ body := by
    rw [eq_of_allBits (hbody'.trans (recount_of_finish hframing hfinish h).symm)]
  refine ⟨Format.magic ++ again, S.recount, hreplay, hdecode, hshort, ?_, hreplay', hcalls, ?_⟩
  · rw [← hbody'] at hle
    simp only [allBits, length_bitsAt, ByteArray.size_append] at hle ⊢
    omega
  · intro slots steps hsteps hfinish
    rw [← after_allCalls _ _ (allAppend_of_allFraming steps hsteps)] at hfinish
    exact hcalls _ (all_isFraming_allCalls _ steps hsteps) hfinish

theorem replay_of_decode_overlong :
    ∃ S', Stream.decode (Format.magic ++ ⟨#[33, 12, 0, 0, 1, 0, 0, 0, 11, 2, 1, 0]⟩) = .ok S' ∧
      Shortened S'.items [.block ⟨8, 3, 2⟩ [.record 1 [2]]] ∧
      ∀ types : Place → UInt32, (∀ place, types place ≠ 0) →
        S'.replay types = .ok (Format.magic ++ ⟨#[33, 12, 0, 0, 1, 0, 0, 0, 11, 2, 1, 0]⟩) := by
  have hdecode : Stream.decode (Format.magic ++
      ⟨#[33, 204, 255, 255, 2, 0, 0, 0, 11, 65, 32, 16, 240, 255, 255, 255]⟩) =
      .ok ⟨[⟨⟨8, 3, 2⟩, [.record 1 [2]]⟩]⟩ := by
    refine (Decode.decode_of_isItems ?_).trans (if_pos (by decide))
    have hbits : allBits ⟨#[33, 204, 255, 255, 2, 0, 0, 0, 11, 65, 32, 16, 240, 255, 255, 255]⟩ =
        bitsOf 2 1 ++ (bitsOf 8 8 ++ bitsOf 4 3 ++ List.replicate 18 true ++ bitsOf 32 2) ++
          ((bitsOf 3 3 ++ ([33, 32, 0].flatMap (bitsOf 6) ++ bitsOf 6 1 ++ bitsOf 6 2)) ++ []) ++
          (bitsOf 3 0 ++ List.replicate 28 true) ++ [] := by
      decide +kernel
    have hsmall {width value : Nat} (h : value < Vbr.flag (width - 1)) (hlt : value < 2 ^ 64) :
        Wire.IsVbr width value (bitsOf width value) :=
      ⟨hlt, [value], .last h, by simp,
        by rw [Vbr.ofChunks_singleton, Nat.mod_eq_of_lt h], by simp⟩
    rw [hbits]
    refine .block ⟨by decide, rfl⟩ ?_ (.leaf (.record ⟨by decide, rfl⟩ ?_) (.nil ..)) ?_ (by decide)
      (.nil ..)
    · exact ⟨_, _, _, hsmall (by decide) (by decide), hsmall (by decide) (by decide), by decide,
        by decide, ⟨by decide, by decide⟩, rfl⟩
    · refine ⟨_, _, _, ⟨by decide, _, ?_, ?_, ?_, rfl⟩, hsmall (by decide) (by decide),
        Wire.isList_cons.mpr
          ⟨_, _, hsmall (by decide) (by decide), Wire.isList_nil.mpr rfl, rfl⟩, rfl⟩
      · exact .more (by decide) (by decide) (.more (by decide) (by decide) (.last (by decide)))
      · decide
      · decide
    · exact ⟨_, _, ⟨by decide, rfl⟩, ⟨by decide, by decide⟩, rfl⟩
  obtain ⟨bytes', S', hreplay, hdecode', hshort, -, hagain, -⟩ := replay_of_decode hdecode
    ⟨⟨⟨.module, rfl, rfl⟩, ⟨show (1 : UInt64).toNat < UInt32.size by decide, trivial⟩⟩, trivial⟩
  have hbytes : Stream.replay (fun _ ↦ 1) ⟨[⟨⟨8, 3, 2⟩, [.record 1 [2]]⟩]⟩ =
      .ok (Format.magic ++ ⟨#[33, 12, 0, 0, 1, 0, 0, 0, 11, 2, 1, 0]⟩) := by
    decide +kernel
  obtain rfl := Except.ok.inj ((hreplay (fun _ ↦ 1) fun _ ↦ by decide).symm.trans hbytes)
  exact ⟨S', hdecode', hshort, hagain⟩

end BlockStream.Session
