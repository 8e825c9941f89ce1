import BlockStream.Abbreviation
import BlockStream.Proofs.Buffer.Reached
import BlockStream.Proofs.Fields

namespace BlockStream

theorem toNat_typeIndexWidth (types : UInt32) :
    (typeIndexWidth types).toNat = 32 - types.toBitVec.clz.toNat := by
  have hle : types.toBitVec.clz ≤ 32#32 := BitVec.clz_le
  exact UInt32.toNat_sub_of_le 32 _ (UInt32.le_iff_toBitVec_le.mpr hle)

theorem toNat_lt_two_pow_typeIndexWidth (types : UInt32) :
    types.toNat < 2 ^ (typeIndexWidth types).toNat := by
  rw [toNat_typeIndexWidth]
  exact BitVec.toNat_lt_two_pow_sub_clz (x := types.toBitVec)

theorem lt_two_pow_typeIndexWidth {types : UInt32} {index : Nat} (h : index < types.toNat) :
    index < 2 ^ (typeIndexWidth types).toNat :=
  Nat.lt_trans h (toNat_lt_two_pow_typeIndexWidth types)

theorem two_pow_typeIndexWidth_le {types : UInt32} (h : 0 < types.toNat) :
    2 ^ ((typeIndexWidth types).toNat - 1) ≤ types.toNat := by
  have hne : types.toBitVec ≠ 0#32 := fun hzero ↦ by
    have hnat : types.toNat = 0 := congrArg BitVec.toNat hzero
    omega
  have hle := BitVec.two_pow_sub_clz_le_toNat_of_ne_zero (by decide) hne
  rw [toNat_typeIndexWidth, Nat.sub_right_comm]
  exact hle

theorem typeIndexWidth_le (types : UInt32) : (typeIndexWidth types).toNat ≤ 32 := by
  rw [toNat_typeIndexWidth]
  exact Nat.sub_le ..

theorem typeIndexWidth_pos {types : UInt32} (h : 0 < types.toNat) :
    0 < (typeIndexWidth types).toNat := by
  have hlt := toNat_lt_two_pow_typeIndexWidth types
  rcases Nat.eq_zero_or_pos (typeIndexWidth types).toNat with hzero | hpos
  · rw [hzero] at hlt
    omega
  · exact hpos

theorem typeIndexWidth_mono {fewer more : UInt32} (h : fewer ≤ more) :
    typeIndexWidth fewer ≤ typeIndexWidth more := by
  rw [UInt32.le_iff_toNat_le] at h ⊢
  have hmore := toNat_lt_two_pow_typeIndexWidth more
  rcases Nat.eq_zero_or_pos fewer.toNat with hzero | hpos
  · obtain rfl : fewer = 0 := UInt32.toNat_inj.mp hzero
    exact Nat.zero_le _
  · have hfewer := two_pow_typeIndexWidth_le hpos
    have hpow : 2 ^ ((typeIndexWidth fewer).toNat - 1) < 2 ^ (typeIndexWidth more).toNat := by
      omega
    have hlt := (Nat.pow_lt_pow_iff_right (by decide)).mp hpow
    omega

/-- For a count of types that is not zero, the width is the one from 1 to 32 that has room for the
count and would not have it with one bit less, and behind whatever has been appended so far each
index below the count is written in that width and read back. A larger count has no smaller
width. -/
theorem typeIndex_read_back :
    (∀ {types : UInt32}, 1 ≤ types →
      1 ≤ (typeIndexWidth types).toNat ∧ (typeIndexWidth types).toNat ≤ 32 ∧
      2 ^ ((typeIndexWidth types).toNat - 1) ≤ types.toNat ∧
      types.toNat < 2 ^ (typeIndexWidth types).toNat ∧
      ∀ {existing : ByteArray} {b : Buffer},
        Buffer.Reached (fun _ step ↦ step.isAppend = true) existing b →
        ∀ index : UInt64, index.toNat < types.toNat →
          ∃ c, Write.field (typeIndexWidth types).toNat index b = .ok () c ∧
            Read.field (typeIndexWidth types).toNat ⟨c.bytes, b.bitLen⟩ =
              .ok index ⟨c.bytes, c.bitLen⟩) ∧
    ∀ {fewer more : UInt32}, fewer ≤ more → typeIndexWidth fewer ≤ typeIndexWidth more := by
  refine ⟨fun {types} htypes ↦ ?_, typeIndexWidth_mono⟩
  have hpos : 0 < types.toNat := UInt32.le_iff_toNat_le.mp htypes
  have hwidth := typeIndexWidth_le types
  have hroom := toNat_lt_two_pow_typeIndexWidth types
  refine ⟨typeIndexWidth_pos hpos, hwidth, two_pow_typeIndexWidth_le hpos, hroom, ?_⟩
  intro existing b hb index hindex
  exact Buffer.field_read_back hb.tidy_of_appends (by omega) (Nat.lt_trans hindex hroom)

theorem typeIndex_read_back_eight :
    (1 ≤ (typeIndexWidth 8).toNat ∧ 2 ^ ((typeIndexWidth 8).toNat - 1) = 8 ∧
      ∃ c, Write.field 4 7 ⟨⟨#[7, 1]⟩, 9⟩ = .ok () c ∧
        Read.field 4 ⟨c.bytes, 9⟩ = .ok 7 ⟨c.bytes, c.bitLen⟩) ∧
    (2 ^ 31 ≤ (0xffffffff : UInt32).toNat ∧
      ∃ c, Write.field 32 0xfffffffe ⟨⟨#[7, 1]⟩, 9⟩ = .ok () c ∧
        Read.field 32 ⟨c.bytes, 9⟩ = .ok 0xfffffffe ⟨c.bytes, c.bitLen⟩) ∧
    typeIndexWidth 8 ≤ typeIndexWidth 0xffffffff := by
  have hstart : Buffer.Reached (fun _ step ↦ step.isAppend = true) ⟨#[7]⟩ ⟨⟨#[7, 1]⟩, 9⟩ :=
    Buffer.Reached.start.step (.bool true) rfl
  obtain ⟨hcounts, hmono⟩ := typeIndex_read_back
  obtain ⟨hpos, -, -, -, height⟩ := @hcounts 8 (by decide)
  obtain ⟨-, -, hword, -, hall⟩ := @hcounts 0xffffffff (by decide)
  refine ⟨⟨hpos, rfl, ?_⟩, ⟨hword, ?_⟩, hmono (by decide)⟩
  · exact height hstart 7 (by decide)
  · exact hall hstart 0xfffffffe (by decide)

end BlockStream
