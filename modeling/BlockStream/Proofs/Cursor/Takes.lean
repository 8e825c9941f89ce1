import BlockStream.Cursor.Field
import BlockStream.Proofs.Wire.Grammar
import Mathlib.Data.Nat.Bitwise

namespace BlockStream

/-- The way from `c` to `d` passes these bits. -/
structure Cursor.Takes (c : Cursor) (bits : List Bool) (d : Cursor) : Prop where
  end_eq : d = { c with pos := c.pos + bits.length }
  bits_eq : bitsAt c.bytes c.pos bits.length = bits
  inside : c.pos + bits.length ≤ c.bitLen

namespace Cursor.Takes

variable {c d e : Cursor} {xs ys : List Bool}

theorem refl (h : c.pos ≤ c.bitLen) : c.Takes [] c := ⟨rfl, rfl, h⟩

theorem trans (h : c.Takes xs d) (k : d.Takes ys e) : c.Takes (xs ++ ys) e := by
  obtain ⟨rfl, hx, -⟩ := h
  obtain ⟨rfl, hy, hin⟩ := k
  refine ⟨by simp [Nat.add_assoc], ?_, by simpa [Nat.add_assoc, bitLen] using hin⟩
  rw [List.length_append, bitsAt_add, hx, hy]

theorem split (h : c.Takes (xs ++ ys) e) : ∃ d, c.Takes xs d ∧ d.Takes ys e := by
  obtain ⟨rfl, hbits, hin⟩ := h
  rw [List.length_append, bitsAt_add] at hbits
  rw [List.length_append] at hin
  obtain ⟨hx, hy⟩ := List.append_inj hbits (by simp)
  exact ⟨{ c with pos := c.pos + xs.length }, ⟨rfl, hx, by omega⟩,
    ⟨by simp [Nat.add_assoc], hy, by simpa [Nat.add_assoc, bitLen] using hin⟩⟩

theorem pos_eq (h : c.Takes xs d) : d.pos = c.pos + xs.length := by rw [h.end_eq]

theorem bytes_eq (h : c.Takes xs d) : d.bytes = c.bytes := by rw [h.end_eq]

theorem unique (h : c.Takes xs d) (k : c.Takes ys d) : xs = ys := by
  have hlen : xs.length = ys.length := Nat.add_left_cancel (h.pos_eq.symm.trans k.pos_eq)
  calc xs = bitsAt c.bytes c.pos xs.length := h.bits_eq.symm
    _ = bitsAt c.bytes c.pos ys.length := by rw [hlen]
    _ = ys := k.bits_eq

theorem pos_le (h : c.Takes xs d) : d.pos ≤ d.bitLen := by
  rw [h.end_eq]
  exact h.inside

end Cursor.Takes

namespace Read

variable {c d : Cursor}

theorem toNat_fieldAt (bytes : ByteArray) (start : Nat) {width : Nat} (hw : width ≤ 64) :
    (fieldAt bytes start width).toUInt64.toNat = fieldAt bytes start width :=
  UInt64.toNat_ofNat_of_lt'
    (Nat.lt_of_lt_of_le (fieldAt_lt ..) (Nat.pow_le_pow_right Nat.two_pos hw))

theorem takes_of_field {width : Nat} {v : UInt64} (h : field width c = .ok v d) :
    v.toNat < 2 ^ width ∧ c.Takes (bitsOf width v.toNat) d := by
  rw [field_eq] at h
  split at h
  · cases h
  rename_i hw
  split at h
  · rename_i hin
    cases h
    rw [toNat_fieldAt _ _ (Nat.not_lt.mp hw)]
    refine ⟨fieldAt_lt .., by rw [length_bitsOf], ?_, by rwa [length_bitsOf]⟩
    rw [length_bitsOf, bitsOf_fieldAt]
  · cases h

theorem field_of_takes {width v : Nat} (h : c.Takes (bitsOf width v) d) (hw : width ≤ 64)
    (hv : v < 2 ^ width) : field width c = .ok v.toUInt64 d := by
  obtain ⟨rfl, hbits, hin⟩ := h
  rw [length_bitsOf] at hbits hin
  rw [field_eq, if_neg (Nat.not_lt.mpr hw), if_pos hin, fieldAt_of_bitsAt hbits hv, length_bitsOf]

theorem bool_of_takes {bit : Bool} (h : c.Takes [bit] d) : bool c = .ok bit d := by
  have hf : field 1 c = .ok bit.toNat.toUInt64 d :=
    field_of_takes (by cases bit <;> exact h) (by decide) (by cases bit <;> decide)
  refine (bind_of_ok hf).trans ?_
  cases bit <;> rfl

section Chunks

theorem toUInt64_toNat (word : UInt64) : word.toNat.toUInt64 = word := by
  rw [Nat.toUInt64_eq, UInt64.ofNat_toNat]

theorem toNat_toUInt64 {v : Nat} (h : v < 2 ^ 64) : v.toUInt64.toNat = v :=
  UInt64.toNat_ofNat_of_lt' h

theorem toNat_toUInt32 {word : UInt64} (h : word.toNat < 2 ^ 32) :
    word.toUInt32.toNat = word.toNat := by
  rw [UInt64.toNat_toUInt32, Nat.mod_eq_of_lt h]

theorem toNat_payload {payload : Nat} (hp : payload < 64) (chunk : UInt64) :
    (chunk &&& ((1 : UInt64) <<< payload.toUInt64 - 1)).toNat =
      chunk.toNat % Vbr.flag payload := by
  rw [UInt64.toNat_and, toNat_lowOnes hp, Nat.one_shiftLeft, Nat.and_two_pow_sub_one_eq_mod,
    Vbr.flag_eq]

theorem and_flag_eq_zero_iff {payload : Nat} (hp : payload < 64) {chunk : UInt64}
    (hc : chunk.toNat < 2 ^ (payload + 1)) :
    chunk &&& (1 : UInt64) <<< payload.toUInt64 = 0 ↔ chunk.toNat < Vbr.flag payload := by
  have hpos := Nat.two_pow_pos payload
  rw [← UInt64.toNat_inj, UInt64.toNat_and, toNat_one_shiftUp hp, Nat.one_shiftLeft,
    Nat.and_two_pow,
    Vbr.testBit_chunk hc, UInt64.toNat_zero]
  rcases Nat.lt_or_ge chunk.toNat (Vbr.flag payload) with hlt | hge
  · simp [hlt]
  · simp [hge]

theorem shiftLeft_lt_iff {shift : Nat} (hs : shift < 64) (digits : Nat) :
    digits <<< shift < 2 ^ 64 ↔ digits < 2 ^ (64 - shift) := by
  have hsplit : 2 ^ 64 = 2 ^ (64 - shift) * 2 ^ shift := by
    rw [← Nat.pow_add, Nat.sub_add_cancel (Nat.le_of_lt hs)]
  rw [Nat.shiftLeft_eq, hsplit, Nat.mul_lt_mul_right (Nat.two_pow_pos shift)]

theorem lost_eq {shift : Nat} (hs : shift < 64) (digits : UInt64) :
    ∃ excess, lost digits shift = pure excess ∧ (excess = 0 ↔ digits.toNat <<< shift < 2 ^ 64) := by
  rw [lost]
  split
  · rename_i hzero
    subst hzero
    exact ⟨0, rfl, by simpa using digits.toNat_lt⟩
  · rename_i hpos
    rw [shiftDown_of_lt _ (by omega)]
    refine ⟨_, rfl, ?_⟩
    rw [shiftLeft_lt_iff hs, ← UInt64.toNat_inj, UInt64.toNat_shiftRight, toNat_places (by omega),
      Nat.shiftRight_eq_div_pow, UInt64.toNat_zero]
    exact ⟨Nat.lt_of_div_eq_zero (Nat.two_pow_pos _), Nat.div_eq_of_lt⟩

theorem sum_lt_next {sum digits payload shift : Nat} (hsum : sum < 2 ^ shift)
    (hd : digits < 2 ^ payload) : sum + digits <<< shift < 2 ^ (shift + payload) := by
  rw [Nat.shiftLeft_eq, Nat.pow_add]
  calc sum + digits * 2 ^ shift < 2 ^ shift + digits * 2 ^ shift := by omega
    _ = 2 ^ shift * (digits + 1) := by rw [Nat.mul_succ, Nat.mul_comm, Nat.add_comm]
    _ ≤ 2 ^ shift * 2 ^ payload := Nat.mul_le_mul_left _ hd

theorem sum_lt {sum digits shift : Nat} (hs : shift < 64) (hsum : sum < 2 ^ shift)
    (h : digits <<< shift < 2 ^ 64) : sum + digits <<< shift < 2 ^ 64 := by
  have hnext := sum_lt_next hsum ((shiftLeft_lt_iff hs digits).mp h)
  rwa [Nat.add_sub_cancel' (Nat.le_of_lt hs)] at hnext

theorem toNat_sum {sum digits : UInt64} {shift : Nat} (hs : shift < 64)
    (hsum : sum.toNat < 2 ^ shift) (h : digits.toNat <<< shift < 2 ^ 64) :
    (sum ||| digits <<< shift.toUInt64).toNat = sum.toNat + digits.toNat <<< shift := by
  rw [UInt64.toNat_or, UInt64.toNat_shiftLeft, toNat_places hs, Nat.mod_eq_of_lt h, Nat.or_comm,
    ← Nat.shiftLeft_add_eq_or_of_lt hsum, Nat.add_comm]

theorem chunksFrom_of_field {payload start shift : Nat} {sum chunk : UInt64}
    (hp : payload + 2 ≤ 64) (hsum : sum.toNat < 2 ^ shift)
    (hf : field (payload + 2) c = .ok chunk d) :
    chunksFrom payload start shift sum c =
      let digits := chunk.toNat % Vbr.flag (payload + 1)
      if 64 ≤ shift ∨ 2 ^ 64 ≤ digits <<< shift then .error (.error (.vbrOverflow start)) d
      else if chunk.toNat < Vbr.flag (payload + 1) then
        .ok (sum.toNat + digits <<< shift).toUInt64 d
      else chunksFrom payload start (shift + (payload + 1))
        (sum.toNat + digits <<< shift).toUInt64 d := by
  have hpayload := toNat_payload (show payload + 1 < 64 by omega) chunk
  have hflag := and_flag_eq_zero_iff (show payload + 1 < 64 by omega) (takes_of_field hf).1
  rw [chunksFrom]
  refine (bind_of_ok hf).trans ?_
  rw [shiftUp_of_lt 1 (show payload + 1 < 64 by omega)]
  refine (bind_of_ok rfl).trans ?_
  dsimp only
  rcases Nat.lt_or_ge shift 64 with hs | hs
  · obtain ⟨excess, hlost, hover⟩ := lost_eq hs
      (chunk &&& ((1 : UInt64) <<< (payload + 1).toUInt64 - 1))
    rw [hpayload] at hover
    rw [if_neg (Nat.not_le.mpr hs), hlost]
    refine (bind_of_ok rfl).trans ?_
    by_cases hfit : (chunk.toNat % Vbr.flag (payload + 1)) <<< shift < 2 ^ 64
    · have hnot : ¬ (64 ≤ shift ∨ 2 ^ 64 ≤ (chunk.toNat % Vbr.flag (payload + 1)) <<< shift) := by
        omega
      have hnext := toNat_sum hs hsum (hpayload ▸ hfit)
      rw [hpayload] at hnext
      rw [if_neg (not_not.mpr (hover.mpr hfit)), if_neg hnot, shiftUp_of_lt _ hs]
      refine (bind_of_ok rfl).trans ?_
      rw [← hnext, toUInt64_toNat]
      by_cases hlast : chunk.toNat < Vbr.flag (payload + 1)
      · rw [if_pos (hflag.mpr hlast), if_pos hlast]
        rfl
      · rw [if_neg (mt hflag.mp hlast), if_neg hlast]
    · rw [if_pos (mt hover.mp hfit), if_pos (.inr (Nat.not_lt.mp hfit))]
      rfl
  · rw [if_pos hs, if_pos (.inl hs)]
    rfl

theorem takes_of_chunksFrom {payload start : Nat} (hp : payload + 2 ≤ 64) {v : UInt64}
    (shift : Nat) (sum : UInt64) (c : Cursor) (hsum : sum.toNat < 2 ^ shift)
    (h : chunksFrom payload start shift sum c = .ok v d) :
    ∃ chunks, Vbr.Chain (payload + 1) chunks ∧
      shift + (chunks.length - 1) * (payload + 1) < 64 ∧
      sum.toNat + Vbr.ofChunks (payload + 1) chunks <<< shift = v.toNat ∧
      c.Takes (chunks.flatMap (bitsOf (payload + 2))) d := by
  -- on the places left for payload digits; `sum` is what the chunks in front have brought
  induction hn : 64 - shift using Nat.strongRecOn generalizing shift sum c with
  | ind n ih =>
    cases hf : field (payload + 2) c with
    | error e t =>
      rw [chunksFrom, bind_of_error hf] at h
      cases h
    | ok chunk t =>
      obtain ⟨hchunk, htake⟩ := takes_of_field hf
      have hdigits := Vbr.mod_flag_lt (payload + 1) chunk.toNat
      rw [chunksFrom_of_field hp hsum hf] at h
      dsimp only at h
      split at h
      · cases h
      rename_i hfit
      have hs : shift < 64 := by omega
      have hword := toNat_toUInt64 (sum_lt hs hsum (Nat.not_le.mp fun hle ↦ hfit (.inr hle)))
      split at h
      · rename_i hlast
        cases h
        refine ⟨[chunk.toNat], .last hlast, by simpa using hs, ?_, by simpa using htake⟩
        rw [Vbr.ofChunks_singleton, hword]
      · rename_i hmore
        obtain ⟨rest, hchain, hstart, hsum', hrest⟩ := ih _ (by omega) _ _ _
          (by rw [hword]; exact sum_lt_next hsum hdigits) h rfl
        have hlen := List.length_pos_iff.mpr hchain.ne_nil
        refine ⟨chunk.toNat :: rest, .more (Nat.not_lt.mp hmore) ?_ hchain, ?_, ?_, ?_⟩
        · rw [Vbr.flag_eq]
          rw [Nat.pow_succ] at hchunk
          omega
        · obtain ⟨k, hk⟩ := Nat.exists_eq_succ_of_ne_zero (Nat.ne_of_gt hlen)
          rw [hk] at hstart
          rw [List.length_cons, hk, Nat.succ_sub_one, Nat.succ_mul]
          rw [Nat.succ_sub_one] at hstart
          omega
        · rw [hword] at hsum'
          rw [← hsum', Vbr.ofChunks_cons_shiftLeft, Nat.add_assoc]
        · exact htake.trans hrest

theorem chunksFrom_of_takes {payload start : Nat} (hp : payload + 2 ≤ 64) {chunks : List Nat}
    (hchain : Vbr.Chain (payload + 1) chunks) (shift : Nat) (sum : UInt64) (c : Cursor)
    (hsum : sum.toNat < 2 ^ shift)
    (hstart : shift + (chunks.length - 1) * (payload + 1) < 64)
    (hfit : sum.toNat + Vbr.ofChunks (payload + 1) chunks <<< shift < 2 ^ 64)
    (h : c.Takes (chunks.flatMap (bitsOf (payload + 2))) d) :
    chunksFrom payload start shift sum c =
      .ok (sum.toNat + Vbr.ofChunks (payload + 1) chunks <<< shift).toUInt64 d := by
  induction hchain generalizing shift sum c with
  | @last chunk hlast =>
    have hs : shift < 64 := by simpa using hstart
    have hflag : Vbr.flag (payload + 1) ≤ 2 ^ (payload + 2) := by
      rw [Vbr.flag_eq]
      exact Nat.pow_le_pow_right Nat.two_pos (Nat.le_succ _)
    have hf := field_of_takes (by simpa using h) hp (Nat.lt_of_lt_of_le hlast hflag)
    have hword : chunk.toUInt64.toNat = chunk := toNat_toUInt64
      (Nat.lt_of_lt_of_le (Nat.lt_of_lt_of_le hlast hflag)
        (Nat.pow_le_pow_right Nat.two_pos hp))
    rw [Vbr.ofChunks_singleton] at hfit ⊢
    rw [chunksFrom_of_field hp hsum hf, hword]
    dsimp only
    rw [if_neg (by omega), if_pos hlast]
  | @more chunk rest hle hlt hchain ih =>
    have hlen := List.length_pos_iff.mpr hchain.ne_nil
    obtain ⟨k, hk⟩ := Nat.exists_eq_succ_of_ne_zero (Nat.ne_of_gt hlen)
    rw [List.length_cons, Nat.add_sub_cancel, hk, Nat.succ_mul] at hstart
    have hs : shift < 64 := by omega
    have hchunk : chunk < 2 ^ (payload + 2) := by
      rw [Vbr.flag_eq] at hlt
      rw [Nat.pow_succ]
      omega
    obtain ⟨t, htake, hrest⟩ := Cursor.Takes.split h
    have hf := field_of_takes htake hp hchunk
    have hword : chunk.toUInt64.toNat = chunk := toNat_toUInt64
      (Nat.lt_of_lt_of_le hchunk (Nat.pow_le_pow_right Nat.two_pos hp))
    rw [Vbr.ofChunks_cons_shiftLeft, ← Nat.add_assoc] at hfit ⊢
    have hdigits := Vbr.mod_flag_lt (payload + 1) chunk
    have hsum' := Nat.lt_of_le_of_lt (Nat.le_add_right ..) hfit
    have hup := Nat.lt_of_le_of_lt (Nat.le_add_left ..) hsum'
    have hnext := toNat_toUInt64 hsum'
    rw [chunksFrom_of_field hp hsum hf, hword]
    dsimp only
    rw [if_neg (not_or.mpr ⟨Nat.not_le.mpr hs, Nat.not_le.mpr hup⟩), if_neg (Nat.not_lt.mpr hle),
      ih _ _ _ (by rw [hnext]; exact sum_lt_next hsum hdigits)
        (by rw [hk, Nat.succ_sub_one]; omega) (by rwa [hnext]) hrest, hnext]

end Chunks

theorem takes_of_vbr {width : Nat} {v : UInt64} (h : vbr width c = .ok v d) :
    ∃ bits, Wire.IsVbr width v.toNat bits ∧ c.Takes bits d := by
  unfold vbr at h
  split at h
  · rename_i payload
    split at h
    · rename_i hp
      obtain ⟨_, _, hget, h⟩ := ok_of_bind h
      cases hget
      obtain ⟨chunks, hchain, hstart, hsum, htake⟩ :=
        takes_of_chunksFrom hp 0 0 c (by decide) h
      simp only [UInt64.toNat_zero, Nat.zero_add, Nat.shiftLeft_zero] at hsum hstart
      exact ⟨_, ⟨v.toNat_lt, chunks, hchain, hstart, hsum, rfl⟩, htake⟩
    · cases h
  · cases h

theorem vbr_of_takes {width v : Nat} {bits : List Bool} (hw : 2 ≤ width ∧ width ≤ 64)
    (hv : Wire.IsVbr width v bits) (h : c.Takes bits d) : vbr width c = .ok v.toUInt64 d := by
  obtain ⟨payload, rfl⟩ := Nat.exists_eq_add_of_le' hw.1
  obtain ⟨hlt, chunks, hchain, hstart, rfl, rfl⟩ := hv
  unfold vbr
  dsimp only
  rw [if_pos hw.2]
  refine (bind_of_ok rfl).trans ?_
  rw [chunksFrom_of_takes hw.2 hchain 0 0 c (by decide) (by simpa using hstart)
    (by simpa using hlt) h]
  simp

theorem takes_of_align32 {u : Unit} (h : align32 c = .ok u d) :
    ∃ bits, Wire.IsPadding c.pos bits ∧ c.Takes bits d := by
  rw [align32_eq, skip_eq] at h
  split at h <;> cases h
  rename_i hin
  refine ⟨bitsAt c.bytes c.pos ((32 - c.pos % 32) % 32), ⟨?_, ?_⟩, ⟨?_, ?_, ?_⟩⟩
  · rw [length_bitsAt]
    omega
  · rw [length_bitsAt]
    omega
  · rw [length_bitsAt]
  · rw [length_bitsAt]
  · rwa [length_bitsAt]

theorem skip_of_takes {bits : List Bool} (h : c.Takes bits d) : skip bits.length c = .ok () d := by
  obtain ⟨rfl, -, hin⟩ := h
  rw [skip_eq, if_pos hin]

theorem align32_of_takes {bits : List Bool} (hpad : Wire.IsPadding c.pos bits)
    (h : c.Takes bits d) : align32 c = .ok () d := by
  obtain ⟨hlt, hmod⟩ := hpad
  have hlen : (32 - c.pos % 32) % 32 = bits.length := by omega
  rw [align32_eq, hlen, skip_of_takes h]

theorem byteOffset_of_aligned (h : c.pos % 8 = 0) : byteOffset c = .ok (c.pos / 8) c := by
  rw [byteOffset, if_pos h]

end Read

end BlockStream
