import BlockStream.Cursor

namespace BlockStream.Read

theorem shiftUp_of_lt {places : Nat} (word : UInt64) (h : places < 64) :
    shiftUp word places = pure (word <<< places.toUInt64) := by rw [shiftUp, if_pos h]

theorem shiftDown_of_lt {places : Nat} (word : UInt64) (h : places < 64) :
    shiftDown word places = pure (word >>> places.toUInt64) := by rw [shiftDown, if_pos h]

theorem byteAt_of_lt {i : Nat} {c : Cursor} (h : i < c.bytes.size) :
    byteAt i c = .ok c.bytes[i] c := by rw [byteAt, dif_pos h]

theorem toNat_places {places : Nat} (h : places < 64) : places.toUInt64.toNat % 64 = places := by
  simp [Nat.toUInt64]
  omega

theorem testBit_shiftUp (word : UInt64) {places : Nat} (h : places < 64) (i : Nat) :
    (word <<< places.toUInt64).toNat.testBit i =
      (decide (i < 64) && (decide (places ≤ i) && word.toNat.testBit (i - places))) := by
  rw [UInt64.toNat_shiftLeft, toNat_places h, Nat.testBit_mod_two_pow, Nat.testBit_shiftLeft]

theorem testBit_shiftDown (word : UInt64) {places : Nat} (h : places < 64) (i : Nat) :
    (word >>> places.toUInt64).toNat.testBit i = word.toNat.testBit (places + i) := by
  rw [UInt64.toNat_shiftRight, toNat_places h, Nat.testBit_shiftRight]

theorem toNat_one_shiftUp {places : Nat} (h : places < 64) :
    ((1 : UInt64) <<< places.toUInt64).toNat = 1 <<< places := by
  rw [UInt64.toNat_shiftLeft, toNat_places h, UInt64.toNat_one, Nat.one_shiftLeft]
  exact Nat.mod_eq_of_lt (Nat.pow_lt_pow_right (by decide) h)

theorem toNat_lowOnes {places : Nat} (h : places < 64) :
    ((1 : UInt64) <<< places.toUInt64 - 1).toNat = 1 <<< places - 1 := by
  rw [UInt64.toNat_sub_of_le, toNat_one_shiftUp h, UInt64.toNat_one]
  rw [UInt64.le_iff_toNat_le, toNat_one_shiftUp h, Nat.one_shiftLeft]
  exact Nat.two_pow_pos places

theorem part_eq {bytes : ByteArray} {pos take : Nat} (hb : pos / 8 < bytes.size)
    (ht : pos % 8 + take ≤ 8) :
    ((bytes[pos / 8].toUInt64 >>> (pos % 8).toUInt64) &&&
      ((1 : UInt64) <<< take.toUInt64 - 1)).toNat = fieldAt bytes pos take := by
  apply Nat.eq_of_testBit_eq
  intro i
  rw [UInt64.toNat_and, Nat.testBit_and, testBit_shiftDown _ (by omega), toNat_lowOnes (by omega),
    Nat.one_shiftLeft, Nat.testBit_two_pow_sub_one, testBit_fieldAt, Bool.and_comm]
  by_cases hi : i < take
  · have hdiv : (pos + i) / 8 = pos / 8 := by omega
    have hmod : (pos + i) % 8 = pos % 8 + i := by omega
    simp [hi, bitAt, hdiv, hmod, hb]
  · simp [hi]

theorem fieldAt_or {bytes : ByteArray} {start done take : Nat} (h : done + take ≤ 64)
    {digits part : UInt64} (hd : digits.toNat = fieldAt bytes start done)
    (hp : part.toNat = fieldAt bytes (start + done) take) (hlt : done < 64) :
    (digits ||| part <<< done.toUInt64).toNat = fieldAt bytes start (done + take) := by
  apply Nat.eq_of_testBit_eq
  intro i
  rw [UInt64.toNat_or, Nat.testBit_or, testBit_shiftUp _ hlt, hd, hp, testBit_fieldAt,
    testBit_fieldAt, testBit_fieldAt]
  by_cases hi : i < done
  · have hnot : ¬ done ≤ i := by omega
    have hall : i < done + take := by omega
    simp [hi, hnot, hall]
  · have hge : done ≤ i := by omega
    have hsum : start + done + (i - done) = start + i := by omega
    by_cases hend : i < done + take
    · have h64 : i < 64 := by omega
      have hpart : i - done < take := by omega
      simp [hi, hge, hend, h64, hpart, hsum]
    · have hpart : ¬ i - done < take := by omega
      simp [hi, hend, hpart]

theorem digitsFrom_eq {bytes : ByteArray} {start width : Nat} (hw : width ≤ 64)
    (hl : start + width ≤ 8 * bytes.size) (done : Nat) (digits : UInt64) (hdone : done ≤ width)
    (hd : digits.toNat = fieldAt bytes start done) :
    digitsFrom width done digits ⟨bytes, start + done⟩ =
      .ok (fieldAt bytes start width).toUInt64 ⟨bytes, start + width⟩ := by
  -- on the bits that are still to be taken
  induction hn : width - done using Nat.strongRecOn generalizing done digits with
  | ind n ih =>
    rw [digitsFrom]
    split
    · rename_i hlt
      have hb : (start + done) / 8 < bytes.size := by omega
      let take := min (width - done) (8 - (start + done) % 8)
      have ht : (start + done) % 8 + take ≤ 8 := by omega
      have hnext := ih (width - (done + take)) (by omega) (done + take) _ (by omega)
        (fieldAt_or (by omega) hd (part_eq hb ht) (by omega)) rfl
      refine (bind_of_ok rfl).trans ?_
      refine (bind_of_ok (byteAt_of_lt hb)).trans ?_
      rw [shiftDown_of_lt _ (by omega)]
      refine (bind_of_ok rfl).trans ?_
      rw [shiftUp_of_lt 1 (show take < 64 by omega)]
      refine (bind_of_ok rfl).trans ?_
      rw [shiftUp_of_lt _ (show done < 64 by omega)]
      refine (bind_of_ok rfl).trans ?_
      refine (bind_of_ok rfl).trans ?_
      rw [← Nat.add_assoc] at hnext
      exact hnext
    · have hall : done = width := by omega
      subst hall
      rw [← hd, Nat.toUInt64_eq, UInt64.ofNat_toNat]
      rfl

theorem skip_eq (bits : Nat) (c : Cursor) :
    skip bits c =
      if c.pos + bits ≤ c.bitLen then .ok () { c with pos := c.pos + bits }
      else .error (.error (.unexpectedEnd c.pos)) c := by
  split
  · rename_i hin
    exact bind_of_ok (by rw [ensure, if_pos hin])
  · rename_i hout
    exact bind_of_error (by rw [ensure, if_neg hout])

theorem align32_eq (c : Cursor) : align32 c = skip ((32 - c.pos % 32) % 32) c := rfl

theorem field_eq (width : Nat) (c : Cursor) :
    field width c =
      if 64 < width then .error (.violation (.fieldWidth width)) c
      else if c.pos + width ≤ c.bitLen then
        .ok (fieldAt c.bytes c.pos width).toUInt64 { c with pos := c.pos + width }
      else .error (.error (.unexpectedEnd c.pos)) c := by
  obtain ⟨bytes, pos⟩ := c
  rw [field]
  split
  · rename_i hw
    rw [if_neg (Nat.not_lt.mpr hw)]
    split
    · rename_i hl
      refine (bind_of_ok (by rw [ensure, if_pos hl])).trans ?_
      exact digitsFrom_eq hw hl 0 0 (Nat.zero_le _) rfl
    · rename_i hl
      exact bind_of_error (by rw [ensure, if_neg hl])
  · rename_i hw
    rw [if_pos (Nat.not_le.mp hw)]
    rfl

end BlockStream.Read
