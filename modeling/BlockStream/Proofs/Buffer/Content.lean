import BlockStream.Buffer.Step
import BlockStream.Proofs.BitString

namespace BlockStream.Buffer

/-- The bytes reach just as far as the bits, and behind these all is clear. -/
structure Tidy (b : Buffer) : Prop where
  size_eq : b.bytes.size = (b.bitLen + 7) / 8
  clear : ∀ i, b.bitLen ≤ i → bitAt b.bytes i = false

def bits (b : Buffer) : List Bool := bitsAt b.bytes 0 b.bitLen

@[simp] theorem length_bits (b : Buffer) : b.bits.length = b.bitLen := length_bitsAt ..

theorem tidy_of_whole {b : Buffer} (h : 8 * b.bytes.size = b.bitLen) : b.Tidy where
  size_eq := by omega
  clear _ hi := dif_neg (by omega)

theorem tidy_ofBytes (bytes : ByteArray) : (ofBytes bytes).Tidy := tidy_of_whole rfl

/-- The buffer `c` is `b` with these bits behind it. -/
structure Adds (b : Buffer) (xs : List Bool) (c : Buffer) : Prop where
  tidy : c.Tidy
  bits_eq : c.bits = b.bits ++ xs

namespace Adds

variable {b c d : Buffer} {xs ys : List Bool}

theorem refl (h : b.Tidy) : b.Adds [] b := ⟨h, (List.append_nil _).symm⟩

theorem trans (h : b.Adds xs c) (k : c.Adds ys d) : b.Adds (xs ++ ys) d :=
  ⟨k.tidy, by rw [k.bits_eq, h.bits_eq, List.append_assoc]⟩

theorem bitLen_eq (h : b.Adds xs c) : c.bitLen = b.bitLen + xs.length := by
  have := congrArg List.length h.bits_eq
  simpa using this

theorem bitAt_eq (h : b.Adds xs c) {i : Nat} (hi : i < b.bitLen) :
    bitAt c.bytes i = bitAt b.bytes i := by
  have hlen := h.bitLen_eq
  have hget := List.getElem_of_eq h.bits_eq (i := i) (by rw [length_bits]; omega)
  rw [List.getElem_append_left (by rwa [length_bits])] at hget
  simpa [bits, getElem_bitsAt] using hget

end Adds

section Bits

theorem bitAt_eq_getD (bytes : ByteArray) (i : Nat) :
    bitAt bytes i = (bytes.data[i / 8]?.getD 0).toNat.testBit (i % 8) := by
  rw [bitAt]
  split
  · rename_i h
    rw [Array.getElem?_eq_getElem h, Option.getD_some, ByteArray.getElem_eq_getElem_data]
  · rename_i h
    rw [Array.getElem?_eq_none (Nat.not_lt.mp h), Option.getD_none]
    exact (Nat.zero_testBit _).symm

theorem bitAt_push_zero (bytes : ByteArray) (i : Nat) : bitAt (bytes.push 0) i = bitAt bytes i := by
  rw [bitAt_eq_getD, bitAt_eq_getD, ByteArray.data_push, Array.getElem?_push]
  split
  · rename_i h
    rw [h, Array.getElem?_eq_none (Nat.le_refl _)]
    rfl
  · rfl

theorem size_setInLast (bytes : ByteArray) (mask : UInt8) :
    (setInLast bytes mask).size = bytes.size := by
  rw [setInLast]
  split
  · exact Array.size_set ..
  · rfl

theorem bitAt_setInLast {bytes : ByteArray} (h : 0 < bytes.size) (mask : UInt8) (i : Nat) :
    bitAt (setInLast bytes mask) i =
      (bitAt bytes i || (decide (i / 8 = bytes.size - 1) && mask.toNat.testBit (i % 8))) := by
  have hlast : bytes.size - 1 < bytes.data.size := Nat.sub_one_lt_of_lt h
  rw [setInLast, dif_pos h, bitAt_eq_getD, bitAt_eq_getD, ByteArray.data_set, Array.getElem?_set]
  by_cases hi : bytes.size - 1 = i / 8
  · rw [if_pos hi, decide_eq_true hi.symm, ← hi, Array.getElem?_eq_getElem hlast,
      Option.getD_some, Option.getD_some, UInt8.toNat_or, Nat.testBit_or, Bool.true_and]
    rfl
  · rw [if_neg hi, decide_eq_false (Ne.symm hi), Bool.false_and, Bool.or_false]

theorem testBit_part {offset j : Nat} (ho : offset < 8) (hj : j < 8) (take value : Nat) :
    ((value &&& (1 <<< take - 1)).toUInt8 <<< offset.toUInt8).toNat.testBit j =
      (decide (offset ≤ j ∧ j < offset + take) && value.testBit (j - offset)) := by
  have hplaces : offset.toUInt8.toNat % 8 = offset := by
    simp [Nat.toUInt8]
    omega
  have hbyte (n k : Nat) (hk : k < 8) : n.toUInt8.toNat.testBit k = n.testBit k := by
    have hmod := Nat.testBit_mod_two_pow n 8 k
    rwa [decide_eq_true hk, Bool.true_and] at hmod
  rw [UInt8.toNat_shiftLeft, hplaces, Nat.testBit_mod_two_pow, decide_eq_true hj, Bool.true_and,
    Nat.testBit_shiftLeft]
  rcases Nat.lt_or_ge j offset with hlt | hge
  · rw [decide_eq_false (Nat.not_le.mpr hlt), decide_eq_false (by omega)]
    rfl
  · have hin : j - offset < take ↔ offset ≤ j ∧ j < offset + take := by omega
    rw [hbyte _ _ (by omega), Nat.testBit_and, Nat.one_shiftLeft, Nat.testBit_two_pow_sub_one,
      decide_eq_true hge, Bool.true_and, Bool.and_comm, decide_eq_decide.mpr hin]

theorem testBit_lowDigits {width j : Nat} (h : j < width) (value : Nat) :
    (lowDigits width value).testBit j = value.testBit j := by
  rw [lowDigits]
  split
  · rw [Nat.testBit_and, Nat.one_shiftLeft, Nat.testBit_two_pow_sub_one, decide_eq_true h,
      Bool.and_true]
  · rfl

end Bits

section Digits

theorem bitLen_pushPart (b : Buffer) (take value : Nat) :
    (b.pushPart take value).bitLen = b.bitLen + take := rfl

theorem bitLen_pushParts (b : Buffer) (width value : Nat) :
    (b.pushParts width value).bitLen = b.bitLen + width := by
  fun_induction pushParts b width value with
  | case1 b width value hpos take ih =>
    rw [ih, bitLen_pushPart]
    omega
  | case2 => omega

variable {b : Buffer} (h : b.bytes.size = (b.bitLen + 7) / 8)
include h

theorem size_grown : (if b.bitLen % 8 = 0 then b.bytes.push 0 else b.bytes).size =
    b.bitLen / 8 + 1 := by
  split
  · rw [ByteArray.size_push]
    omega
  · omega

theorem size_pushPart (take value : Nat) : (b.pushPart take value).bytes.size = b.bitLen / 8 + 1 :=
  (size_setInLast _ _).trans (size_grown h)

theorem bitAt_pushPart {take : Nat} (htake : b.bitLen % 8 + take ≤ 8) (value i : Nat) :
    bitAt (b.pushPart take value).bytes i = (bitAt b.bytes i ||
      (decide (b.bitLen ≤ i ∧ i < b.bitLen + take) && value.testBit (i - b.bitLen))) := by
  have hold : bitAt (if b.bitLen % 8 = 0 then b.bytes.push 0 else b.bytes) i = bitAt b.bytes i := by
    split
    · exact bitAt_push_zero _ i
    · rfl
  have hpart := testBit_part (Nat.mod_lt b.bitLen (by decide)) (Nat.mod_lt i (by decide)) take value
  refine (bitAt_setInLast (size_grown h ▸ Nat.succ_pos _) _ i).trans ?_
  rw [hold, size_grown h, hpart, ← Bool.and_assoc, ← Bool.decide_and]
  -- the part does not reach over the end of its byte
  by_cases hi : b.bitLen ≤ i ∧ i < b.bitLen + take
  · have hplace : i % 8 - b.bitLen % 8 = i - b.bitLen := by omega
    rw [decide_eq_true (by omega), decide_eq_true hi, hplace]
  · rw [decide_eq_false (by omega), decide_eq_false hi, Bool.false_and, Bool.false_and]

theorem size_pushParts (width value : Nat) :
    (b.pushParts width value).bytes.size = (b.bitLen + width + 7) / 8 := by
  fun_induction pushParts b width value with
  | case1 b width value hpos take ih =>
    have hpart := size_pushPart h take value
    rw [ih (by rw [hpart, bitLen_pushPart]; omega), bitLen_pushPart]
    omega
  | case2 b width => omega

/-- Round by round, the digits are added to the bits that stand at their places. -/
theorem bitAt_pushParts (width value i : Nat) :
    bitAt (b.pushParts width value).bytes i = (bitAt b.bytes i ||
      (decide (b.bitLen ≤ i ∧ i < b.bitLen + width) && value.testBit (i - b.bitLen))) := by
  fun_induction pushParts b width value with
  | case1 b width value hpos take ih =>
    have hpart := size_pushPart h take value
    have hnext := bitLen_pushPart b take value
    have hsum : take + (width - take) = width := by omega
    rw [ih (by omega), bitAt_pushPart h (by omega), Bool.or_assoc, hnext, Nat.testBit_shiftRight,
      ← stretch_add value.testBit, hsum]
  | case2 b width => rw [decide_eq_false (by omega), Bool.false_and, Bool.or_false]

theorem bitAt_pushDigits (width value i : Nat) :
    bitAt (b.pushDigits width value).bytes i = (bitAt b.bytes i ||
      (decide (b.bitLen ≤ i ∧ i < b.bitLen + width) && value.testBit (i - b.bitLen))) := by
  rw [pushDigits, bitAt_pushParts h]
  by_cases hi : b.bitLen ≤ i ∧ i < b.bitLen + width
  · rw [testBit_lowDigits (by omega)]
  · rw [decide_eq_false hi, Bool.false_and, Bool.false_and]

end Digits

section Appending

variable {b : Buffer} (h : b.Tidy)
include h

theorem adds_pushDigits (width value : Nat) :
    b.Adds (bitsOf width value) (b.pushDigits width value) := by
  have hlen : (b.pushDigits width value).bitLen = b.bitLen + width := bitLen_pushParts ..
  refine ⟨⟨?_, fun i hi ↦ ?_⟩, ?_⟩
  · rw [hlen]
    exact size_pushParts h.size_eq ..
  · rw [hlen] at hi
    rw [bitAt_pushDigits h.size_eq, h.clear i (by omega), decide_eq_false (by omega)]
    rfl
  · rw [bits, hlen, bitsAt_add]
    congr 1
    · apply bitsAt_congr
      intro i hi
      rw [bitAt_pushDigits h.size_eq, decide_eq_false (by omega), Bool.false_and, Bool.or_false]
    · apply List.ext_getElem (by simp [length_bitsOf])
      intro i hx hy
      rw [length_bitsAt] at hx
      rw [getElem_bitsAt, getElem_bitsOf, bitAt_pushDigits h.size_eq, h.clear _ (by omega),
        decide_eq_true (by omega), Bool.false_or, Bool.true_and, Nat.zero_add,
        Nat.add_sub_cancel_left]

theorem adds_push (f : Field) : b.Adds f.bits (b.push f) := adds_pushDigits h f.width f.value

theorem adds_pushBit (bit : Bool) : b.Adds [bit] (b.pushBit bit) := by
  have hbit : (Field.mk 1 bit.toNat).bits = [bit] := by cases bit <;> rfl
  exact hbit ▸ adds_push h ⟨1, bit.toNat⟩

theorem adds_pushAll (fs : List Field) : b.Adds (fs.flatMap Field.bits) (b.pushAll fs) := by
  induction fs generalizing b with
  | nil => exact .refl h
  | cons f fs ih =>
    have hf := adds_push h f
    exact hf.trans (ih hf.tidy)

theorem adds_align32 : b.Adds (padding b.bitLen) b.align32 :=
  adds_push h ⟨(32 - b.bitLen % 32) % 32, 0⟩

theorem align32_aligned : b.align32.bitLen % 32 = 0 := by
  rw [(adds_align32 h).bitLen_eq]
  exact padding_aligned b.bitLen

theorem adds_pushEach (xs : List UInt8) :
    b.Adds (xs.flatMap fun x ↦ bitsOf 8 x.toNat) (xs.foldl pushByte b) := by
  induction xs generalizing b with
  | nil => exact .refl h
  | cons x xs ih =>
    have hx := adds_push h ⟨8, x.toNat⟩
    exact hx.trans (ih hx.tidy)

theorem adds_pushBytes (bytes : ByteArray) : b.Adds (allBits bytes) (b.pushBytes bytes) := by
  rw [pushBytes]
  split
  · rename_i haligned
    have hsize : 8 * b.bytes.size = b.bitLen := by
      have := h.size_eq
      omega
    refine ⟨tidy_of_whole ?_, ?_⟩
    · rw [ByteArray.size_append]
      dsimp only
      omega
    · rw [bits, bitsAt_add]
      refine congrArg₂ List.append ?_ ?_
      · exact bitsAt_congr fun i hi ↦ by
          rw [Nat.zero_add, bitAt_append_left _ (hsize ▸ hi)]
      · exact bitsAt_congr fun i hi ↦ by
          rw [Nat.zero_add, ← hsize, bitAt_append_right, Nat.zero_add]
  · rw [allBits_eq_flatMap, ← Array.foldl_toList]
    exact adds_pushEach h _

theorem adds_pushBlob (bytes : ByteArray) :
    let number := (Vbr.fields Format.blobLengthChunk bytes.size).flatMap Field.bits
    let filled := number ++ padding (b.bitLen + number.length) ++ allBits bytes
    b.Adds (filled ++ padding (b.bitLen + filled.length)) (b.pushBlob bytes) := by
  have h₁ := adds_pushAll h (Vbr.fields Format.blobLengthChunk bytes.size)
  have h₂ := h₁.trans (adds_align32 h₁.tidy)
  have h₃ := h₂.trans (adds_pushBytes h₂.tidy bytes)
  have h₄ := h₃.trans (adds_align32 h₃.tidy)
  rw [h₃.bitLen_eq, h₁.bitLen_eq] at h₄
  exact h₄

end Appending

theorem adds_ofBytes (bytes : ByteArray) :
    (ofBytes .empty).Adds (allBits bytes) (ofBytes bytes) := by
  have h := adds_pushBytes (tidy_ofBytes .empty) bytes
  have hstart : (ofBytes .empty).pushBytes bytes = ofBytes bytes := by
    simp [pushBytes, ofBytes]
  rwa [hstart] at h

section Overwriting

theorem bitAt_wordBytes (word : UInt32) {i : Nat} (hi : i < 32) :
    bitAt (wordBytes word) i = word.toNat.testBit i := by
  obtain ⟨k, j, hj, rfl⟩ : ∃ k j, j < 8 ∧ i = 8 * k + j :=
    ⟨i / 8, i % 8, Nat.mod_lt _ (by decide), by omega⟩
  have hdiv : (8 * k + j) / 8 = k := by omega
  have hmod : (8 * k + j) % 8 = j := by omega
  rw [bitAt_eq_getD, hdiv, hmod]
  have hbyte (n : Nat) : (n % 256).testBit j = n.testBit j := by
    simpa [hj] using Nat.testBit_mod_two_pow n 8 j
  have hk : k = 0 ∨ k = 1 ∨ k = 2 ∨ k = 3 := by omega
  rcases hk with rfl | rfl | rfl | rfl <;> simp [wordBytes, hbyte, Nat.testBit_shiftRight]

variable {b : Buffer} {offset : Nat} (h : offset + 4 ≤ b.bytes.size) (word : UInt32)
include h

theorem size_overwrite : (b.overwrite offset word).bytes.size = b.bytes.size := by
  have hdata : offset + 4 ≤ b.bytes.data.size := h
  change ((wordBytes word).copySlice 0 b.bytes offset 4).data.size = b.bytes.data.size
  simp [ByteArray.copySlice, wordBytes]
  omega

theorem getElem?_overwrite (k : Nat) :
    (b.overwrite offset word).bytes.data[k]? =
      if offset ≤ k ∧ k < offset + 4 then (wordBytes word).data[k - offset]?
      else b.bytes.data[k]? := by
  have hdata : offset + 4 ≤ b.bytes.data.size := h
  change ((wordBytes word).copySlice 0 b.bytes offset 4).data[k]? = _
  have hword : (wordBytes word).data.size = 4 := rfl
  have hfront : min offset b.bytes.data.size - 0 = offset := by omega
  have hmid : min (0 + 4) (wordBytes word).data.size - 0 = 4 := rfl
  simp only [ByteArray.copySlice, Array.getElem?_append, Array.getElem?_extract, Array.size_append,
    Array.size_extract, hfront, hmid]
  rcases Nat.lt_or_ge k offset with hlt | hge
  · rw [if_pos (by omega), if_pos hlt, if_pos hlt, if_neg (by omega), Nat.zero_add]
  rcases Nat.lt_or_ge k (offset + 4) with hin | hout
  · rw [if_pos hin, if_neg (by omega), if_pos (by omega), if_pos ⟨hge, hin⟩, Nat.zero_add]
  · have hback : offset + min 4 ((wordBytes word).data.size - 0) + (k - (offset + 4)) = k := by
      omega
    have hnot : ¬ (offset ≤ k ∧ k < offset + 4) := by omega
    rw [if_neg (Nat.not_lt.mpr hout), if_neg hnot, hback]
    split
    · rfl
    · exact (Array.getElem?_eq_none (by omega)).symm

theorem bitAt_overwrite (i : Nat) :
    bitAt (b.overwrite offset word).bytes i =
      if 8 * offset ≤ i ∧ i < 8 * (offset + 4) then word.toNat.testBit (i - 8 * offset)
      else bitAt b.bytes i := by
  rw [bitAt_eq_getD, getElem?_overwrite h]
  by_cases hi : 8 * offset ≤ i ∧ i < 8 * (offset + 4)
  · have hdiv : i / 8 - offset = (i - 8 * offset) / 8 := by omega
    have hmod : i % 8 = (i - 8 * offset) % 8 := by omega
    rw [if_pos (by omega), if_pos hi, hdiv, hmod, ← bitAt_eq_getD, bitAt_wordBytes word (by omega)]
  · rw [if_neg (by omega), if_neg hi, ← bitAt_eq_getD]

theorem tidy_overwrite (hb : b.Tidy) (hin : 8 * (offset + 4) ≤ b.bitLen) :
    (b.overwrite offset word).Tidy where
  size_eq := (size_overwrite h word).trans hb.size_eq
  clear i hi := by
    have hlen : (b.overwrite offset word).bitLen = b.bitLen := rfl
    rw [hlen] at hi
    rw [bitAt_overwrite h word, if_neg (by omega), hb.clear i hi]

theorem Adds.overwrite {a : Buffer} {xs ys : List Bool} {value : Nat}
    (hadds : a.Adds (xs ++ bitsOf 32 value ++ ys) b) (hoff : 8 * offset = a.bitLen + xs.length) :
    a.Adds (xs ++ bitsOf 32 word.toNat ++ ys) (b.overwrite offset word) := by
  have hlen := hadds.bitLen_eq
  simp only [List.length_append, length_bitsOf] at hlen
  have hsplit (c : Buffer) (hc : c.bitLen = b.bitLen) : c.bits =
      bitsAt c.bytes 0 (8 * offset) ++ bitsAt c.bytes (8 * offset) 32 ++
        bitsAt c.bytes (8 * offset + 32) ys.length := by
    have hsum : c.bitLen = 8 * offset + 32 + ys.length := by omega
    rw [bits, hsum, bitsAt_add, bitsAt_add, Nat.zero_add, Nat.zero_add]
  have hbits := (hsplit b rfl).symm.trans hadds.bits_eq
  rw [← List.append_assoc, ← List.append_assoc] at hbits
  obtain ⟨hbits, hback⟩ := List.append_inj' hbits (by simp)
  obtain ⟨hfront, -⟩ := List.append_inj' hbits (by simp [length_bitsOf])
  refine ⟨tidy_overwrite h word hadds.tidy (by omega), ?_⟩
  rw [hsplit (b.overwrite offset word) rfl, ← List.append_assoc, ← List.append_assoc, ← hfront]
  refine congrArg₂ List.append (congrArg₂ List.append ?_ ?_) ?_
  · apply bitsAt_congr
    intro i hi
    rw [bitAt_overwrite h word, if_neg (by omega)]
  · apply List.ext_getElem (by simp [length_bitsOf])
    intro i hx hy
    rw [length_bitsAt] at hx
    rw [getElem_bitsAt, getElem_bitsOf, bitAt_overwrite h word, if_pos (by omega),
      Nat.add_sub_cancel_left]
  · refine (bitsAt_congr fun i hi ↦ ?_).trans hback
    rw [bitAt_overwrite h word, if_neg (by omega)]

omit h in
theorem word_inside_of_allBits {bytes : ByteArray} {xs ys : List Bool} {value : Nat}
    (hbits : allBits bytes = xs ++ bitsOf 32 value ++ ys) (hoff : 8 * offset = xs.length) :
    offset + 4 ≤ (ofBytes bytes).bytes.size := by
  have hlen := congrArg List.length hbits
  simp only [allBits, length_bitsAt, List.length_append, length_bitsOf] at hlen
  change offset + 4 ≤ bytes.size
  omega

omit h in
theorem allBits_overwrite {bytes : ByteArray} {xs ys : List Bool} {value : Nat}
    (hbits : allBits bytes = xs ++ bitsOf 32 value ++ ys) (hoff : 8 * offset = xs.length) :
    allBits ((ofBytes bytes).overwrite offset word).bytes = xs ++ bitsOf 32 word.toNat ++ ys := by
  have hadds := adds_ofBytes bytes
  rw [hbits] at hadds
  have hin := word_inside_of_allBits hbits hoff
  have hnew := (hadds.overwrite hin word (by rw [hoff]; exact (Nat.zero_add _).symm)).bits_eq
  rw [allBits, size_overwrite hin]
  exact hnew

end Overwriting

section Words

def HasWord (b : Buffer) (offset : Nat) (word : UInt32) : Prop :=
  b.bytes.extract offset (offset + 4) = wordBytes word

theorem Tidy.word_inside {b : Buffer} (h : b.Tidy) {offset : Nat}
    (hin : 8 * (offset + 4) ≤ b.bitLen) : offset + 4 ≤ b.bytes.size := by
  have := h.size_eq
  omega

theorem hasWord_iff {b : Buffer} {offset : Nat} (h : offset + 4 ≤ b.bytes.size) (word : UInt32) :
    b.HasWord offset word ↔ ∀ i < 32, bitAt b.bytes (8 * offset + i) = word.toNat.testBit i := by
  have hbit (i : Nat) (hi : i < 32) :
      bitAt (b.bytes.extract offset (offset + 4)) i = bitAt b.bytes (8 * offset + i) :=
    bitAt_extract h (by omega)
  constructor
  · intro hword i hi
    rw [← hbit i hi, hword, bitAt_wordBytes word hi]
  · intro hbits
    have hsize : (b.bytes.extract offset (offset + 4)).size = 4 := by
      rw [ByteArray.size_extract]
      omega
    apply eq_of_bitAt (hsize.trans rfl)
    intro i hi
    rw [hsize] at hi
    rw [hbit i hi, hbits i hi, bitAt_wordBytes word hi]

theorem Adds.hasWord_iff {b c : Buffer} {xs : List Bool} (hb : b.Tidy) (h : b.Adds xs c)
    {offset : Nat} (hin : 8 * (offset + 4) ≤ b.bitLen) (word : UInt32) :
    c.HasWord offset word ↔ b.HasWord offset word := by
  have hlen := h.bitLen_eq
  rw [Buffer.hasWord_iff (h.tidy.word_inside (by omega)), Buffer.hasWord_iff (hb.word_inside hin)]
  apply forall₂_congr
  intro i hi
  rw [h.bitAt_eq (by omega)]

theorem hasWord_overwrite {b : Buffer} {offset : Nat} (h : offset + 4 ≤ b.bytes.size)
    (word : UInt32) : (b.overwrite offset word).HasWord offset word := by
  rw [hasWord_iff ((size_overwrite h word).symm ▸ h)]
  intro i hi
  rw [bitAt_overwrite h, if_pos (by omega), Nat.add_sub_cancel_left]

theorem hasWord_of_allBits {bytes : ByteArray} {xs ys : List Bool} {word : UInt32} {offset : Nat}
    (hbits : allBits bytes = xs ++ bitsOf 32 word.toNat ++ ys) (hoff : 8 * offset = xs.length) :
    (ofBytes bytes).HasWord offset word := by
  have hword := hasWord_overwrite (word_inside_of_allBits hbits hoff) word
  rwa [HasWord, eq_of_allBits ((allBits_overwrite word hbits hoff).trans hbits.symm)] at hword

theorem Adds.hasWord_zero {b c : Buffer} {xs : List Bool} (h : b.Adds (xs ++ bitsOf 32 0) c)
    {offset : Nat} (hoff : 8 * offset = b.bitLen + xs.length) : c.HasWord offset 0 := by
  have hlen := h.bitLen_eq
  rw [List.length_append, length_bitsOf] at hlen
  rw [Buffer.hasWord_iff (h.tidy.word_inside (by omega))]
  intro i hi
  have hbits := h.bits_eq
  rw [← List.append_assoc] at hbits
  have hget := List.getElem_of_eq hbits (i := 8 * offset + i) (by rw [length_bits]; omega)
  rw [List.getElem_append_right (by simp; omega)] at hget
  simpa [bits, getElem_bitsAt, getElem_bitsOf] using hget

end Words

section Steps

/-- Whether a step leaves alone what has been written. -/
def Step.isAppend : Step → Bool
  | .patch .. => false
  | _ => true

theorem field_eq {b : Buffer} {width : Nat} (hw : width ≤ 64) (value : UInt64) :
    Write.field width value b = .ok () (b.push ⟨width, value.toNat⟩) := by
  rw [Write.field, if_pos hw]
  rfl

theorem vbr_eq {b : Buffer} {width : Nat} (hw : 2 ≤ width ∧ width ≤ 64) (value : UInt64) :
    Write.vbr width value b = .ok () (b.pushAll (Vbr.fields width value.toNat)) := by
  rw [Write.vbr, if_pos hw]
  rfl

/-- All that a step can do to a buffer, whether it ends well or not. -/
inductive Step.Effect (step : Step) (b : Buffer) : Buffer → Prop
  | none : step.Effect b b
  | bit (bit : Bool) : step.Effect b (b.pushBit bit)
  | fields (fs : List Field) : step.Effect b (b.pushAll fs)
  | bytes (bytes : ByteArray) : step.Effect b (b.pushBytes bytes)
  | blob (bytes : ByteArray) : step.Effect b (b.pushBlob bytes)
  | patch {offset : Nat} {word : UInt32} (patches : step = .patch offset word)
      (inside : offset + 4 ≤ b.bytes.size) : step.Effect b (b.overwrite offset word)

theorem effect_run (b : Buffer) (step : Step) : step.Effect b (finalState (step.run b)) := by
  cases step with
  | field width value =>
    simp only [Step.run, finalState_map]
    unfold Write.field
    split
    · exact .fields [⟨width, value.toNat⟩]
    · exact .none
  | bool bit => exact .bit bit
  | byte byte => exact .fields [⟨8, byte.toNat⟩]
  | bytes bytes => exact .bytes bytes
  | vbr | signedVbr =>
    simp only [Step.run, finalState_map, Write.signedVbr]
    unfold Write.vbr
    split
    · exact .fields _
    · exact .none
  | char6 c =>
    simp only [Step.run, finalState_map]
    unfold Write.char6
    cases Char6.encode? c with
    | some code => exact .fields [⟨6, code.val⟩]
    | none => exact .none
  | align32 => exact .fields [_]
  | blob bytes => exact .blob bytes
  | patch offset word =>
    simp only [Step.run, finalState_map]
    unfold Write.patch
    split
    · rename_i hin
      exact .patch rfl hin
    · exact .none
  | byteOffset =>
    simp only [Step.run, finalState_map]
    unfold Write.byteOffset
    split <;> exact .none
  | isAligned32 => exact .none
  | content => exact .none

/-- Every step but a patch adds bits, if it does anything. -/
theorem adds_of_isAppend {b : Buffer} (h : b.Tidy) {step : Step} (hs : step.isAppend = true) :
    ∃ xs, b.Adds xs (finalState (step.run b)) := by
  have heffect := effect_run b step
  generalize finalState (step.run b) = c at heffect ⊢
  cases heffect with
  | none => exact ⟨_, .refl h⟩
  | bit bit => exact ⟨_, adds_pushBit h bit⟩
  | fields fs => exact ⟨_, adds_pushAll h fs⟩
  | bytes bytes => exact ⟨_, adds_pushBytes h bytes⟩
  | blob bytes => exact ⟨_, adds_pushBlob h bytes⟩
  | patch patches =>
    rw [patches] at hs
    cases hs

end Steps

end BlockStream.Buffer
