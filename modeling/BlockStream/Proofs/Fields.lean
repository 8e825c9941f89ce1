import BlockStream.Proofs.Buffer.ReadBack
import BlockStream.Proofs.Buffer.Sized

namespace BlockStream

/-- The lowest digits of a word. -/
def lowPart (count : Nat) (word : UInt64) : UInt64 := (word.toNat % 2 ^ count).toUInt64

def highPart (count : Nat) (word : UInt64) : UInt64 := (word.toNat / 2 ^ count).toUInt64

theorem toNat_lowPart (count : Nat) (word : UInt64) :
    (lowPart count word).toNat = word.toNat % 2 ^ count :=
  Read.toNat_toUInt64 (Nat.lt_of_le_of_lt (Nat.mod_le ..) word.toNat_lt)

theorem toNat_highPart (count : Nat) (word : UInt64) :
    (highPart count word).toNat = word.toNat / 2 ^ count :=
  Read.toNat_toUInt64 (Nat.lt_of_le_of_lt (Nat.div_le_self ..) word.toNat_lt)

namespace Buffer

theorem push_add {b : Buffer} (h : b.Sized) (low high : Nat) (word : UInt64) :
    b.push ⟨low + high, word.toNat⟩ =
      (b.push ⟨low, (lowPart low word).toNat⟩).push ⟨high, (highPart low word).toNat⟩ := by
  have hlow := (grows_push b ⟨low, (lowPart low word).toNat⟩).sized h
  have hmid := bitLen_push b ⟨low, (lowPart low word).toNat⟩
  dsimp only at hmid
  refine Sized.eq_of_bitAt ((grows_push _ _).sized h) ((grows_push _ _).sized hlow) ?_ fun i ↦ ?_
  · simp only [bitLen_push, Nat.add_assoc]
  have hin : ((b.bitLen ≤ i ∧ i < b.bitLen + low) ∧ i - b.bitLen < low) ↔
      (b.bitLen ≤ i ∧ i < b.bitLen + low) := by omega
  rw [push, push, bitAt_pushDigits h, bitAt_pushDigits hlow, hmid, push, bitAt_pushDigits h,
    Bool.or_assoc, toNat_lowPart, toNat_highPart, Nat.testBit_mod_two_pow, Nat.testBit_div_two_pow]
  dsimp only
  rw [stretch_add word.toNat.testBit, ← Bool.and_assoc, ← Bool.decide_and, decide_eq_decide.mpr hin,
    Nat.add_comm low]

theorem field_writes {b : Buffer} (h : b.Tidy) {width : Nat} (hw : width ≤ 64) (value : UInt64) :
    ∃ c, Write.field width value b = .ok () c ∧ c.Tidy ∧ c.bitLen = b.bitLen + width ∧
      (∀ i < b.bitLen, bitAt c.bytes i = bitAt b.bytes i) ∧
      ∀ j < width, bitAt c.bytes (b.bitLen + j) = value.toNat.testBit j := by
  have hadds := adds_push h ⟨width, value.toNat⟩
  refine ⟨_, field_eq hw value, hadds.tidy, bitLen_push .., fun i hi ↦ hadds.bitAt_eq hi, ?_⟩
  intro j hj
  have hdigit := bitAt_pushDigits h.size_eq width value.toNat (b.bitLen + j)
  rwa [h.clear _ (Nat.le_add_right ..), decide_eq_true (by omega), Nat.add_sub_cancel_left,
    Bool.false_or, Bool.true_and] at hdigit

theorem field_add {b : Buffer} (h : b.Sized) {low high : Nat} (hw : low + high ≤ 64)
    (value : UInt64) :
    Write.field (low + high) value b =
      (do Write.field low (lowPart low value); Write.field high (highPart low value)) b := by
  have hlow := field_eq (b := b) (show low ≤ 64 by omega) (lowPart low value)
  refine Eq.trans ?_ (bind_of_ok hlow).symm
  rw [field_eq hw, field_eq (by omega), push_add h]

/-- A number that the width has room for is read back from where it was written. -/
theorem field_read_back {b : Buffer} (hb : b.Tidy) {width : Nat} (hw : width ≤ 64) {value : UInt64}
    (hv : value.toNat < 2 ^ width) :
    ∃ c, Write.field width value b = .ok () c ∧
      Read.field width ⟨c.bytes, b.bitLen⟩ = .ok value ⟨c.bytes, c.bitLen⟩ := by
  have hadds := adds_push hb ⟨width, value.toNat⟩
  have hread := Read.field_of_takes (hadds.takes (.refl hadds.tidy)) hw hv
  rw [Read.toUInt64_toNat] at hread
  exact ⟨_, field_eq hw value, hread⟩

end Buffer

namespace Read

section Room

variable {c : Cursor}

theorem field_of_room {width : Nat} (hw : width ≤ 64) (hin : c.pos + width ≤ c.bitLen) :
    field width c =
      .ok (fieldAt c.bytes c.pos width).toUInt64 { c with pos := c.pos + width } := by
  rw [field_eq, if_neg (Nat.not_lt.mpr hw), if_pos hin]

theorem field_reads {width : Nat} (hw : width ≤ 64) (hin : c.pos + width ≤ c.bitLen) :
    ∃ v, field width c = .ok v { c with pos := c.pos + width } ∧
      ∀ j, v.toNat.testBit j = (decide (j < width) && bitAt c.bytes (c.pos + j)) := by
  refine ⟨_, field_of_room hw hin, fun j ↦ ?_⟩
  rw [toNat_fieldAt _ _ hw, testBit_fieldAt]

theorem field_add {low high : Nat} (hw : low + high ≤ 64)
    (hin : c.pos + (low + high) ≤ c.bitLen) :
    ∃ v, field (low + high) c = .ok v { c with pos := c.pos + (low + high) } ∧
      field low c = .ok (lowPart low v) { c with pos := c.pos + low } ∧
      field high { c with pos := c.pos + low } =
        .ok (highPart low v) { c with pos := c.pos + (low + high) } := by
  have hlow := field_of_room (c := c) (show low ≤ 64 by omega) (by omega)
  have hhigh := field_of_room (c := { c with pos := c.pos + low }) (show high ≤ 64 by omega)
    (by rwa [← Nat.add_assoc] at hin)
  refine ⟨_, field_of_room hw hin, ?_, ?_⟩
  · rw [lowPart, toNat_fieldAt _ _ hw, fieldAt_mod, hlow]
  · rw [highPart, toNat_fieldAt _ _ hw, fieldAt_div, hhigh, Nat.add_assoc]

end Room

end Read

/-- A field that is written leaves the bits of a tidy buffer as they are, adds its digits behind
them and nothing else, and leaves the buffer tidy. A field that is read is the number whose digits
are the bits from the cursor on, with none above, and moves the cursor by its width. A field gives
the same at once as in two parts, the low one first. -/
theorem field_bitwise :
    (∀ {b : Buffer}, b.Tidy → ∀ {width : Nat}, width ≤ 64 → ∀ value : UInt64,
      ∃ c, Write.field width value b = .ok () c ∧ c.Tidy ∧ c.bitLen = b.bitLen + width ∧
        (∀ i < b.bitLen, bitAt c.bytes i = bitAt b.bytes i) ∧
        ∀ j < width, bitAt c.bytes (b.bitLen + j) = value.toNat.testBit j) ∧
    (∀ {c : Cursor} {width : Nat}, width ≤ 64 → c.pos + width ≤ c.bitLen →
      ∃ v, Read.field width c = .ok v { c with pos := c.pos + width } ∧
        ∀ j, v.toNat.testBit j = (decide (j < width) && bitAt c.bytes (c.pos + j))) ∧
    ∀ {low high : Nat}, low + high ≤ 64 →
      (∀ {b : Buffer}, b.Sized → ∀ value : UInt64, Write.field (low + high) value b =
        (do Write.field low (lowPart low value); Write.field high (highPart low value)) b) ∧
      ∀ {c : Cursor}, c.pos + (low + high) ≤ c.bitLen →
        ∃ v, Read.field (low + high) c = .ok v { c with pos := c.pos + (low + high) } ∧
          Read.field low c = .ok (lowPart low v) { c with pos := c.pos + low } ∧
          Read.field high { c with pos := c.pos + low } =
            .ok (highPart low v) { c with pos := c.pos + (low + high) } := by
  refine ⟨Buffer.field_writes, Read.field_reads, fun hw ↦ ⟨?_, ?_⟩⟩
  · intro b hb value
    exact Buffer.field_add hb hw value
  · intro c hin
    exact Read.field_add hw hin

theorem field_bitwise_across :
    (∃ c, Write.field 64 0x8000000000000005 ⟨⟨#[0xff, 0x07]⟩, 11⟩ = .ok () c ∧ c.Tidy ∧
      c.bitLen = 75 ∧ bitAt c.bytes 10 = true ∧ bitAt c.bytes 12 = false ∧
      bitAt c.bytes 74 = true) ∧
    (∃ v, Read.field 9 ⟨⟨#[0x5a, 0xc3]⟩, 5⟩ = .ok v ⟨⟨#[0x5a, 0xc3]⟩, 14⟩ ∧
      v.toNat.testBit 1 = true ∧ v.toNat.testBit 9 = false) ∧
    Write.field (7 + 13) 0xabcde ⟨⟨#[0xff, 0x07]⟩, 11⟩ =
      (do Write.field 7 (lowPart 7 0xabcde); Write.field 13 (highPart 7 0xabcde))
        ⟨⟨#[0xff, 0x07]⟩, 11⟩ ∧
    ∃ v, Read.field (2 + 7) ⟨⟨#[0x5a, 0xc3]⟩, 5⟩ = .ok v ⟨⟨#[0x5a, 0xc3]⟩, 14⟩ ∧
      Read.field 2 ⟨⟨#[0x5a, 0xc3]⟩, 5⟩ = .ok (lowPart 2 v) ⟨⟨#[0x5a, 0xc3]⟩, 7⟩ ∧
      Read.field 7 ⟨⟨#[0x5a, 0xc3]⟩, 7⟩ = .ok (highPart 2 v) ⟨⟨#[0x5a, 0xc3]⟩, 14⟩ := by
  have htidy : Buffer.Tidy ⟨⟨#[0xff, 0x07]⟩, 11⟩ :=
    (Buffer.adds_push (Buffer.tidy_ofBytes ⟨#[0xff]⟩) ⟨3, 7⟩).tidy
  obtain ⟨hwrites, hreads, hparts⟩ := field_bitwise
  obtain ⟨c, hc, hafter, hlen, hfront, hdigits⟩ :=
    hwrites htidy (show 64 ≤ 64 by decide) 0x8000000000000005
  obtain ⟨v, hv, hbits⟩ :=
    hreads (c := ⟨⟨#[0x5a, 0xc3]⟩, 5⟩) (show 9 ≤ 64 by decide) (by decide)
  refine ⟨⟨c, hc, hafter, hlen, ?_, ?_, ?_⟩, ⟨v, hv, ?_, ?_⟩, ?_, ?_⟩
  · exact hfront 10 (by decide)
  · exact hdigits 1 (by decide)
  · exact hdigits 63 (by decide)
  · exact hbits 1
  · exact hbits 9
  · exact (hparts (by decide)).1 htidy.sized 0xabcde
  · exact (hparts (by decide)).2 (c := ⟨⟨#[0x5a, 0xc3]⟩, 5⟩) (by decide)

end BlockStream
