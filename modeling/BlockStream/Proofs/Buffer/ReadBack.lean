import BlockStream.Cursor.Step
import BlockStream.Proofs.Buffer.Content
import BlockStream.Proofs.Cursor.Leaves

namespace BlockStream

namespace Buffer.Step

/-- Whether a step stores something, within the contract of the operation. The length of a blob is
stored as a word. -/
def Stores : Step → Prop
  | .field width _ => width ≤ 64
  | .vbr width _ | .signedVbr width _ => 2 ≤ width ∧ width ≤ 64
  | .char6 c => c ∈ Char6.alphabet
  | .blob xs => xs.size < 2 ^ 64
  | .bool _ | .byte _ | .bytes _ | .align32 => True
  | .patch .. | .byteOffset | .isAligned32 | .content => False

def readings : Step → List Cursor.Step
  | .field width _ => [.field width]
  | .bool _ => [.bool]
  | .byte _ => [.byte]
  | .bytes xs => xs.data.toList.map fun _ ↦ .byte
  | .vbr width _ => [.vbr width]
  | .signedVbr width _ => [.signedVbr width]
  | .char6 _ => [.char6]
  | .align32 => [.align32]
  | .blob _ => [.blob]
  | .patch .. | .byteOffset | .isAligned32 | .content => []

/-- What the readings yield: the value that was given, or as much of it as the field takes. -/
def stored : Step → List Cursor.Answer
  | .field width value => [.word (value.toNat % 2 ^ width).toUInt64]
  | .bool bit => [.flag bit]
  | .byte x => [.byte x]
  | .bytes xs => xs.data.toList.map .byte
  | .vbr _ value => [.word value]
  | .signedVbr _ value => [.signed value]
  | .char6 c => [.char c]
  | .align32 => [.done]
  | .blob xs => [.bytes xs]
  | .patch .. | .byteOffset | .isAligned32 | .content => []

end Buffer.Step

namespace Buffer

/-- What a buffer holds is what a cursor passes. -/
theorem Adds.takes {b c f : Buffer} {xs ys : List Bool} (h : b.Adds xs c) (k : c.Adds ys f) :
    Cursor.Takes ⟨f.bytes, b.bitLen⟩ xs ⟨f.bytes, c.bitLen⟩ := by
  have hend := h.bitLen_eq
  have hlen := k.bitLen_eq
  have hsize := k.tidy.size_eq
  refine ⟨by rw [hend], ?_, ?_⟩
  · have hbits := (h.trans k).bits_eq
    rw [bits, show f.bitLen = b.bitLen + (xs.length + ys.length) by omega, bitsAt_add,
      Nat.zero_add] at hbits
    obtain ⟨-, hback⟩ := List.append_inj hbits (by simp)
    rw [bitsAt_add] at hback
    exact (List.append_inj hback (by simp)).1
  · simp only [Cursor.bitLen]
    omega

theorem bytes_of_takes (xs : List UInt8) {c d : Cursor}
    (h : c.Takes (xs.flatMap fun x ↦ bitsOf 8 x.toNat) d) :
    (xs.map fun _ ↦ Cursor.Step.byte).mapM Cursor.Step.run c = .ok (xs.map .byte) d := by
  induction xs generalizing c with
  | nil =>
    obtain ⟨rfl, -, -⟩ := h
    rfl
  | cons x xs ih =>
    obtain ⟨e, he, hd⟩ := h.split
    exact mapM_cons_of_ok (map_of_ok (Read.byte_of_takes he)) (ih hd)

/-- A step goes through, and its readings take up the bits it adds. -/
theorem stored_of_takes {step : Step} (h : step.Stores) {b : Buffer} (hb : b.Tidy) :
    ∃ xs c, step.run b = .ok .done c ∧ b.Adds xs c ∧
      ∀ {k d : Cursor}, k.pos = b.bitLen → k.Takes xs d →
        step.readings.mapM Cursor.Step.run k = .ok step.stored d := by
  cases step with
  | field width value =>
    have hw : width ≤ 64 := h
    refine ⟨_, b.push ⟨width, value.toNat⟩, ?_, adds_push hb _, fun _ htake ↦ ?_⟩
    · exact map_of_ok (field_eq hw value)
    · rw [Field.bits, ← bitsOf_mod] at htake
      have hlt := Nat.mod_lt value.toNat (Nat.two_pow_pos width)
      exact mapM_singleton_of_ok (map_of_ok (Read.field_of_takes htake hw hlt))
  | bool bit =>
    exact ⟨_, _, rfl, adds_pushBit hb bit, fun _ htake ↦
      mapM_singleton_of_ok (map_of_ok (Read.bool_of_takes htake))⟩
  | byte x =>
    exact ⟨_, _, rfl, adds_push hb ⟨8, x.toNat⟩, fun _ htake ↦
      mapM_singleton_of_ok (map_of_ok (Read.byte_of_takes htake))⟩
  | bytes bytes =>
    refine ⟨_, _, rfl, adds_pushBytes hb bytes, fun _ htake ↦ ?_⟩
    rw [allBits_eq_flatMap] at htake
    exact bytes_of_takes _ htake
  | vbr width value =>
    have hw : 2 ≤ width ∧ width ≤ 64 := h
    refine ⟨_, _, ?_, adds_pushAll hb (Vbr.fields width value.toNat), fun _ htake ↦ ?_⟩
    · exact map_of_ok (vbr_eq hw value)
    · exact mapM_singleton_of_ok (map_of_ok (Read.vbr_of_fields hw htake))
  | signedVbr width value =>
    have hw : 2 ≤ width ∧ width ≤ 64 := h
    refine ⟨_, _, ?_, adds_pushAll hb (Vbr.fields width (Vbr.fold value).toNat), fun _ htake ↦ ?_⟩
    · exact map_of_ok (vbr_eq hw (Vbr.fold value))
    · exact mapM_singleton_of_ok (map_of_ok (Read.signedVbr_of_fields hw htake))
  | char6 c =>
    obtain ⟨code, hcode⟩ := Char6.exists_encode? h
    refine ⟨_, _, ?_, adds_push hb ⟨6, code.val⟩, fun _ htake ↦ ?_⟩
    · exact map_of_ok (a := ()) (by rw [Write.char6, hcode]; rfl)
    · have hread := Read.char6_of_takes htake
      rw [Char6.decode_of_encode? hcode] at hread
      exact mapM_singleton_of_ok (map_of_ok hread)
  | align32 =>
    refine ⟨_, _, rfl, adds_align32 hb, fun hpos htake ↦ ?_⟩
    have hpad := Wire.isPadding_padding b.bitLen
    exact mapM_singleton_of_ok (map_of_ok (Read.align32_of_takes (hpos ▸ hpad) htake))
  | blob bytes =>
    have hsize : bytes.size < 2 ^ 64 := h
    have hnumber := Wire.isVbr_fields (show 2 ≤ Format.blobLengthChunk by decide) hsize
    refine ⟨_, _, rfl, adds_pushBlob hb bytes, fun hpos htake ↦ ?_⟩
    rw [← hpos] at htake
    exact mapM_singleton_of_ok (map_of_ok (Read.blob_of_takes hsize hnumber
      (Wire.isPadding_padding _) (Wire.isPadding_padding _) htake))
  | patch | byteOffset | isAligned32 | content => exact h.elim

/-- Take steps in turn, and tell where each has left the end of the buffer. -/
def writeAll (steps : List Step) : Write (List Nat) :=
  steps.mapM fun step ↦ do
    let _ ← step.run
    return (← get).bitLen

/-- Take the readings of steps in turn, and tell of each step what its readings have yielded and
where they have left the cursor. -/
def readAll (steps : List Step) : Read (List (List Cursor.Answer × Nat)) :=
  steps.mapM fun step ↦ do
    let answers ← step.readings.mapM Cursor.Step.run
    return (answers, (← get).pos)

theorem readAll_of_writeAll (steps : List Step) (hsteps : ∀ step ∈ steps, step.Stores) {b : Buffer}
    (hb : b.Tidy) :
    ∃ xs ends c, writeAll steps b = .ok ends c ∧ b.Adds xs c ∧
      ∀ {f : Buffer} {ys : List Bool}, c.Adds ys f →
        readAll steps ⟨f.bytes, b.bitLen⟩ =
          .ok ((steps.map Step.stored).zip ends) ⟨f.bytes, c.bitLen⟩ := by
  -- the buffer that is read has been written further on, which the readings do not notice
  induction steps generalizing b with
  | nil => exact ⟨[], [], b, rfl, .refl hb, fun _ ↦ rfl⟩
  | cons step steps ih =>
    obtain ⟨xs, c, hrun, hadds, hread⟩ := stored_of_takes (hsteps step List.mem_cons_self) hb
    obtain ⟨ys, ends, d, hruns, hadds', hreads⟩ :=
      ih (fun s hs ↦ hsteps s (List.mem_cons_of_mem _ hs)) hadds.tidy
    refine ⟨xs ++ ys, c.bitLen :: ends, d, ?_, hadds.trans hadds', fun hlater ↦ ?_⟩
    · exact mapM_cons_of_ok (bind_of_ok hrun) hruns
    · have htake := hadds.takes (hadds'.trans hlater)
      exact mapM_cons_of_ok (bind_of_ok (hread rfl htake)) (hreads hlater)

/-- Steps that store something go through, whatever bytes the buffer has begun with. A reader of all
that the buffer then holds passes those bytes and takes the readings that match the steps: these go
through in turn, yield what was stored, and leave the reader after each step where that step has
left the end of the buffer. -/
theorem readAll_of_stores (existing : ByteArray) (steps : List Step)
    (h : ∀ step ∈ steps, step.Stores) :
    ∃ ends written, writeAll steps (ofBytes existing) = .ok ends written ∧
      (Step.bytes existing).readings.mapM Cursor.Step.run ⟨written.bytes, 0⟩ =
        .ok (Step.bytes existing).stored ⟨written.bytes, 8 * existing.size⟩ ∧
      readAll steps ⟨written.bytes, 8 * existing.size⟩ =
        .ok ((steps.map Step.stored).zip ends) ⟨written.bytes, written.bitLen⟩ := by
  obtain ⟨xs, ends, written, hrun, hadds, hread⟩ :=
    readAll_of_writeAll steps h (tidy_ofBytes existing)
  have hpast := (adds_ofBytes existing).takes hadds
  rw [allBits_eq_flatMap] at hpast
  exact ⟨ends, written, hrun, bytes_of_takes _ hpast, hread (.refl hadds.tidy)⟩

theorem readAll_of_stores_mixed :
    ∃ ends written,
      writeAll [.bool true, .field 3 13, .signedVbr 5 Int64.minValue, .bytes ⟨#[7, 255]⟩,
        .align32, .char6 '_', .blob .empty] (ofBytes ⟨#[1, 2, 3]⟩) = .ok ends written ∧
      readAll [.bool true, .field 3 13, .signedVbr 5 Int64.minValue, .bytes ⟨#[7, 255]⟩,
        .align32, .char6 '_', .blob .empty] ⟨written.bytes, 24⟩ =
        .ok ([[.flag true], [.word 5], [.signed Int64.minValue], [.byte 7, .byte 255], [.done],
          [.char '_'], [.bytes .empty]].zip ends) ⟨written.bytes, written.bitLen⟩ := by
  have hstores : ∀ step ∈ [Step.bool true, .field 3 13, .signedVbr 5 Int64.minValue,
      .bytes ⟨#[7, 255]⟩, .align32, .char6 '_', .blob .empty], step.Stores := by
    have hchar : '_' ∈ Char6.alphabet := by decide
    simp [Step.Stores, hchar]
  obtain ⟨ends, written, hwrite, -, hread⟩ := readAll_of_stores ⟨#[1, 2, 3]⟩ _ hstores
  have hstart : 8 * (⟨#[1, 2, 3]⟩ : ByteArray).size = 24 := rfl
  rw [hstart] at hread
  exact ⟨ends, written, hwrite, by simpa [Step.stored] using hread⟩

/-- Signed numbers and words are folded into each other without loss, the least number and the word
1 among them. In the other direction a magnitude is never the least number, so that its negation is
exact. Hence a signed number is read as it has been written, with whatever is written behind it. -/
theorem signed_read_back :
    (∀ x : Int64, Vbr.unfold (Vbr.fold x) = x) ∧
      (∀ v : UInt64, Vbr.fold (Vbr.unfold v) = v) ∧
      (∀ v : UInt64, Int64.ofNat (v.toNat / 2) ≠ Int64.minValue ∧
        (v.toNat % 2 = 0 → (Vbr.unfold v).toInt = (v.toNat / 2 : Nat)) ∧
        (v.toNat % 2 = 1 → v ≠ 1 → (Vbr.unfold v).toInt = -((v.toNat / 2 : Nat) : Int))) ∧
      ∀ {width : Nat}, 2 ≤ width ∧ width ≤ 64 → ∀ {b : Buffer}, b.Tidy → ∀ x : Int64,
        ∃ bits c, Write.signedVbr width x b = .ok () c ∧ b.Adds bits c ∧
          ∀ {ys : List Bool} {f : Buffer}, c.Adds ys f →
            Read.signedVbr width ⟨f.bytes, b.bitLen⟩ = .ok x ⟨f.bytes, c.bitLen⟩ := by
  refine ⟨Vbr.unfold_fold, Vbr.fold_unfold, ?_, ?_⟩
  · intro v
    exact ⟨Vbr.magnitude_ne_minValue v, Vbr.toInt_unfold_of_even, Vbr.toInt_unfold_of_odd⟩
  · intro width hw b hb x
    have hadds := adds_pushAll hb (Vbr.fields width (Vbr.fold x).toNat)
    refine ⟨_, _, vbr_eq hw (Vbr.fold x), hadds, ?_⟩
    intro ys f hlater
    exact Read.signedVbr_of_fields hw (hadds.takes hlater)

theorem signed_read_back_least :
    Tidy ⟨⟨#[5]⟩, 3⟩ ∧ ∃ bits c, Write.signedVbr 2 Int64.minValue ⟨⟨#[5]⟩, 3⟩ = .ok () c ∧
      Adds ⟨⟨#[5]⟩, 3⟩ bits c ∧
      Read.signedVbr 2 ⟨c.bytes, 3⟩ = .ok Int64.minValue ⟨c.bytes, c.bitLen⟩ := by
  have htidy : Tidy ⟨⟨#[5]⟩, 3⟩ := (adds_push (tidy_ofBytes .empty) ⟨3, 5⟩).tidy
  obtain ⟨-, -, -, hback⟩ := signed_read_back
  obtain ⟨bits, c, hwrite, hadds, hread⟩ :=
    hback (show 2 ≤ 2 ∧ 2 ≤ 64 by decide) htidy Int64.minValue
  exact ⟨htidy, bits, c, hwrite, hadds, hread (.refl hadds.tidy)⟩

end Buffer

end BlockStream
