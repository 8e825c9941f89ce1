import BlockStream.Proofs.Buffer.Content

namespace BlockStream.Buffer

section Length

variable (b : Buffer)

theorem bitLen_pushDigits (width value : Nat) :
    (b.pushDigits width value).bitLen = b.bitLen + width := bitLen_pushParts ..

theorem bitLen_push (f : Field) : (b.push f).bitLen = b.bitLen + f.width :=
  bitLen_pushDigits b f.width f.value

theorem bitLen_pushAll (fs : List Field) :
    (b.pushAll fs).bitLen = b.bitLen + (fs.flatMap Field.bits).length := by
  induction fs generalizing b with
  | nil => rfl
  | cons f fs ih =>
    rw [List.flatMap_cons, List.length_append, Field.bits, length_bitsOf, ← Nat.add_assoc,
      ← bitLen_push]
    exact ih (b.push f)

theorem bitLen_align32 : b.align32.bitLen = b.bitLen + (32 - b.bitLen % 32) % 32 := bitLen_push b _

theorem bitLen_align32_mod : b.align32.bitLen % 32 = 0 := by
  rw [bitLen_align32]
  omega

end Length

/-- The bytes reach just as far as the bits. -/
def Sized (b : Buffer) : Prop := b.bytes.size = (b.bitLen + 7) / 8

theorem Tidy.sized {b : Buffer} (h : b.Tidy) : b.Sized := h.size_eq

theorem Sized.word_inside {b : Buffer} (h : b.Sized) {offset : Nat}
    (hin : 8 * (offset + 4) ≤ b.bitLen) : offset + 4 ≤ b.bytes.size := by
  rw [h]
  omega

theorem Sized.eq_of_bitAt {b c : Buffer} (hb : b.Sized) (hc : c.Sized) (hlen : b.bitLen = c.bitLen)
    (h : ∀ i, bitAt b.bytes i = bitAt c.bytes i) : b = c := by
  have hsize : b.bytes.size = c.bytes.size := by rw [hb, hc, hlen]
  have hbytes : b.bytes = c.bytes := BlockStream.eq_of_bitAt hsize fun i _ ↦ h i
  obtain ⟨bytes, bitLen⟩ := b
  cases hbytes
  cases hlen
  rfl

/-- What every operation does to a buffer: it keeps the size in step with the length, and takes no
bits away. -/
structure Grows (b c : Buffer) : Prop where
  sized : b.Sized → c.Sized
  bitLen_le : b.bitLen ≤ c.bitLen

namespace Grows

variable {b c d : Buffer}

theorem refl (b : Buffer) : b.Grows b := ⟨fun h ↦ h, Nat.le_refl _⟩

theorem trans (h : b.Grows c) (k : c.Grows d) : b.Grows d :=
  ⟨fun hb ↦ k.sized (h.sized hb), Nat.le_trans h.bitLen_le k.bitLen_le⟩

end Grows

section Operations

variable (b : Buffer)

theorem grows_pushDigits (width value : Nat) : b.Grows (b.pushDigits width value) := by
  have hlen := bitLen_pushDigits b width value
  refine ⟨fun h ↦ ?_, by omega⟩
  rw [Sized, hlen]
  exact size_pushParts h ..

theorem grows_push (f : Field) : b.Grows (b.push f) := grows_pushDigits b f.width f.value

theorem grows_pushBit (bit : Bool) : b.Grows (b.pushBit bit) := grows_push b ⟨1, bit.toNat⟩

theorem grows_foldl {α : Type} {f : Buffer → α → Buffer} (hf : ∀ (b : Buffer) a, b.Grows (f b a))
    (xs : List α) : b.Grows (xs.foldl f b) := by
  induction xs generalizing b with
  | nil => exact .refl b
  | cons x xs ih => exact (hf b x).trans (ih _)

theorem grows_pushAll (fs : List Field) : b.Grows (b.pushAll fs) := grows_foldl b grows_push fs

theorem grows_align32 : b.Grows b.align32 := grows_push b _

theorem grows_pushBytes (bytes : ByteArray) : b.Grows (b.pushBytes bytes) := by
  rw [pushBytes]
  split
  · refine ⟨?_, Nat.le_add_right ..⟩
    intro h
    rw [Sized] at h ⊢
    rw [ByteArray.size_append, h]
    dsimp only
    omega
  · rw [← Array.foldl_toList]
    exact grows_foldl b (fun b byte ↦ grows_push b _) _

theorem grows_pushBlob (bytes : ByteArray) : b.Grows (b.pushBlob bytes) :=
  (((grows_pushAll b _).trans (grows_align32 _)).trans (grows_pushBytes _ bytes)).trans
    (grows_align32 _)

theorem grows_overwrite {offset : Nat} (h : offset + 4 ≤ b.bytes.size) (word : UInt32) :
    b.Grows (b.overwrite offset word) := by
  refine ⟨?_, Nat.le_refl _⟩
  intro hb
  exact (size_overwrite h word).trans hb

theorem grows_run (step : Step) : b.Grows (finalState (step.run b)) := by
  have heffect := effect_run b step
  generalize finalState (step.run b) = c at heffect ⊢
  cases heffect with
  | none => exact .refl b
  | bit bit => exact grows_pushBit b bit
  | fields fs => exact grows_pushAll b fs
  | bytes bytes => exact grows_pushBytes b bytes
  | blob bytes => exact grows_pushBlob b bytes
  | patch _ inside => exact grows_overwrite b inside _

end Operations

end BlockStream.Buffer
