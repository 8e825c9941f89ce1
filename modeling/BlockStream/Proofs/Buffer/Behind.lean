import BlockStream.Proofs.Buffer.Sized

namespace BlockStream

def Violation.moved (bytes : Nat) : Violation → Violation
  | .unalignedOffset bit => .unalignedOffset (8 * bytes + bit)
  | .patchRange offset length => .patchRange (bytes + offset) (bytes + length)
  | .negative minuend subtrahend => .negative (bytes + minuend) (bytes + subtrahend)
  | v => v

def Fault.moved (bytes : Nat) : Fault EncodeError → Fault EncodeError
  | .error e => .error e
  | .violation v => .violation (v.moved bytes)

/-- How a computation ends behind other bytes. -/
def resultMoved {σ α β : Type} (bytes : Nat) (state : σ → σ) (value : α → β) :
    EStateM.Result (Fault EncodeError) σ α → EStateM.Result (Fault EncodeError) σ β
  | .ok a s => .ok (value a) (state s)
  | .error e s => .error (e.moved bytes) (state s)

theorem map_moved {σ α β γ δ : Type} {bytes : Nat} {state : σ → σ} {s t : σ}
    {x : EStateM (Fault EncodeError) σ α} {y : EStateM (Fault EncodeError) σ β} {f : α → γ}
    {g : β → δ} {v : α → β} {w : γ → δ} (h : y t = resultMoved bytes state v (x s))
    (k : ∀ a, g (v a) = w (f a)) :
    (g <$> y) t = resultMoved bytes state w ((f <$> x) s) := by
  cases hx : x s with
  | ok a u =>
    rw [hx] at h
    rw [map_of_ok h, map_of_ok hx, resultMoved, k]
  | error e u =>
    rw [hx] at h
    rw [map_of_error h, map_of_error hx, resultMoved]

theorem modify_moved {σ : Type} {bytes : Nat} {state f g : σ → σ} {s t : σ}
    (h : g t = state (f s)) :
    (modify g : EStateM (Fault EncodeError) σ Unit) t =
      resultMoved bytes state id ((modify f : EStateM (Fault EncodeError) σ Unit) s) :=
  congrArg (EStateM.Result.ok ()) h

namespace Buffer

/-- The buffer with other bytes put in front of its own. -/
def behind (front : ByteArray) (b : Buffer) : Buffer :=
  ⟨front ++ b.bytes, 8 * front.size + b.bitLen⟩

/-- The step with the place of a patch moved by so many bytes. -/
def Step.moved (bytes : Nat) : Step → Step
  | .patch offset word => .patch (bytes + offset) word
  | step => step

def Answer.behind (front : ByteArray) : Answer → Answer
  | .number n => .number (front.size + n)
  | .bytes content => .bytes (front ++ content)
  | answer => answer

section Pushing

variable {front : ByteArray} {b : Buffer}

theorem setInLast_append {bytes : ByteArray} (h : 0 < bytes.size) (mask : UInt8) :
    setInLast (front ++ bytes) mask = front ++ setInLast bytes mask := by
  refine eq_of_bitAt (by simp [size_setInLast]) fun i hi ↦ ?_
  rw [bitAt_setInLast (by rw [ByteArray.size_append]; omega), ByteArray.size_append]
  rcases Nat.lt_or_ge i (8 * front.size) with hlt | hge
  · have hne : ¬ i / 8 = front.size + bytes.size - 1 := by omega
    simp only [bitAt_append_left _ hlt, hne, decide_false, Bool.false_and, Bool.or_false]
  · obtain ⟨j, rfl⟩ := Nat.exists_eq_add_of_le hge
    have hmod : (8 * front.size + j) % 8 = j % 8 := by omega
    have hlast : (8 * front.size + j) / 8 = front.size + bytes.size - 1 ↔
        j / 8 = bytes.size - 1 := by omega
    simp only [bitAt_append_right, bitAt_setInLast h, hmod, hlast]

theorem pushPart_behind (h : b.Sized) (take value : Nat) :
    (b.behind front).pushPart take value = (b.pushPart take value).behind front := by
  have hmod : (8 * front.size + b.bitLen) % 8 = b.bitLen % 8 := by omega
  have hpush : (front ++ b.bytes).push 0 = front ++ b.bytes.push 0 := by
    apply ByteArray.ext
    simp
  simp only [behind, pushPart, hmod]
  split
  · rw [hpush, setInLast_append (by simp), Nat.add_assoc]
  · rename_i hoffset
    have hpos : 0 < b.bytes.size := by
      rw [h]
      omega
    rw [setInLast_append hpos, Nat.add_assoc]

theorem pushParts_behind (h : b.Sized) (width value : Nat) :
    (b.behind front).pushParts width value = (b.pushParts width value).behind front := by
  -- whole bytes in front leave each round as much room in the last byte as before
  fun_induction pushParts b width value with
  | case1 b width value hpos take ih =>
    have hmod : (8 * front.size + b.bitLen) % 8 = b.bitLen % 8 := by omega
    have htake : min width (8 - (b.behind front).bitLen % 8) = take := by rw [behind, hmod]
    have hpart : (b.pushPart take value).Sized := by
      rw [Sized, size_pushPart h, bitLen_pushPart]
      omega
    rw [pushParts, if_pos hpos, htake]
    dsimp only
    rw [pushPart_behind h]
    exact ih hpart
  | case2 => rw [pushParts, if_neg ‹_›]

theorem pushDigits_behind (h : b.Sized) (width value : Nat) :
    (b.behind front).pushDigits width value = (b.pushDigits width value).behind front :=
  pushParts_behind h width (lowDigits width value)

theorem push_behind (h : b.Sized) (f : Field) :
    (b.behind front).push f = (b.push f).behind front := pushDigits_behind h f.width f.value

theorem pushBit_behind (h : b.Sized) (bit : Bool) :
    (b.behind front).pushBit bit = (b.pushBit bit).behind front := push_behind h ⟨1, bit.toNat⟩

theorem foldl_behind {α : Type} {f : Buffer → α → Buffer} (hf : ∀ (b : Buffer) a, b.Grows (f b a))
    (hbehind : ∀ {b : Buffer}, b.Sized → ∀ a, f (b.behind front) a = (f b a).behind front)
    (h : b.Sized) (xs : List α) : xs.foldl f (b.behind front) = (xs.foldl f b).behind front := by
  induction xs generalizing b with
  | nil => rfl
  | cons x xs ih =>
    rw [List.foldl_cons, hbehind h]
    exact ih ((hf b x).sized h)

theorem pushAll_behind (h : b.Sized) (fs : List Field) :
    (b.behind front).pushAll fs = (b.pushAll fs).behind front :=
  foldl_behind grows_push push_behind h fs

theorem pushBytes_behind (h : b.Sized) (bytes : ByteArray) :
    (b.behind front).pushBytes bytes = (b.pushBytes bytes).behind front := by
  have hmod : (8 * front.size + b.bitLen) % 8 = b.bitLen % 8 := by omega
  unfold pushBytes
  rw [behind, hmod]
  split
  · simp [behind, ByteArray.append_assoc, Nat.add_assoc]
  · rw [← Array.foldl_toList, ← Array.foldl_toList]
    exact foldl_behind (f := pushByte) (fun b _ ↦ grows_push b _) (fun hb _ ↦ push_behind hb _) h _

theorem overwrite_behind {offset : Nat} (h : offset + 4 ≤ b.bytes.size) (word : UInt32) :
    (b.behind front).overwrite (front.size + offset) word =
      (b.overwrite offset word).behind front := by
  have hsize : (b.behind front).bytes.size = front.size + b.bytes.size := ByteArray.size_append
  have hin : front.size + offset + 4 ≤ (b.behind front).bytes.size := by omega
  have hbytes : ((b.behind front).overwrite (front.size + offset) word).bytes =
      front ++ (b.overwrite offset word).bytes := by
    have hnew := size_overwrite hin word
    refine eq_of_bitAt ?_ fun i _ ↦ ?_
    · rw [hnew, hsize, ByteArray.size_append, size_overwrite h]
    rw [bitAt_overwrite hin]
    rcases Nat.lt_or_ge i (8 * front.size) with hlt | hge
    · rw [if_neg (by omega), bitAt_append_left _ hlt]
      exact bitAt_append_left _ hlt
    · obtain ⟨j, rfl⟩ := Nat.exists_eq_add_of_le hge
      have hbit : bitAt (b.behind front).bytes (8 * front.size + j) = bitAt b.bytes j :=
        bitAt_append_right ..
      have hsub : 8 * front.size + j - 8 * (front.size + offset) = j - 8 * offset := by omega
      have hiff : 8 * (front.size + offset) ≤ 8 * front.size + j ∧
          8 * front.size + j < 8 * (front.size + offset + 4) ↔
            8 * offset ≤ j ∧ j < 8 * (offset + 4) := by omega
      simp only [bitAt_append_right, bitAt_overwrite h, hbit, hsub, hiff]
  exact congrArg (Buffer.mk · _) hbytes

end Pushing

section Words

variable {front : ByteArray} (hfront : front.size % 4 = 0) {b : Buffer} (h : b.Sized)
include hfront

omit h in
theorem isAligned32_behind : (b.behind front).isAligned32 = b.isAligned32 := by
  have hmod : (8 * front.size + b.bitLen) % 32 = b.bitLen % 32 := by omega
  simp only [isAligned32, behind, hmod]

include h

theorem align32_behind : (b.behind front).align32 = b.align32.behind front := by
  have hmod : (8 * front.size + b.bitLen) % 32 = b.bitLen % 32 := by omega
  rw [align32, align32, ← push_behind h]
  simp only [behind, hmod]

theorem pushBlob_behind (bytes : ByteArray) :
    (b.behind front).pushBlob bytes = (b.pushBlob bytes).behind front := by
  have h₁ := grows_pushAll b (Vbr.fields Format.blobLengthChunk bytes.size)
  have h₂ := h₁.trans (grows_align32 _)
  have h₃ := h₂.trans (grows_pushBytes _ bytes)
  rw [pushBlob, pushAll_behind h, align32_behind hfront (h₁.sized h),
    pushBytes_behind (h₂.sized h), align32_behind hfront (h₃.sized h), pushBlob]

end Words

section Operations

variable {front : ByteArray} {b : Buffer} (h : b.Sized)

theorem byteOffset_behind :
    Write.byteOffset (b.behind front) =
      resultMoved front.size (behind front) (front.size + ·) (Write.byteOffset b) := by
  have hmod : (b.behind front).bitLen % 8 = b.bitLen % 8 := Nat.mul_add_mod ..
  unfold Write.byteOffset
  rw [hmod]
  split
  · have hdiv : (b.behind front).bitLen / 8 = front.size + b.bitLen / 8 :=
      Nat.mul_add_div (by decide) ..
    rw [hdiv]
    rfl
  · rfl

theorem patch_behind (offset : Nat) (word : UInt32) :
    Write.patch (front.size + offset) word (b.behind front) =
      resultMoved front.size (behind front) id (Write.patch offset word b) := by
  have hsize : (b.behind front).bytes.size = front.size + b.bytes.size := ByteArray.size_append
  unfold Write.patch
  by_cases hin : offset + 4 ≤ b.bytes.size
  · rw [if_pos hin, if_pos (by omega), overwrite_behind hin]
    rfl
  · rw [if_neg hin, if_neg (by omega), hsize]
    rfl

include h

theorem vbr_behind (width : Nat) (value : UInt64) :
    Write.vbr width value (b.behind front) =
      resultMoved front.size (behind front) id (Write.vbr width value b) := by
  unfold Write.vbr
  split
  · exact modify_moved (pushAll_behind h _)
  · rfl

/-- Every step does the same behind whole words as without them. -/
theorem run_behind (hfront : front.size % 4 = 0) (step : Step) :
    (step.moved front.size).run (b.behind front) =
      resultMoved front.size (behind front) (Answer.behind front) (step.run b) := by
  cases step with
  | field width value =>
    refine map_moved (v := id) ?_ fun _ ↦ rfl
    unfold Write.field
    split
    · exact modify_moved (push_behind h _)
    · rfl
  | bool bit => exact map_moved (modify_moved (pushBit_behind h bit)) fun _ ↦ rfl
  | byte byte => exact map_moved (modify_moved (push_behind h _)) fun _ ↦ rfl
  | bytes bytes => exact map_moved (modify_moved (pushBytes_behind h bytes)) fun _ ↦ rfl
  | vbr width value => exact map_moved (vbr_behind h width value) fun _ ↦ rfl
  | signedVbr width value => exact map_moved (vbr_behind h width _) fun _ ↦ rfl
  | char6 c =>
    refine map_moved (v := id) ?_ fun _ ↦ rfl
    unfold Write.char6
    cases Char6.encode? c with
    | some code => exact modify_moved (push_behind h _)
    | none => rfl
  | align32 => exact map_moved (modify_moved (align32_behind hfront h)) fun _ ↦ rfl
  | blob bytes => exact map_moved (modify_moved (pushBlob_behind hfront h bytes)) fun _ ↦ rfl
  | patch offset word => exact map_moved (patch_behind offset word) fun _ ↦ rfl
  | byteOffset => exact map_moved byteOffset_behind fun _ ↦ rfl
  | isAligned32 =>
    exact congrArg (fun holds ↦ EStateM.Result.ok (Answer.flag holds) (b.behind front))
      (isAligned32_behind hfront)
  | content => rfl

end Operations

end Buffer

end BlockStream
