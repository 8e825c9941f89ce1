import BlockStream.Proofs.Buffer.Sized

namespace BlockStream.Buffer

namespace Step

/-- What the contract of a step asks of its arguments and of the buffer. -/
def InContract (b : Buffer) : Step → Prop
  | .field width _ => width ≤ 64
  | .vbr width _ | .signedVbr width _ => 2 ≤ width ∧ width ≤ 64
  | .patch offset _ => offset + 4 ≤ b.bytes.size
  | .byteOffset => b.bitLen % 8 = 0
  | .bool _ | .byte _ | .bytes _ | .char6 _ | .align32 | .blob _ | .isAligned32 | .content => True

instance decidableInContract (b : Buffer) : (step : Step) → Decidable (step.InContract b)
  | .field width _ => inferInstanceAs (Decidable (width ≤ 64))
  | .vbr width _ | .signedVbr width _ => inferInstanceAs (Decidable (2 ≤ width ∧ width ≤ 64))
  | .patch offset _ => inferInstanceAs (Decidable (offset + 4 ≤ b.bytes.size))
  | .byteOffset => inferInstanceAs (Decidable (b.bitLen % 8 = 0))
  | .bool _ | .byte _ | .bytes _ | .char6 _ | .align32 | .blob _ | .isAligned32 | .content =>
    inferInstanceAs (Decidable True)

/-- Whether a step sets no bit that is not written yet without writing it. -/
def Clean (b : Buffer) : Step → Prop
  | .patch offset word =>
    ∀ i < 32, b.bitLen ≤ 8 * offset + i → word.toNat.testBit i = false
  | _ => True

theorem clean_of_isAppend {step : Step} (h : step.isAppend = true) (b : Buffer) :
    step.Clean b := by
  cases step with
  | patch offset word => cases h
  | _ => trivial

theorem clean_patch {b : Buffer} {offset : Nat} (h : 8 * (offset + 4) ≤ b.bitLen) (word : UInt32) :
    (patch offset word).Clean b := by
  intro i hi hout
  omega

end Step

/-- The buffers that steps lead to from a byte string, each step one that `admits` takes where it
stands. -/
inductive Reached (admits : Buffer → Step → Prop) (existing : ByteArray) : Buffer → Prop
  | start : Reached admits existing (ofBytes existing)
  | step {b : Buffer} : Reached admits existing b → (step : Step) → admits b step →
      Reached admits existing (finalState (step.run b))

theorem Reached.sized {admits : Buffer → Step → Prop} {existing : ByteArray} {b : Buffer}
    (h : Reached admits existing b) : b.Sized := by
  induction h with
  | start => exact (tidy_ofBytes existing).sized
  | @step b _ step _ ih => exact (grows_run b step).sized ih

section Keeping

variable {b : Buffer} (h : b.Tidy)
include h

theorem tidy_patch_iff {offset : Nat} (hin : offset + 4 ≤ b.bytes.size) (word : UInt32) :
    (b.overwrite offset word).Tidy ↔ (Step.patch offset word).Clean b := by
  constructor
  · intro hafter i hi hout
    have hbit := hafter.clear (8 * offset + i) hout
    rwa [bitAt_overwrite hin, if_pos (by omega), Nat.add_sub_cancel_left] at hbit
  · intro hclean
    refine ⟨(size_overwrite hin word).trans h.size_eq, fun i hi ↦ ?_⟩
    rw [bitAt_overwrite hin]
    split
    · exact hclean _ (by omega) (by rwa [Nat.add_sub_cancel' (by omega)])
    · exact h.clear i hi

theorem tidy_run_iff {step : Step} (hin : step.InContract b) :
    (finalState (step.run b)).Tidy ↔ step.Clean b := by
  by_cases happend : step.isAppend = true
  · obtain ⟨xs, hadds⟩ := adds_of_isAppend h happend
    exact iff_of_true hadds.tidy (Step.clean_of_isAppend happend b)
  · cases step with
    | patch offset word =>
      have hrun : Write.patch offset word b = .ok () (b.overwrite offset word) := if_pos hin
      rw [Step.run, finalState_map, hrun]
      exact tidy_patch_iff h hin word
    | _ => exact absurd rfl happend

end Keeping

theorem Reached.tidy {existing : ByteArray} {b : Buffer}
    (h : Reached (fun b step ↦ step.InContract b ∧ step.Clean b) existing b) : b.Tidy := by
  induction h with
  | start => exact tidy_ofBytes existing
  | step _ _ hstep ih => exact (tidy_run_iff ih hstep.1).mpr hstep.2

theorem Reached.tidy_of_appends {existing : ByteArray} {b : Buffer}
    (h : Reached (fun _ step ↦ step.isAppend = true) existing b) : b.Tidy := by
  induction h with
  | start => exact tidy_ofBytes existing
  | step _ _ happend ih =>
    obtain ⟨xs, hadds⟩ := adds_of_isAppend ih happend
    exact hadds.tidy

/-- A buffer that steps within their contracts lead to has the bytes that its bits need, and a field
that is written to it is added to what stands behind its end. If no patch has set bits there, these
are clear, and the field comes to stand behind the rest as it is; such a buffer stays so under just
the steps that do not set bits there either. -/
theorem reached_field {existing : ByteArray} {b : Buffer}
    (h : Reached (fun b step ↦ step.InContract b) existing b) :
    b.Sized ∧
      (∀ {width : Nat}, width ≤ 64 → ∀ value, ∃ c, Write.field width value b = .ok () c ∧
        c.bitLen = b.bitLen + width ∧
        ∀ i, bitAt c.bytes i = (bitAt b.bytes i ||
          (decide (b.bitLen ≤ i ∧ i < b.bitLen + width) &&
            value.toNat.testBit (i - b.bitLen)))) ∧
      (Reached (fun b step ↦ step.InContract b ∧ step.Clean b) existing b →
        b.Tidy ∧ ∀ {width : Nat}, width ≤ 64 → ∀ value, ∃ c,
          Write.field width value b = .ok () c ∧ b.Adds (bitsOf width value.toNat) c) ∧
      (b.Tidy → ∀ step : Step, step.InContract b →
        ((finalState (step.run b)).Tidy ↔ step.Clean b)) := by
  refine ⟨h.sized, fun hw value ↦ ?_, fun hclean ↦ ?_, fun htidy _ hstep ↦ tidy_run_iff htidy hstep⟩
  · exact ⟨_, field_eq hw value, bitLen_push b _, bitAt_pushDigits h.sized _ value.toNat⟩
  · have htidy := hclean.tidy
    exact ⟨htidy, fun hw value ↦ ⟨_, field_eq hw value, adds_pushDigits htidy _ _⟩⟩

theorem reached_field_patched :
    (∃ c, Write.field 3 5 ⟨⟨#[6, 0, 0, 0, 0]⟩, 33⟩ = .ok () c ∧
      Adds ⟨⟨#[6, 0, 0, 0, 0]⟩, 33⟩ (bitsOf 3 5) c) ∧
    ¬ Tidy (finalState ((Step.patch 1 0x2000000).run ⟨⟨#[6, 0, 0, 0, 0]⟩, 33⟩)) := by
  have hclean : Reached (fun b step ↦ step.InContract b ∧ step.Clean b) ⟨#[1, 2, 3, 4]⟩
      ⟨⟨#[6, 0, 0, 0, 0]⟩, 33⟩ :=
    (Reached.start.step (.bool false) ⟨trivial, trivial⟩).step (.patch 0 6)
      ⟨by decide, Step.clean_patch (by decide) 6⟩
  have hsteps : Reached (fun b step ↦ step.InContract b) ⟨#[1, 2, 3, 4]⟩
      ⟨⟨#[6, 0, 0, 0, 0]⟩, 33⟩ :=
    (Reached.start.step (.bool false) trivial).step (.patch 0 6) (by decide)
  obtain ⟨-, -, hwrites, hkeeps⟩ := reached_field hsteps
  obtain ⟨htidy, hfield⟩ := hwrites hclean
  refine ⟨hfield (by decide) 5, fun hafter ↦ ?_⟩
  have hbit := (hkeeps htidy (.patch 1 0x2000000) (by decide)).mp hafter 25
  exact absurd (hbit (by decide) (by decide)) (by decide)

/-- Behind a patch that sets bits past the end, a field of clear bits comes out set. -/
theorem not_reached_tidy :
    ¬ (∀ existing b, Reached (fun b step ↦ step.InContract b) existing b → b.Tidy) ∧
      ¬ (∀ existing b, Reached (fun b step ↦ step.InContract b) existing b →
        ∀ width value, width ≤ 64 → ∃ c, Write.field width value b = .ok () c ∧
          c.bits = b.bits ++ bitsOf width value.toNat) := by
  have hsteps : Reached (fun b step ↦ step.InContract b) .empty
      ⟨⟨#[255, 255, 255, 255]⟩, 25⟩ :=
    (Reached.start.step (.field 25 0) (by decide)).step (.patch 0 0xffffffff) (by decide)
  constructor
  · intro h
    exact absurd ((h _ _ hsteps).clear 25 (by decide)) (by decide)
  · intro h
    obtain ⟨c, hc, hbits⟩ := h _ _ hsteps 7 0 (by decide)
    rw [field_eq (by decide)] at hc
    cases hc
    exact absurd hbits (by decide)

end BlockStream.Buffer
