import BlockStream.Cursor.Step
import BlockStream.Proofs.Cursor.Safe

namespace BlockStream

namespace Cursor

/-- The payload has as many bytes as the number at the cursor says, and stands in the bytes at the
first word behind that number. -/
def HoldsBlob (c : Cursor) (payload : ByteArray) : Prop :=
  ∃ size d start, Read.vbr Format.blobLengthChunk c = .ok size d ∧ payload.size = size.toNat ∧
    start % 4 = 0 ∧ d.pos ≤ 8 * start ∧ 8 * start < d.pos + 32 ∧
    start + payload.size ≤ c.bytes.size ∧
    payload = c.bytes.extract start (start + payload.size)

namespace Step

def Reads : Step → Prop
  | .field width => width ≤ 64
  | .vbr width | .signedVbr width => 2 ≤ width ∧ width ≤ 64
  | .bool | .byte | .char6 | .align32 | .blob => True
  | .byteOffset => False

instance decidableReads : (step : Step) → Decidable step.Reads
  | .field width => inferInstanceAs (Decidable (width ≤ 64))
  | .vbr width | .signedVbr width => inferInstanceAs (Decidable (2 ≤ width ∧ width ≤ 64))
  | .bool | .byte | .char6 | .align32 | .blob => inferInstanceAs (Decidable True)
  | .byteOffset => inferInstanceAs (Decidable False)

/-- Whether a step passes all its bits at once, and so none if it fails. -/
def isWhole : Step → Bool
  | .field _ | .bool | .byte | .char6 | .align32 | .byteOffset => true
  | .vbr _ | .signedVbr _ | .blob => false

/-- What comes with an answer: padding and blobs end at a word, and a blob is one that the bytes
hold. -/
def Promises (c : Cursor) : Step → Answer → Cursor → Prop
  | .align32, _, d => d.pos % 32 = 0
  | .blob, .bytes payload, d => d.pos % 32 = 0 ∧ c.HoldsBlob payload
  | .blob, _, _ => False
  | _, _, _ => True

/-- What holds of a step that has been taken at `c`, whether it has failed or not. -/
structure Keeps (step : Step) (c : Cursor)
    (r : EStateM.Result (Fault DecodeError) Cursor Answer) : Prop where
  sound : ∀ v d, r ≠ .error (.violation v) d
  reaches : c.Reaches (finalState r)
  within : (finalState r).Within
  unmoved : step.isWhole = true → ∀ e d, r = .error e d → d = c
  promises : ∀ a d, r = .ok a d → step.Promises c a d

end Step

end Cursor

namespace Read

variable {c : Cursor}

theorem pos_lt_of_align32 {u : Unit} {d : Cursor} (h : align32 c = .ok u d) :
    d.pos < c.pos + 32 := by
  rw [align32_eq, skip_eq] at h
  split at h <;> cases h
  dsimp only
  omega

theorem safe_between {start stop : Nat} (hle : start ≤ stop) (hstop : stop ≤ c.bytes.size)
    (hc : c.Within) :
    Safe id (between start stop) c fun payload d ↦
      d = c ∧ payload = c.bytes.extract start stop := by
  have hslice : slice (ε := DecodeError) c.bytes start stop = .ok (c.bytes.extract start stop) := by
    rw [slice, if_pos ⟨hle, hstop⟩]
  exact .of_ok (by rw [between, hslice]) hc ⟨rfl, rfl⟩

theorem safe_blob (hc : c.Within) :
    Safe id blob c fun payload d ↦ d.pos % 32 = 0 ∧ c.HoldsBlob payload := by
  refine .bind ((safe_vbr (by decide) hc).yielded.remember (steady_vbr _)) ?_
  intro size c₁ hc₁ hsize
  obtain ⟨hreach₁, hread, -⟩ := hsize
  refine .bind ((safe_align32 hc₁).yielded.remember steady_align32) ?_
  intro _ c₂ hc₂ hfront
  obtain ⟨hreach₂, hpad, hword⟩ := hfront
  have hnear : c₂.pos < c₁.pos + 32 := pos_lt_of_align32 hpad
  have hbehind : c₁.pos ≤ c₂.pos := hreach₂.pos_le
  refine .bind (safe_byteOffset hc₂ (by omega)) ?_
  rintro start c₂ - ⟨rfl, rfl⟩
  refine .bind ((safe_skip (8 * size.toNat) hc₂).remember (steady_skip _)) ?_
  intro _ c₃ hc₃ hskip
  obtain ⟨hreach₃, hend⟩ := hskip
  refine .bind ((safe_align32 hc₃).remember steady_align32) ?_
  intro _ c₄ hc₄ hback
  obtain ⟨hreach₄, hback⟩ := hback
  -- no reading changes the bytes, so the payload is cut from those at the start
  have hbytes : c₄.bytes = c.bytes :=
    (((hreach₁.trans hreach₂).trans hreach₃).trans hreach₄).bytes_eq
  have hinside : c₂.pos / 8 + size.toNat ≤ c₄.bytes.size := by
    have hin : c₃.pos ≤ 8 * c₃.bytes.size := hc₃
    have hsame : c₄.bytes = c₃.bytes := hreach₄.bytes_eq
    rw [hsame]
    simp only [id] at hend
    omega
  refine (safe_between (Nat.le_add_right ..) hinside hc₄).mono ?_
  rintro payload c₄ ⟨rfl, hpayload⟩
  have hsize : payload.size = size.toNat := by
    rw [hpayload, ByteArray.size_extract]
    omega
  rw [← hsize, hbytes] at hinside hpayload
  exact ⟨hback, size, c₁, c₂.pos / 8, hread, hsize, by omega, by omega, by omega, hinside, hpayload⟩

end Read

namespace Cursor

namespace Step

variable {step : Step} {c : Cursor}

theorem steady_run (step : Step) : Steady id step.run := by
  cases step with
  | field width => exact (Read.steady_field width).map _
  | vbr width => exact (Read.steady_vbr width).map _
  | signedVbr width => exact (Read.steady_signedVbr width).map _
  | bool => exact Read.steady_bool.map _
  | byte => exact Read.steady_byte.map _
  | char6 => exact Read.steady_char6.map _
  | align32 => exact Read.steady_align32.map _
  | blob => exact Read.steady_blob.map _
  | byteOffset => exact Read.steady_byteOffset.map _

theorem safe_run (h : step.Reads) (hc : c.Within) : Safe id step.run c (step.Promises c) := by
  cases step with
  | field width => exact .map _ (Read.safe_field h hc) fun _ _ _ ↦ trivial
  | vbr width => exact .map _ (Read.safe_vbr h hc) fun _ _ _ ↦ trivial
  | signedVbr width => exact .map _ (Read.safe_signedVbr h hc) fun _ _ _ ↦ trivial
  | bool => exact .map _ (Read.safe_bool hc) fun _ _ _ ↦ trivial
  | byte => exact .map _ (Read.safe_byte hc) fun _ _ _ ↦ trivial
  | char6 => exact .map _ (Read.safe_char6 hc) fun _ _ _ ↦ trivial
  | align32 => exact .map _ (Read.safe_align32 hc) fun _ _ hword ↦ hword
  | blob => exact .map _ (Read.safe_blob hc) fun _ _ hblob ↦ hblob
  | byteOffset => exact h.elim

theorem unmoved_of_field {width : Nat} {e : Fault DecodeError} {d : Cursor}
    (h : Read.field width c = .error e d) : d = c := by
  rw [Read.field_eq] at h
  split at h
  · cases h
    rfl
  · split at h <;> cases h
    rfl

theorem unmoved_of_align32 {e : Fault DecodeError} {d : Cursor}
    (h : Read.align32 c = .error e d) : d = c := by
  rw [Read.align32_eq, Read.skip_eq] at h
  split at h <;> cases h
  rfl

theorem unmoved_of_byteOffset {e : Fault DecodeError} {d : Cursor}
    (h : Read.byteOffset c = .error e d) : d = c := by
  rw [Read.byteOffset] at h
  split at h <;> cases h
  rfl

theorem unmoved_of_map {α β : Type} {x : Read α} {f : α → β} {e : Fault DecodeError} {d : Cursor}
    (hx : ∀ {e d}, x c = .error e d → d = c) (h : (f <$> x) c = .error e d) : d = c := by
  cases hrun : x c with
  | ok a t => cases (map_of_ok hrun).symm.trans h
  | error e' t =>
    cases (map_of_error hrun).symm.trans h
    exact hx hrun

theorem unmoved_of_isWhole (h : step.isWhole = true) {e : Fault DecodeError} {d : Cursor}
    (he : step.run c = .error e d) : d = c := by
  cases step with
  | field width => exact unmoved_of_map unmoved_of_field he
  | bool => exact unmoved_of_map (unmoved_of_map unmoved_of_field) he
  | byte => exact unmoved_of_map (unmoved_of_map unmoved_of_field) he
  | char6 => exact unmoved_of_map (unmoved_of_map unmoved_of_field) he
  | align32 => exact unmoved_of_map unmoved_of_align32 he
  | byteOffset => exact unmoved_of_map unmoved_of_byteOffset he
  | vbr | signedVbr | blob => cases h

theorem keeps_run (h : step.Reads) (hc : c.Within) : step.Keeps c (step.run c) := by
  have hreach := steady_run step c
  rcases (safe_run h hc).ends with ⟨a, d, hok, hd, hpromise⟩ | ⟨e, d, he, hd⟩
  · rw [hok] at hreach ⊢
    refine ⟨fun _ _ ↦ nofun, hreach, hd, fun _ _ _ ↦ nofun, ?_⟩
    intro _ _ heq
    cases heq
    exact hpromise
  · refine ⟨?_, hreach, ?_, fun hwhole _ _ ↦ unmoved_of_isWhole hwhole, ?_⟩
    · rw [he]
      nofun
    · rw [he]
      exact hd
    · rw [he]
      nofun

end Step

inductive Keeping : Cursor → List Step →
    List (EStateM.Result (Fault DecodeError) Cursor Answer) → Prop
  | nil (c : Cursor) : Keeping c [] []
  | cons {c : Cursor} {step : Step} {steps : List Step}
      {r : EStateM.Result (Fault DecodeError) Cursor Answer}
      {rs : List (EStateM.Result (Fault DecodeError) Cursor Answer)} :
      step.Keeps c r → Keeping (finalState r) steps rs → Keeping c (step :: steps) (r :: rs)

theorem runAll_cons (c : Cursor) (step : Step) (steps : List Step) :
    runAll c (step :: steps) = step.run c :: runAll (finalState (step.run c)) steps := by
  rw [runAll]
  cases step.run c <;> rfl

theorem keeping_runAll {steps : List Step} (h : ∀ step ∈ steps, step.Reads) {c : Cursor}
    (hc : c.Within) : Keeping c steps (runAll c steps) := by
  induction steps generalizing c with
  | nil => exact .nil c
  | cons step steps ih =>
    obtain ⟨hstep, hsteps⟩ := List.forall_mem_cons.mp h
    have hkeeps := Step.keeps_run hstep hc
    rw [runAll_cons]
    exact .cons hkeeps (ih hsteps hkeeps.within)

theorem Keeping.pairwise {c : Cursor} {steps : List Step}
    {rs : List (EStateM.Result (Fault DecodeError) Cursor Answer)} (h : Keeping c steps rs) :
    (c :: rs.map finalState).Pairwise Reaches := by
  induction h with
  | nil c => exact List.pairwise_singleton _ c
  | @cons c step steps r rs hkeeps _ ih =>
    have hfirst := (List.pairwise_cons.mp ih).1
    rw [List.map_cons, List.pairwise_cons, List.forall_mem_cons]
    exact ⟨⟨hkeeps.reaches, fun d hd ↦ hkeeps.reaches.trans (hfirst d hd)⟩, ih⟩

theorem Keeping.within {c : Cursor} {steps : List Step}
    {rs : List (EStateM.Result (Fault DecodeError) Cursor Answer)} (h : Keeping c steps rs) :
    ∀ d ∈ rs.map finalState, d.Within := by
  induction h with
  | nil => nofun
  | cons hkeeps _ ih =>
    rw [List.map_cons, List.forall_mem_cons]
    exact ⟨hkeeps.within, ih⟩

/-- Bytes can be read in any way that the contracts of the single readings allow, and further on
behind those that fail: each reading keeps within its contracts and the bytes, one that passes its
bits at once stays where it was if it fails, padding and blobs end at a word, and a blob is cut from
the bytes as it is declared there. The cursor is never moved back, nor past the end. -/
theorem runAll_safe (bytes : ByteArray) (steps : List Step) (h : ∀ step ∈ steps, step.Reads) :
    Keeping ⟨bytes, 0⟩ steps (runAll ⟨bytes, 0⟩ steps) ∧
      (⟨bytes, 0⟩ :: (runAll ⟨bytes, 0⟩ steps).map finalState).Pairwise Reaches ∧
      ∀ d ∈ (runAll ⟨bytes, 0⟩ steps).map finalState, d.pos ≤ 8 * bytes.size := by
  have hkeeping := keeping_runAll h (c := ⟨bytes, 0⟩) (Nat.zero_le _)
  have hreach := hkeeping.pairwise
  refine ⟨hkeeping, hreach, ?_⟩
  intro d hd
  have hbytes : d.bytes = bytes := ((List.pairwise_cons.mp hreach).1 d hd).bytes_eq
  rw [← hbytes]
  exact hkeeping.within d hd

theorem runAll_safe_mixed :
    (∀ step ∈ [Step.blob, .bool, .align32, .blob, .field 1, .vbr 6], step.Reads) ∧
      Keeping ⟨⟨#[20, 0, 0, 0, 1, 0, 0, 0, 3, 0, 0, 0, 7, 8, 9, 0]⟩, 0⟩
        [.blob, .bool, .align32, .blob, .field 1, .vbr 6]
        (runAll ⟨⟨#[20, 0, 0, 0, 1, 0, 0, 0, 3, 0, 0, 0, 7, 8, 9, 0]⟩, 0⟩
          [.blob, .bool, .align32, .blob, .field 1, .vbr 6]) := by
  have hreads : ∀ step ∈ [Step.blob, .bool, .align32, .blob, .field 1, .vbr 6], step.Reads := by
    decide
  obtain ⟨hkeeping, -⟩ :=
    runAll_safe ⟨#[20, 0, 0, 0, 1, 0, 0, 0, 3, 0, 0, 0, 7, 8, 9, 0]⟩ _ hreads
  exact ⟨hreads, hkeeping⟩

end Cursor

end BlockStream
