import BlockStream.Proofs.Session.Script

namespace BlockStream.Session

/-- A call, or a step on the buffer of the session, which may be a patch. -/
inductive Act
  | call (call : Call)
  | buffer (step : Buffer.Step)

def act (s : Session) : Act → Session
  | .call call => s.next call
  | .buffer step => finalState (Emit.onBuffer step.run s)

def afterActs (s : Session) (acts : List Act) : Session := acts.foldl act s

@[simp] theorem afterActs_nil (s : Session) : s.afterActs [] = s := rfl

@[simp] theorem afterActs_cons (s : Session) (a : Act) (acts : List Act) :
    s.afterActs (a :: acts) = (s.act a).afterActs acts := rfl

@[simp] theorem afterActs_append (s : Session) (xs ys : List Act) :
    s.afterActs (xs ++ ys) = (s.afterActs xs).afterActs ys := List.foldl_append

theorem afterActs_calls (s : Session) (calls : List Call) :
    s.afterActs (calls.map .call) = s.after calls := List.foldl_map

namespace Act

/-- The scope that an act yields if it opens a block. -/
def issued? (s : Session) : Act → Option Scope
  | .call (.openBlock id) =>
    match Emit.beginBlock id s with
    | .ok scope _ => some scope
    | .error .. => none
  | _ => none

/-- The scope that an act has closed a block with. -/
def used? (s : Session) : Act → Option Scope
  | .call (.closeBlock scope) =>
    match Emit.endBlock scope s with
    | .ok .. => some scope
    | .error .. => none
  | _ => none

end Act

/-- All that an act can do to the open blocks. -/
inductive Effect (s : Session) (a : Act) (t : Session) : Prop
  | stays (grows : s.out.Grows t.out) (frames : t.frames = s.frames)
      (issued : a.issued? s = none) (used : a.used? s = none)
  | opens {frame : Frame} (grows : s.out.Grows t.out) (frames : t.frames = frame :: s.frames)
      (behind : s.out.bitLen ≤ 8 * frame.lengthOffset) (aligned : frame.lengthOffset % 4 = 0)
      (inside : 8 * (frame.lengthOffset + 4) ≤ t.out.bitLen)
      (issued : a.issued? s = some ⟨frame, s.depth + 1⟩) (used : a.used? s = none)
  | closes {scope : Scope} (grows : s.out.Grows t.out) (frames : s.frames = scope.frame :: t.frames)
      (depth : scope.depth = s.depth) (issued : a.issued? s = none)
      (used : a.used? s = some scope)

section Effects

variable {s : Session}

theorem effect_openBlock (id : UInt32) :
    Effect s (.call (.openBlock id)) (s.act (.call (.openBlock id))) := by
  rw [act, next]
  cases hk : BlockKind.ofId? id with
  | none =>
    have hrun := Emit.beginBlock_of_unknown (s := s) hk
    rw [finalState_of_error hrun]
    exact .stays (.refl _) rfl (by rw [Act.issued?, hrun]) rfl
  | some kind =>
    have hrun := Emit.beginBlock_eq hk s
    have hgrows : s.out.Grows (Emit.headed s id kind) :=
      (Buffer.grows_pushAll s.out (Wire.enter s.width id kind.abbrevWidth)).trans
        (Buffer.grows_align32 _)
    have hzero := Buffer.grows_push (Emit.headed s id kind) ⟨32, 0⟩
    have haligned : (Emit.headed s id kind).bitLen % 32 = 0 := Buffer.bitLen_align32_mod _
    have hlen := Buffer.bitLen_push (Emit.headed s id kind) ⟨32, 0⟩
    have hle : s.out.bitLen ≤ (Emit.headed s id kind).bitLen := hgrows.bitLen_le
    rw [finalState_of_ok hrun]
    refine .opens (hgrows.trans hzero) rfl ?_ ?_ ?_
      (by rw [Act.issued?, hrun]) rfl
    · dsimp only
      omega
    · dsimp only
      omega
    · dsimp only at hlen ⊢
      omega

theorem effect_closeBlock (hsized : s.out.Sized)
    (hinside : ∀ f ∈ s.frames, 8 * (f.lengthOffset + 4) ≤ s.out.bitLen) (scope : Scope) :
    Effect s (.call (.closeBlock scope)) (s.act (.call (.closeBlock scope))) := by
  rw [act, next]
  by_cases hmatch : s.frames.head? = some scope.frame ∧ scope.depth = s.depth
  · obtain ⟨hhead, hdepth⟩ := hmatch
    obtain ⟨rest, hframes⟩ := List.head?_eq_some_iff.mp hhead
    have hin := hinside scope.frame (hframes ▸ List.mem_cons_self)
    have hgrows := (Buffer.grows_pushAll s.out (Wire.exit s.width)).trans (Buffer.grows_align32 _)
    have hend : 8 * (scope.frame.lengthOffset + 4) ≤ (Emit.ended s).bitLen :=
      Nat.le_trans hin hgrows.bitLen_le
    have hrun := Emit.endBlock_eq hsized scope hframes hdepth hin
    dsimp only at hrun
    split at hrun
    · rw [finalState_of_ok hrun]
      have hinside := (hgrows.sized hsized).word_inside hend
      exact .closes (hgrows.trans (Buffer.grows_overwrite _ hinside _)) hframes hdepth rfl
        (by rw [Act.used?, hrun])
    · rw [finalState_of_error hrun]
      exact .stays hgrows rfl rfl (by rw [Act.used?, hrun])
  · have hrun := Emit.endBlock_of_mismatch hmatch
    rw [finalState_of_error hrun]
    exact .stays (.refl _) rfl rfl (by rw [Act.used?, hrun])

theorem effect_act (hsized : s.out.Sized)
    (hinside : ∀ f ∈ s.frames, 8 * (f.lengthOffset + 4) ≤ s.out.bitLen) (a : Act) :
    Effect s a (s.act a) := by
  cases a with
  | buffer step =>
    rw [act, Emit.finalState_onBuffer]
    exact .stays (Buffer.grows_run s.out step) rfl rfl rfl
  | call call =>
    cases call with
    | openBlock id => exact effect_openBlock id
    | closeBlock scope => exact effect_closeBlock hsized hinside scope
    | record code operands => exact .stays (Buffer.grows_pushAll s.out _) rfl rfl rfl
    | define layout types =>
      rw [act, next]
      by_cases ht : types = 0
      · rw [finalState_of_error (Emit.define_of_zero ht s)]
        exact .stays (.refl _) rfl rfl rfl
      · rw [finalState_of_ok (Emit.define_of_ne_zero ht s)]
        exact .stays (Buffer.grows_pushAll s.out _) rfl rfl rfl
    | append step =>
      rw [act, next, Emit.finalState_onBuffer]
      exact .stays (Buffer.grows_run s.out step.val) rfl rfl rfl
    | note event => exact .stays (.refl _) rfl rfl rfl

end Effects

section Scripts

mutual

def Step.acts (b : Bench) : Step → List Act
  | .buffer step => [.buffer step]
  | .block id body =>
    match b.perform (Emit.beginBlock id) with
    | (.error _, _) => [.call (.openBlock id)]
    | (.ok scope, b) =>
      .call (.openBlock id) :: bodyActs b body ++
        if (runBody b body).1.isSome then [] else [.call (.closeBlock scope)]
  | step => (step.calls b).map .call
termination_by structural step => step

def bodyActs (b : Bench) : List Step → List Act
  | [] => []
  | step :: rest =>
    step.acts b ++
      if (step.run b).1.failure?.isSome then [] else bodyActs (step.run b).2 rest
termination_by structural steps => steps

end

mutual

theorem afterActs_acts (b : Bench) : (step : Step) →
    b.session.afterActs (step.acts b) = (step.run b).2.session
  | .buffer step => (congrArg Bench.session (perform_snd b _)).symm
  | .block id body => by
    rw [Step.acts, Step.run]
    cases hx : Emit.beginBlock id b.session with
    | error e t =>
      rw [Bench.perform_of_error hx]
      exact finalState_of_error hx
    | ok scope t =>
      have hbody := afterActs_bodyActs ⟨t, b.slots⟩ body
      have hopen : b.session.act (.call (.openBlock id)) = t := finalState_of_ok hx
      rw [Bench.perform_of_ok hx]
      dsimp only
      rw [List.cons_append, afterActs_cons, afterActs_append, hopen, hbody]
      rcases runBody ⟨t, b.slots⟩ body with ⟨failure, reports, c⟩
      cases failure with
      | some e => rfl
      | none => exact (congrArg Bench.session (perform_snd c (Emit.endBlock scope))).symm
  | .openBlock id => (afterActs_calls ..).trans (after_calls b (.openBlock id) rfl)
  | .closeBlock slot => (afterActs_calls ..).trans (after_calls b (.closeBlock slot) rfl)
  | .blockInfo types => (afterActs_calls ..).trans (after_calls b (.blockInfo types) rfl)
  | .define layout types => (afterActs_calls ..).trans (after_calls b (.define layout types) rfl)
  | .defineStandard id index types =>
    (afterActs_calls ..).trans (after_calls b (.defineStandard id index types) rfl)
  | .record code operands => (afterActs_calls ..).trans (after_calls b (.record code operands) rfl)
  | .content => rfl
termination_by structural step => step

theorem afterActs_bodyActs (b : Bench) : (steps : List Step) →
    b.session.afterActs (bodyActs b steps) = (runBody b steps).2.2.session
  | [] => rfl
  | step :: rest => by
    rw [bodyActs, afterActs_append, afterActs_acts b step]
    cases hf : (step.run b).1.failure? with
    | none =>
      rw [runBody_of_success hf]
      exact afterActs_bodyActs (step.run b).2 rest
    | some e =>
      rw [runBody_of_failure hf]
      rfl
termination_by structural steps => steps

end

def Bench.allActs (b : Bench) : List Step → List Act
  | [] => []
  | step :: rest => step.acts b ++ (step.run b).2.allActs rest

theorem afterActs_allActs (b : Bench) (steps : List Step) :
    b.session.afterActs (b.allActs steps) = (b.afterAll steps).session := by
  induction steps generalizing b with
  | nil => rfl
  | cons step rest ih =>
    rw [Bench.allActs, afterActs_append, afterActs_acts b step]
    exact ih _

end Scripts

end BlockStream.Session
