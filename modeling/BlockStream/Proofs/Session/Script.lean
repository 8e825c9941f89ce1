import BlockStream.Session.Script
import BlockStream.Proofs.Session.Calls

namespace BlockStream.Session

mutual

def Step.appends : Step → Bool
  | .buffer step => step.isAppend
  | .block _ body => allAppend body
  | _ => true
termination_by structural step => step

def allAppend : List Step → Bool
  | [] => true
  | step :: rest => step.appends && allAppend rest
termination_by structural steps => steps

end

def declarations (types : UInt32) : List Call :=
  BlockKind.registered.flatMap fun kind ↦
    .record BlockInfoCode.setBid.code [kind.id.toUInt64] ::
      kind.abbrevs.map fun a ↦ .define a.layout types

mutual

def Step.calls (b : Bench) : Step → List Call
  | .openBlock id => [.openBlock id]
  | .closeBlock slot => (b.slots[slot]?.join).toList.map .closeBlock
  | .block id body =>
    match b.perform (Emit.beginBlock id) with
    | (.error _, _) => [.openBlock id]
    | (.ok scope, b) =>
      .openBlock id :: bodyCalls b body ++
        if (runBody b body).1.isSome then [] else [.closeBlock scope]
  | .blockInfo types =>
    if types = 0 then []
    else
      let s := b.session.next (.note (.registering types))
      .note (.registering types) :: .openBlock BlockKind.blockInfo.id ::
        match Emit.beginBlock BlockKind.blockInfo.id s with
        | .ok scope _ => declarations types ++ [.closeBlock scope]
        | .error .. => []
  | .define layout types => [.define layout types]
  | .defineStandard id index types =>
    ((BlockKind.ofId? id).bind (·.abbrevs[index]?)).toList.map fun a ↦ .define a.layout types
  | .record code operands => [.record code operands]
  | .buffer step => if h : step.isAppend = true then [.append ⟨step, h⟩] else []
  | .content => []
termination_by structural step => step

def bodyCalls (b : Bench) : List Step → List Call
  | [] => []
  | step :: rest =>
    step.calls b ++
      if (step.run b).1.failure?.isSome then [] else bodyCalls (step.run b).2 rest
termination_by structural steps => steps

end

section Operations

theorem perform_snd {α : Type} (b : Bench) (x : Emit α) :
    (b.perform x).2 = ⟨finalState (x b.session), b.slots⟩ := by
  cases hx : x b.session with
  | ok a t => rw [Bench.perform_of_ok hx, finalState]
  | error e t => rw [Bench.perform_of_error hx, finalState]

theorem session_call (b : Bench) (x : Emit Unit) :
    (b.call x).2.session = finalState (x b.session) :=
  congrArg Bench.session (perform_snd b x)

theorem session_openBlock (b : Bench) (id : UInt32) :
    (b.openBlock id).2.session = b.session.next (.openBlock id) := by
  rw [Bench.openBlock, next]
  cases hx : Emit.beginBlock id b.session with
  | ok scope t =>
    rw [Bench.perform_of_ok hx]
    rfl
  | error e t =>
    rw [Bench.perform_of_error hx]
    rfl

theorem session_closeBlock (b : Bench) (slot : Nat) :
    (b.closeBlock slot).2.session =
      b.session.after ((b.slots[slot]?.join).toList.map .closeBlock) := by
  unfold Bench.closeBlock
  cases b.slots[slot]?.join with
  | none => rfl
  | some scope => exact session_call ..

theorem forM_of_ok {α : Type} {f : α → Emit Unit} {g : α → List Call}
    (h : ∀ a s, f a s = .ok () (s.after (g a))) (xs : List α) (s : Session) :
    xs.forM f s = .ok () (s.after (xs.flatMap g)) := by
  induction xs generalizing s with
  | nil => rfl
  | cons x xs ih =>
    rw [List.flatMap_cons, after_append]
    exact (bind_of_ok (h x s)).trans (ih _)

theorem declareAll_of_ne_zero {types : UInt32} (ht : types ≠ 0) (s : Session) :
    Emit.declareAll types s = .ok () (s.after (declarations types)) := by
  refine forM_of_ok (fun kind t ↦ ?_) _ s
  refine (bind_of_ok rfl).trans ?_
  rw [after_cons, ← List.flatMap_singleton' (kind.abbrevs.map _), List.flatMap_map]
  refine forM_of_ok (fun a u ↦ ?_) _ _
  rw [Emit.define_of_ne_zero ht u, after_cons, after_nil, next,
    finalState_of_ok (Emit.define_of_ne_zero ht u)]

theorem finalState_blockInfo (b : Bench) (types : UInt32) :
    finalState (Emit.blockInfo types b.session) =
      b.session.after ((Step.blockInfo types).calls b) := by
  rw [Step.calls]
  split
  · rename_i ht
    exact finalState_of_error (Emit.blockInfo_of_zero ht b.session)
  · rename_i ht
    have hnote : { b.session with log := b.session.log.push (.registering types) } =
      b.session.next (.note (.registering types)) := rfl
    rw [Emit.blockInfo_of_ne_zero ht, Emit.block, hnote]
    dsimp only
    rw [after_cons, after_cons]
    cases hx : Emit.beginBlock BlockKind.blockInfo.id
        (b.session.next (.note (.registering types))) with
    | error e t =>
      rw [finalState_of_error (bind_of_error hx)]
      exact (finalState_of_error hx).symm
    | ok scope t =>
      have hopen : next _ (.openBlock BlockKind.blockInfo.id) = t := finalState_of_ok hx
      rw [(bind_of_ok hx).trans (bind_of_ok (declareAll_of_ne_zero ht t)), after_append, hopen]
      rfl

end Operations

mutual

theorem after_calls (b : Bench) : (step : Step) → step.appends = true →
    b.session.after (step.calls b) = (step.run b).2.session
  | .openBlock id, _ => (session_openBlock b id).symm
  | .closeBlock slot, _ => (session_closeBlock b slot).symm
  | .block id body, h => by
    rw [Step.appends] at h
    rw [Step.calls, Step.run]
    cases hx : Emit.beginBlock id b.session with
    | error e t =>
      rw [Bench.perform_of_error hx]
      exact finalState_of_error hx
    | ok scope t =>
      have hbody := after_bodyCalls ⟨t, b.slots⟩ body h
      have hopen : b.session.next (.openBlock id) = t := finalState_of_ok hx
      rw [Bench.perform_of_ok hx]
      dsimp only
      rw [List.cons_append, after_cons, after_append, hopen, hbody]
      rcases runBody ⟨t, b.slots⟩ body with ⟨failure, reports, c⟩
      cases failure with
      | some e => rfl
      | none => exact (congrArg Bench.session (perform_snd c (Emit.endBlock scope))).symm
  | .blockInfo types, _ => by
    rw [← finalState_blockInfo]
    exact (session_call ..).symm
  | .define layout types, _ => (session_call b (Emit.define layout types)).symm
  | .defineStandard id index types, _ => by
    rw [Step.calls, Step.run]
    cases (BlockKind.ofId? id).bind (·.abbrevs[index]?) with
    | none => rfl
    | some a => exact (session_call ..).symm
  | .record code operands, _ => (session_call b (Emit.record code operands)).symm
  | .buffer step, h => by
    rw [Step.appends] at h
    rw [Step.calls, dif_pos h]
    exact (congrArg Bench.session (perform_snd b _)).symm
  | .content, _ => rfl
termination_by structural step => step

theorem after_bodyCalls (b : Bench) : (steps : List Step) → allAppend steps = true →
    b.session.after (bodyCalls b steps) = (runBody b steps).2.2.session
  | [], _ => rfl
  | step :: rest, h => by
    rw [allAppend, Bool.and_eq_true] at h
    rw [bodyCalls, after_append, after_calls b step h.1]
    cases hf : (step.run b).1.failure? with
    | none =>
      rw [runBody_of_success hf]
      exact after_bodyCalls (step.run b).2 rest h.2
    | some e =>
      rw [runBody_of_failure hf]
      rfl
termination_by structural steps => steps

end

section Runs

/-- The bench behind steps, each of which is taken even if one before it has failed. -/
def Bench.afterAll (b : Bench) (steps : List Step) : Bench :=
  steps.foldl (fun b step ↦ (step.run b).2) b

def Bench.allCalls (b : Bench) : List Step → List Call
  | [] => []
  | step :: rest => step.calls b ++ (step.run b).2.allCalls rest

theorem after_allCalls (b : Bench) (steps : List Step) (h : allAppend steps = true) :
    b.session.after (b.allCalls steps) = (b.afterAll steps).session := by
  induction steps generalizing b with
  | nil => rfl
  | cons step rest ih =>
    rw [allAppend, Bool.and_eq_true] at h
    rw [Bench.allCalls, after_append, after_calls b step h.1]
    exact ih _ h.2

end Runs

end BlockStream.Session
