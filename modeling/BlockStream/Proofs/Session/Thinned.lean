import BlockStream.Proofs.Session.Refused

namespace BlockStream.Session

mutual

def Step.slots : Step → List Nat
  | .closeBlock slot => [slot]
  | .block _ body => slotsAll body
  | _ => []
termination_by structural step => step

def slotsAll : List Step → List Nat
  | [] => []
  | step :: rest => step.slots ++ slotsAll rest
termination_by structural steps => steps

end

theorem not_spent_append {spent : Nat → Prop} {xs ys : List Nat}
    (h : ∀ slot ∈ xs ++ ys, ¬ spent slot) :
    (∀ slot ∈ xs, ¬ spent slot) ∧ ∀ slot ∈ ys, ¬ spent slot := List.forall_mem_append.mp h

/-- The benches differ at most in what has been reported and in slots that are spent. -/
structure Bench.Agrees (spent : Nat → Prop) (b c : Bench) : Prop where
  session : b.session.Agrees c.session
  size : c.slots.size = b.slots.size
  slots : ∀ slot, ¬ spent slot → c.slots[slot]? = b.slots[slot]?

structure SameReport (spent : Nat → Prop) (r q : Report × Bench) : Prop where
  report : q.1 = r.1
  bench : Bench.Agrees spent r.2 q.2

structure SameBody (spent : Nat → Prop) (r q : Option EncodeError × List Report × Bench) :
    Prop where
  failure : q.1 = r.1
  reports : q.2.1 = r.2.1
  bench : Bench.Agrees spent r.2.2 q.2.2

namespace Bench.Agrees

variable {spent : Nat → Prop} {b c : Bench}

theorem sameReport (h : Agrees spent b c) (outcome : Except Refusal Answer)
    (body : Option (List Report)) :
    SameReport spent (b.report outcome body) (c.report outcome body) :=
  ⟨by rw [report, report, h.session.status_eq], h⟩

theorem perform_cases (h : Agrees spent b c) {α : Type} {x : Emit α} (hx : Emit.Unlogged x) :
    (∃ a d e, b.perform x = (.ok a, d) ∧ c.perform x = (.ok a, e) ∧ Agrees spent d e) ∨
      ∃ f d e, b.perform x = (.error f, d) ∧ c.perform x = (.error f, e) ∧ Agrees spent d e := by
  have hresult := hx _ _ h.session
  generalize hs : x b.session = r at hresult
  generalize ht : x c.session = q at hresult
  cases hresult with
  | ok agrees =>
    exact .inl ⟨_, _, _, perform_of_ok hs, perform_of_ok ht, agrees, h.size, h.slots⟩
  | error agrees =>
    exact .inr ⟨_, _, _, perform_of_error hs, perform_of_error ht, agrees, h.size, h.slots⟩

theorem call (h : Agrees spent b c) {x : Emit Unit} (hx : Emit.Unlogged x) :
    SameReport spent (b.call x) (c.call x) := by
  rcases h.perform_cases hx with ⟨_, d, e, hb, hc, hagrees⟩ | ⟨f, d, e, hb, hc, hagrees⟩
  all_goals
    rw [Bench.call, Bench.call, hb, hc]
    exact hagrees.sameReport _ none

theorem onBuffer (h : Agrees spent b c) (step : Buffer.Step) :
    SameReport spent (b.onBuffer step) (c.onBuffer step) := by
  rcases h.perform_cases (Emit.unlogged_onBuffer step.run) with
    ⟨_, d, e, hb, hc, hagrees⟩ | ⟨f, d, e, hb, hc, hagrees⟩
  all_goals
    rw [Bench.onBuffer, Bench.onBuffer, hb, hc]
    exact hagrees.sameReport _ none

theorem openBlock (h : Agrees spent b c) (id : UInt32) :
    SameReport spent (b.openBlock id) (c.openBlock id) := by
  rcases h.perform_cases (Emit.unlogged_beginBlock id) with
    ⟨scope, d, e, hb, hc, hagrees⟩ | ⟨f, d, e, hb, hc, hagrees⟩
  · rw [Bench.openBlock, Bench.openBlock, hb, hc]
    have hpushed : Agrees spent { d with slots := d.slots.push (some scope) }
        { e with slots := e.slots.push (some scope) } := by
      refine ⟨hagrees.session, ?_, fun slot hslot ↦ ?_⟩
      · simp [hagrees.size]
      · simp [Array.getElem?_push, hagrees.size, hagrees.slots slot hslot]
    dsimp only
    rw [hagrees.size]
    exact hpushed.sameReport _ none
  · rw [Bench.openBlock, Bench.openBlock, hb, hc]
    exact hagrees.sameReport _ none

theorem closeBlock (h : Agrees spent b c) {slot : Nat} (hslot : ¬ spent slot) :
    SameReport spent (b.closeBlock slot) (c.closeBlock slot) := by
  rw [Bench.closeBlock, Bench.closeBlock, h.slots slot hslot]
  cases b.slots[slot]?.join with
  | none => exact h.sameReport _ none
  | some scope =>
    have htaken : Agrees spent { b with slots := b.slots.setIfInBounds slot none }
        { c with slots := c.slots.setIfInBounds slot none } := by
      refine ⟨h.session, ?_, fun other hother ↦ ?_⟩
      · simp [h.size]
      · simp [Array.getElem?_setIfInBounds, h.size, h.slots other hother]
    exact htaken.call (Emit.unlogged_endBlock scope)

end Bench.Agrees

section Steps

variable {spent : Nat → Prop}

mutual

theorem sameReport_run {b c : Bench} (h : Bench.Agrees spent b c) : (step : Step) →
    (∀ slot ∈ step.slots, ¬ spent slot) → SameReport spent (step.run b) (step.run c)
  | .openBlock id, _ => h.openBlock id
  | .closeBlock slot, hslots => h.closeBlock (hslots slot (List.mem_singleton_self slot))
  | .block id body, hslots => by
    rw [Step.run, Step.run]
    rcases h.perform_cases (Emit.unlogged_beginBlock id) with
      ⟨scope, d, e, hb, hc, hopened⟩ | ⟨f, d, e, hb, hc, hagrees⟩
    · rw [hb, hc]
      have hbody := sameBody_runBody hopened body hslots
      dsimp only
      generalize runBody d body = r at hbody
      generalize runBody e body = q at hbody
      obtain ⟨_, _, d⟩ := r
      obtain ⟨failure, reports, e⟩ := q
      obtain ⟨rfl, rfl, hagrees⟩ := hbody
      cases failure with
      | some f => exact hagrees.sameReport _ _
      | none =>
        rcases hagrees.perform_cases (Emit.unlogged_endBlock scope) with
          ⟨_, d, e, hb, hc, hclosed⟩ | ⟨f, d, e, hb, hc, hclosed⟩
        all_goals
          dsimp only
          rw [hb, hc]
          exact hclosed.sameReport _ _
    · rw [hb, hc]
      exact hagrees.sameReport _ none
  | .blockInfo types, _ => h.call (Emit.unlogged_blockInfo types)
  | .define layout types, _ => h.call (Emit.unlogged_define layout types)
  | .defineStandard id index types, _ => by
    rw [Step.run, Step.run]
    cases (BlockKind.ofId? id).bind (·.abbrevs[index]?) with
    | none => exact h.sameReport _ none
    | some a => exact h.call (Emit.unlogged_define a.layout types)
  | .record code operands, _ => h.call (Emit.unlogged_record code operands)
  | .buffer step, _ => h.onBuffer step
  | .content, _ => by
    rw [Step.run, Step.run, h.session.out]
    exact h.sameReport _ none
termination_by structural step => step

theorem sameBody_runBody {b c : Bench} (h : Bench.Agrees spent b c) : (steps : List Step) →
    (∀ slot ∈ slotsAll steps, ¬ spent slot) → SameBody spent (runBody b steps) (runBody c steps)
  | [], _ => ⟨rfl, rfl, h⟩
  | step :: rest, hslots => by
    obtain ⟨hstep, hrest⟩ := not_spent_append hslots
    obtain ⟨hreport, hagrees⟩ := sameReport_run h step hstep
    cases hf : (step.run b).1.failure? with
    | some e =>
      rw [runBody_of_failure hf, runBody_of_failure (hreport ▸ hf), hreport]
      exact ⟨rfl, rfl, hagrees⟩
    | none =>
      obtain ⟨hfailure, hreports, hlast⟩ := sameBody_runBody hagrees rest hrest
      rw [runBody_of_success hf, runBody_of_success (hreport ▸ hf), hreport, hreports, hfailure]
      exact ⟨rfl, rfl, hlast⟩
termination_by structural steps => steps

end

end Steps

/-- A step of a script, and the bench that it is taken on. -/
structure Turn where
  bench : Bench
  step : Step

/-- The turns of a script, in which each step is taken even if one before it has failed. -/
def Bench.turns (b : Bench) : List Step → List Turn
  | [] => []
  | step :: rest => ⟨b, step⟩ :: (step.run b).2.turns rest

namespace Turn

def seen (t : Turn) : Report × ByteArray :=
  let r := t.step.run t.bench
  (r.1, r.2.session.out.bytes)

def isTaken (t : Turn) : Bool := t.seen.1.refusal?.isNone

def Spends (t : Turn) (slot : Nat) : Prop := t.step = .closeBlock slot ∧ t.isTaken = false

end Turn

/-- No step goes back to a scope that has been used up for a closing that was refused. -/
def Thrifty (turns : List Turn) : Prop :=
  turns.Pairwise fun t later ↦ ∀ slot ∈ later.step.slots, ¬ t.Spends slot

theorem step_mem_of_mem_turns {t : Turn} {b : Bench} {steps : List Step}
    (h : t ∈ b.turns steps) : t.step ∈ steps := by
  induction steps generalizing b with
  | nil => cases h
  | cons step rest ih =>
    rcases List.mem_cons.mp h with rfl | h
    · exact List.mem_cons_self
    · exact List.mem_cons_of_mem _ (ih h)

theorem mem_slotsAll {slot : Nat} {step : Step} (hslot : slot ∈ step.slots) {steps : List Step}
    (h : step ∈ steps) : slot ∈ slotsAll steps := by
  induction steps with
  | nil => cases h
  | cons first rest ih =>
    rw [slotsAll, List.mem_append]
    rcases List.mem_cons.mp h with rfl | h
    · exact .inl hslot
    · exact .inr (ih h)

theorem thrifty_of_nodup (b : Bench) {steps : List Step} (h : (slotsAll steps).Nodup) :
    Thrifty (b.turns steps) := by
  induction steps generalizing b with
  | nil => exact .nil
  | cons step rest ih =>
    obtain ⟨-, hrest, hapart⟩ := List.nodup_append.mp h
    refine .cons (fun t ht slot hslot hspends ↦ ?_) (ih _ hrest)
    have hlater := mem_slotsAll hslot (step_mem_of_mem_turns ht)
    have hfirst : slot ∈ step.slots := by
      rw [show step = .closeBlock slot from hspends.1]
      exact List.mem_singleton_self slot
    exact hapart slot hfirst slot hlater rfl

def Bench.taken (b : Bench) (steps : List Step) : List Turn :=
  (b.turns steps).filter Turn.isTaken

section Scripts

variable {spent : Nat → Prop} {b c : Bench}

theorem Bench.Agrees.of_refused (h : Bench.Agrees spent b c) {step : Step} {r : Refusal}
    (hrefused : step.Refused b r) {t : Turn} (ht : t = ⟨b, step⟩) (hskipped : t.isTaken = false) :
    Bench.Agrees (fun slot ↦ spent slot ∨ t.Spends slot) (step.run b).2 c := by
  subst ht
  refine ⟨hrefused.session.symm.trans h.session, h.size.trans hrefused.size.symm, ?_⟩
  intro slot hslot
  rw [not_or] at hslot
  rw [h.slots slot hslot.1, hrefused.slots slot fun heq ↦ hslot.2 ⟨heq, hskipped⟩]

/-- Two runs side by side, of the whole script and of the steps that are not refused in it. -/
theorem seen_taken (h : Bench.Agrees spent b c) (steps : List Step)
    (hslots : ∀ t ∈ b.turns steps, ∀ slot ∈ t.step.slots, ¬ spent slot)
    (hthrifty : Thrifty (b.turns steps)) :
    (c.turns ((b.taken steps).map Turn.step)).map Turn.seen =
        (b.taken steps).map Turn.seen ∧
      ∃ spent, Bench.Agrees spent (b.afterAll steps)
        (c.afterAll ((b.taken steps).map Turn.step)) := by
  induction steps generalizing spent b c with
  | nil => exact ⟨rfl, spent, h⟩
  | cons step rest ih =>
    obtain ⟨hstep, hrest⟩ := List.forall_mem_cons.mp hslots
    obtain ⟨hfirst, hlater⟩ := List.pairwise_cons.mp hthrifty
    cases htaken : Turn.isTaken ⟨b, step⟩ with
    | true =>
      have hkept : b.taken (step :: rest) = ⟨b, step⟩ :: (step.run b).2.taken rest :=
        List.filter_cons_of_pos htaken
      obtain ⟨hreport, hagrees⟩ := sameReport_run h step hstep
      obtain ⟨hseen, others, hend⟩ := ih hagrees hrest hlater
      have hsame : Turn.seen ⟨c, step⟩ = Turn.seen ⟨b, step⟩ := by
        simp only [Turn.seen, hreport, hagrees.session.out]
      rw [hkept, List.map_cons, List.map_cons, Bench.turns, List.map_cons, hseen, hsame]
      exact ⟨rfl, others, hend⟩
    | false =>
      have hkept : b.taken (step :: rest) = (step.run b).2.taken rest :=
        List.filter_cons_of_neg (Bool.eq_false_iff.mp htaken)
      cases step_met b step with
      | refused why refused =>
        rw [hkept]
        refine ih (h.of_refused refused rfl htaken) (fun t ht slot hslot ↦ ?_) hlater
        rw [not_or]
        exact ⟨hrest t ht slot hslot, hfirst t ht slot hslot⟩
      | taken why report =>
        rw [Turn.isTaken, Turn.seen, report] at htaken
        cases htaken

/-- A step reports that it is refused exactly if there is a reason for that, and then the output and
the open blocks are what they were. Of a script that goes back to no scope it has used up in vain,
the steps that are refused can be left out: the others report the same, with the same output behind
each, and the session is finished in the same way. -/
theorem refused_without_trace :
    (∀ (b : Bench) (step : Step), (step.run b).1.refusal? = step.refusal? b ∧
      ∀ r, step.refusal? b = some r → (step.run b).2.session.out = b.session.out ∧
        (step.run b).2.session.frames = b.session.frames) ∧
    ∀ (b : Bench) (steps : List Step), Thrifty (b.turns steps) →
      let kept := (b.taken steps).map Turn.step
      (b.turns kept).map Turn.seen = (b.taken steps).map Turn.seen ∧
        (b.afterAll kept).session.finish = (b.afterAll steps).session.finish := by
  refine ⟨fun b step ↦ ?_, fun b steps hthrifty ↦ ?_⟩
  · cases step_met b step with
    | refused why refused =>
      refine ⟨?_, fun _ _ ↦ ⟨refused.session.out, refused.session.frames⟩⟩
      rw [refused.report, why]
      exact if_pos refused.early
    | taken why report =>
      refine ⟨report.trans why.symm, fun r hr ↦ ?_⟩
      cases why.symm.trans hr
  · have hsame : Bench.Agrees (fun _ ↦ False) b b := ⟨.refl _, rfl, fun _ _ ↦ rfl⟩
    obtain ⟨hseen, spent, hend⟩ := seen_taken hsame steps (fun _ _ _ _ ↦ not_false) hthrifty
    exact ⟨hseen, hend.session.finish_eq⟩

theorem refused_without_trace_mixed :
    let b : Bench := ⟨start .empty, #[some ⟨⟨.module, 8⟩, 3⟩]⟩
    let steps : List Step := [.openBlock 8, .closeBlock 0, .openBlock 99, .define [.fixed 3] 0,
      .record 1 [2], .buffer .byteOffset, .buffer (.field 65 1), .buffer (.char6 '!'),
      .buffer (.vbr 1 0), .closeBlock 1, .blockInfo 0, .buffer (.patch 1000 5)]
    let kept := (b.taken steps).map Turn.step
    Thrifty (b.turns steps) ∧
      (b.turns steps).map Turn.isTaken =
        [true, false, false, false, true, false, false, false, false, true, false, false] ∧
      (b.turns kept).map Turn.seen = (b.taken steps).map Turn.seen ∧
      (b.afterAll kept).session.finish =
        .ok (Format.magic ++ ⟨#[33, 12, 0, 0, 1, 0, 0, 0, 11, 2, 1, 0]⟩) := by
  intro b steps kept
  have hthrifty : Thrifty (b.turns steps) := thrifty_of_nodup b (by decide)
  obtain ⟨hseen, hfinish⟩ := refused_without_trace.2 b steps hthrifty
  exact ⟨hthrifty, by decide +kernel, hseen, hfinish.trans (by decide +kernel)⟩

end Scripts

end BlockStream.Session
