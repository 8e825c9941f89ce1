import BlockStream.Proofs.Session.Behind
import BlockStream.Proofs.Session.Script

namespace BlockStream.Session

mutual

def Step.moved (bytes : Nat) : Step → Step
  | .block id body => .block id (movedAll bytes body)
  | .buffer step => .buffer (step.moved bytes)
  | step => step
termination_by structural step => step

def movedAll (bytes : Nat) : List Step → List Step
  | [] => []
  | step :: rest => step.moved bytes :: movedAll bytes rest
termination_by structural steps => steps

end

def Answer.behind (front : ByteArray) : Answer → Answer
  | .done => .done
  | .opened slot scope => .opened slot (scope.moved front.size)
  | .buffer answer => .buffer (answer.behind front)
  | .bytes content => .bytes (front ++ content)

def Refusal.moved (bytes : Nat) : Refusal → Refusal
  | .session cause => .session (cause.moved bytes)
  | .buffer cause => .buffer (cause.moved bytes)
  | refusal => refusal

def outcomeBehind (front : ByteArray) : Except Refusal Answer → Except Refusal Answer
  | .ok answer => .ok (answer.behind front)
  | .error refusal => .error (refusal.moved front.size)

def Status.behind (front : ByteArray) (s : Status) : Status :=
  { s with bitLen := 8 * front.size + s.bitLen }

mutual

def Report.behind (front : ByteArray) : Report → Report
  | .mk outcome after body =>
    .mk (outcomeBehind front outcome) (after.behind front) (bodyBehind front body)
termination_by structural report => report

def bodyBehind (front : ByteArray) : Option (List Report) → Option (List Report)
  | none => none
  | some reports => some (reportsBehind front reports)
termination_by structural body => body

def reportsBehind (front : ByteArray) : List Report → List Report
  | [] => []
  | report :: rest => report.behind front :: reportsBehind front rest
termination_by structural reports => reports

end

def Bench.behind (front : ByteArray) (b : Bench) : Bench :=
  ⟨b.session.behind front, b.slots.map (Option.map (.moved front.size))⟩

def Bench.reports (b : Bench) : List Step → List Report
  | [] => []
  | step :: rest => (step.run b).1 :: (step.run b).2.reports rest

theorem status_behind (front : ByteArray) (s : Session) :
    (s.behind front).status = s.status.behind front := by
  rw [status, depth_behind, width_behind, innermost_behind]
  rfl

theorem Report.failure?_behind (front : ByteArray) (r : Report) :
    (r.behind front).failure? = r.failure? := by
  obtain ⟨outcome, after, body⟩ := r
  rcases outcome with ((_ | _) | (_ | _) | _ | _) | _ <;> rfl

namespace Bench

/-- What a step does on a bench, and what it does on the bench behind `front`. -/
structure Mirrors (front : ByteArray) (r q : Report × Bench) : Prop where
  sized : r.2.session.out.Sized
  eq_behind : q = (r.1.behind front, r.2.behind front)

variable {front : ByteArray} {b : Bench} (hb : b.session.out.Sized)
include hb

theorem mirrors_report (outcome : Except Refusal Answer) (body : Option (List Report)) :
    Mirrors front (b.report outcome body)
      ((b.behind front).report (outcomeBehind front outcome) (bodyBehind front body)) :=
  ⟨hb, by rw [report, Bench.behind, status_behind]; rfl⟩

theorem perform_cases {α β : Type} {value : α → β} {x : Emit α} {y : Emit β}
    (h : Emit.Mirrors front value x y) :
    (∃ a c, b.perform x = (.ok a, c) ∧ c.session.out.Sized ∧
      (b.behind front).perform y = (.ok (value a), c.behind front)) ∨
    ∃ e c, b.perform x = (.error e, c) ∧ c.session.out.Sized ∧
      (b.behind front).perform y = (.error (e.moved front.size), c.behind front) := by
  have hsized := h.sized b.session hb
  have hrun := h.run_eq b.session hb
  cases hx : x b.session with
  | ok a t =>
    rw [hx] at hsized hrun
    exact .inl ⟨a, _, perform_of_ok hx, hsized, perform_of_ok (b := b.behind front) hrun⟩
  | error e t =>
    rw [hx] at hsized hrun
    exact .inr ⟨e, _, perform_of_error hx, hsized, perform_of_error (b := b.behind front) hrun⟩

theorem mirrors_call {x y : Emit Unit} (h : Emit.Mirrors front id x y) :
    Mirrors front (b.call x) ((b.behind front).call y) := by
  rcases perform_cases hb h with ⟨_, c, hx, hc, hy⟩ | ⟨e, c, hx, hc, hy⟩
  · rw [call, call, hx, hy]
    exact mirrors_report hc (.ok .done) none
  · rw [call, call, hx, hy]
    exact mirrors_report hc (.error (.session e)) none

variable (hfront : front.size % 4 = 0)
include hfront

theorem mirrors_onBuffer (step : Buffer.Step) :
    Mirrors front (b.onBuffer step) ((b.behind front).onBuffer (step.moved front.size)) := by
  have hstep : Emit.Mirrors front (.behind front) (Emit.onBuffer step.run)
      (Emit.onBuffer (step.moved front.size).run) :=
    .onBuffer (Buffer.grows_run · step) fun c hc ↦ Buffer.run_behind hc hfront step
  rcases perform_cases hb hstep with ⟨a, c, hx, hc, hy⟩ | ⟨e, c, hx, hc, hy⟩
  · rw [onBuffer, onBuffer, hx, hy]
    exact mirrors_report hc (.ok (.buffer a)) none
  · rw [onBuffer, onBuffer, hx, hy]
    exact mirrors_report hc (.error (.buffer e)) none

theorem mirrors_openBlock (id : UInt32) :
    Mirrors front (b.openBlock id) ((b.behind front).openBlock id) := by
  rcases perform_cases hb (Emit.mirrors_beginBlock hfront id) with
    ⟨scope, c, hx, hc, hy⟩ | ⟨e, c, hx, hc, hy⟩
  · rw [openBlock, openBlock, hx, hy]
    have hslots : (c.behind front).slots.push (some (scope.moved front.size)) =
        (c.slots.push (some scope)).map (Option.map (.moved front.size)) := by simp [behind]
    have hsize : (c.behind front).slots.size = c.slots.size := Array.size_map
    dsimp only
    rw [hslots, hsize]
    exact mirrors_report (b := { c with slots := c.slots.push (some scope) }) hc
      (.ok (.opened c.slots.size scope)) none
  · rw [openBlock, openBlock, hx, hy]
    exact mirrors_report hc (.error (.session e)) none

theorem mirrors_closeBlock (slot : Nat) :
    Mirrors front (b.closeBlock slot) ((b.behind front).closeBlock slot) := by
  have hslot : (b.behind front).slots[slot]?.join =
      b.slots[slot]?.join.map (.moved front.size) := by
    simp only [behind, Array.getElem?_map]
    cases b.slots[slot]? with
    | none => rfl
    | some scope => rfl
  rw [closeBlock, closeBlock, hslot]
  cases b.slots[slot]?.join with
  | none => exact mirrors_report hb (.error .noScope) none
  | some scope =>
    have hslots : (b.behind front).slots.setIfInBounds slot none =
        (b.slots.setIfInBounds slot none).map (Option.map (.moved front.size)) := by
      simp [behind]
    dsimp only [Option.map]
    rw [hslots]
    exact mirrors_call (b := { b with slots := b.slots.setIfInBounds slot none }) hb
      (Emit.mirrors_endBlock hfront scope)

end Bench

structure BodyMirrors (front : ByteArray) (r q : Option EncodeError × List Report × Bench) :
    Prop where
  sized : r.2.2.session.out.Sized
  eq_behind : q = (r.1, reportsBehind front r.2.1, r.2.2.behind front)

section Steps

variable {front : ByteArray}

mutual

theorem mirrors_run (hfront : front.size % 4 = 0) (b : Bench) (hb : b.session.out.Sized) :
    (step : Step) →
    Bench.Mirrors front (step.run b) ((step.moved front.size).run (b.behind front))
  | .openBlock id => Bench.mirrors_openBlock hb hfront id
  | .closeBlock slot => Bench.mirrors_closeBlock hb hfront slot
  | .block id body => by
    rw [Step.moved, Step.run, Step.run]
    rcases Bench.perform_cases hb (Emit.mirrors_beginBlock hfront id) with
      ⟨scope, c, hx, hc, hy⟩ | ⟨e, c, hx, hc, hy⟩
    · rw [hx, hy]
      have hbody := mirrors_runBody hfront c hc body
      dsimp only
      generalize runBody c body = r at hbody
      generalize runBody (c.behind front) (movedAll front.size body) = q at hbody
      obtain ⟨failure, reports, d⟩ := r
      obtain ⟨hd, rfl⟩ := hbody
      cases failure with
      | some e => exact Bench.mirrors_report hd (.error (.session (.error e))) (some reports)
      | none =>
        rcases Bench.perform_cases hd (Emit.mirrors_endBlock hfront scope) with
          ⟨_, f, hx, hf, hy⟩ | ⟨e, f, hx, hf, hy⟩
        · dsimp only
          rw [hx, hy]
          exact Bench.mirrors_report hf (.ok .done) (some reports)
        · dsimp only
          rw [hx, hy]
          exact Bench.mirrors_report hf (.error (.session e)) (some reports)
    · rw [hx, hy]
      exact Bench.mirrors_report hc (.error (.session e)) none
  | .blockInfo types => Bench.mirrors_call hb (Emit.mirrors_blockInfo hfront types)
  | .define layout types => Bench.mirrors_call hb (Emit.mirrors_define layout types)
  | .defineStandard id index types => by
    have hmoved : (Step.defineStandard id index types).moved front.size =
        .defineStandard id index types := rfl
    rw [hmoved, Step.run, Step.run]
    cases (BlockKind.ofId? id).bind (·.abbrevs[index]?) with
    | none => exact Bench.mirrors_report hb (.error .noAbbrev) none
    | some a => exact Bench.mirrors_call hb (Emit.mirrors_define a.layout types)
  | .record code operands => Bench.mirrors_call hb (Emit.mirrors_record code operands)
  | .buffer step => Bench.mirrors_onBuffer hb hfront step
  | .content => Bench.mirrors_report hb (.ok (.bytes b.session.out.bytes)) none
termination_by structural step => step

theorem mirrors_runBody (hfront : front.size % 4 = 0) (b : Bench) (hb : b.session.out.Sized) :
    (steps : List Step) →
    BodyMirrors front (runBody b steps) (runBody (b.behind front) (movedAll front.size steps))
  | [] => ⟨hb, rfl⟩
  | step :: rest => by
    obtain ⟨hsized, hstep⟩ := mirrors_run hfront b hb step
    have hfailure : ((step.moved front.size).run (b.behind front)).1.failure? =
        (step.run b).1.failure? := by
      rw [hstep]
      exact Report.failure?_behind front _
    rw [movedAll]
    cases hf : (step.run b).1.failure? with
    | some e =>
      rw [hf] at hfailure
      rw [runBody_of_failure hf, runBody_of_failure hfailure, hstep]
      exact ⟨hsized, rfl⟩
    | none =>
      rw [hf] at hfailure
      rw [runBody_of_success hf, runBody_of_success hfailure, hstep]
      obtain ⟨hlast, hrest⟩ := mirrors_runBody hfront (step.run b).2 hsized rest
      rw [hrest]
      exact ⟨hlast, rfl⟩
termination_by structural steps => steps

end

theorem mirrors_runAll (hfront : front.size % 4 = 0) (b : Bench) (hb : b.session.out.Sized)
    (steps : List Step) :
    (b.behind front).reports (movedAll front.size steps) = reportsBehind front (b.reports steps) ∧
    (b.behind front).afterAll (movedAll front.size steps) = (b.afterAll steps).behind front ∧
    (b.afterAll steps).session.out.Sized := by
  induction steps generalizing b with
  | nil => exact ⟨rfl, rfl, hb⟩
  | cons step rest ih =>
    obtain ⟨hsized, hstep⟩ := mirrors_run hfront b hb step
    obtain ⟨hreports, hafter, hlast⟩ := ih (step.run b).2 hsized
    refine ⟨?_, ?_, hlast⟩
    · rw [movedAll, Bench.reports, hstep, hreports]
      rfl
    · rw [movedAll, Bench.afterAll, List.foldl_cons, hstep]
      exact hafter

end Steps

theorem start_behind (front : ByteArray) : start front = (start .empty).behind front := by
  have hempty : Buffer.ofBytes front = (Buffer.ofBytes .empty).behind front := by
    simp [Buffer.ofBytes, Buffer.behind]
  have hmagic : ((Buffer.ofBytes .empty).behind front).pushBytes Format.magic =
      ((Buffer.ofBytes .empty).pushBytes Format.magic).behind front :=
    Buffer.pushBytes_behind (Buffer.tidy_ofBytes .empty).sized Format.magic
  simp [start, hempty, behind, hmagic]

theorem finish_behind {front : ByteArray} (hfront : front.size % 4 = 0) {s : Session}
    (hs : s.out.Sized) : (s.behind front).finish = s.finish.map (front ++ ·) := by
  rw [finish, finish, innermost_behind]
  cases s.innermost with
  | none => exact congrArg (fun b : Buffer ↦ Except.ok b.bytes) (Buffer.align32_behind hfront hs)
  | some kind => rfl

/-- A session that appends to whole words runs a script as a fresh session does, with everything in
it moved on by these words. -/
theorem runs_behind {front : ByteArray} (hfront : front.size % 4 = 0) (steps : List Step) :
    let fresh : Bench := ⟨start .empty, #[]⟩
    let appended : Bench := ⟨start front, #[]⟩
    let moved := movedAll front.size steps
    appended.reports moved = reportsBehind front (fresh.reports steps) ∧
    appended.afterAll moved = (fresh.afterAll steps).behind front ∧
    (appended.afterAll moved).session.finish =
      (fresh.afterAll steps).session.finish.map (front ++ ·) := by
  intro fresh appended moved
  have hfresh : fresh.session.out.Sized :=
    (Buffer.grows_pushBytes _ _).sized (Buffer.tidy_ofBytes .empty).sized
  have happended : appended = fresh.behind front := by
    rw [Bench.behind, ← start_behind, Array.map_empty]
  obtain ⟨hreports, hafter, hsized⟩ := mirrors_runAll hfront fresh hfresh steps
  rw [happended]
  refine ⟨hreports, hafter, ?_⟩
  rw [hafter]
  exact finish_behind hfront hsized

theorem runs_behind_word :
    let front : ByteArray := ⟨#[1, 2, 3, 4]⟩
    let steps : List Step := [.block 8 [.record 1 [2], .buffer (.patch 0 7)], .openBlock 99]
    let fresh : Bench := ⟨start .empty, #[]⟩
    let appended : Bench := ⟨start front, #[]⟩
    let moved : List Step := [.block 8 [.record 1 [2], .buffer (.patch 4 7)], .openBlock 99]
    let bytes : ByteArray := ⟨#[7, 0, 0, 0, 33, 12, 0, 0, 1, 0, 0, 0, 11, 2, 1, 0]⟩
    front.size % 4 = 0 ∧ appended.reports moved = reportsBehind front (fresh.reports steps) ∧
      (fresh.afterAll steps).session.finish = .ok bytes ∧
      (appended.afterAll moved).session.finish = .ok (front ++ bytes) := by
  intro front steps fresh appended moved bytes
  have hfront : front.size % 4 = 0 := by decide
  have hfresh : (fresh.afterAll steps).session.finish = .ok bytes := by decide +kernel
  obtain ⟨hreports, -, hfinish⟩ := runs_behind hfront steps
  rw [hfresh] at hfinish
  exact ⟨hfront, hreports, hfresh, hfinish⟩

end BlockStream.Session
