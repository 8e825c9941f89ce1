import BlockStream.Session

namespace BlockStream.Session

inductive Step
  /-- Open a block; its scope takes the next slot. -/
  | openBlock (id : UInt32)
  /-- Close a block with the scope in a slot, which is empty afterwards. -/
  | closeBlock (slot : Nat)
  | block (id : UInt32) (body : List Step)
  | blockInfo (types : UInt32)
  | define (layout : Layout) (types : UInt32)
  /-- Define a standard abbreviation, by its block kind and its place there. -/
  | defineStandard (id : UInt32) (index : Nat) (types : UInt32)
  | record (code : UInt32) (operands : List UInt64)
  | buffer (step : Buffer.Step)
  | content

inductive Answer
  | done
  | opened (slot : Nat) (scope : Scope)
  | buffer (answer : Buffer.Answer)
  | bytes (bytes : ByteArray)

inductive Refusal
  | session (cause : Fault EncodeError)
  | buffer (cause : Fault EncodeError)
  | noScope
  | noAbbrev

structure Status where
  depth : Nat
  width : Nat
  innermost : Option BlockKind
  bitLen : Nat

def status (s : Session) : Status := ⟨s.depth, s.width, s.innermost, s.out.bitLen⟩

/-- The outcome of a step, the session after it, and the reports of a body it entered. -/
inductive Report
  | mk (outcome : Except Refusal Answer) (after : Status) (body : Option (List Report))

namespace Report

def outcome : Report → Except Refusal Answer
  | mk outcome _ _ => outcome

/-- The error of the session that a step failed with, which ends the body it stands in. -/
def failure? (r : Report) : Option EncodeError :=
  match r.outcome with
  | .error (.session (.error e)) => some e
  | _ => none

end Report

/-- A session and the slots of the scopes in use. -/
structure Bench where
  session : Session
  slots : Array (Option Scope)

namespace Bench

def report (b : Bench) (outcome : Except Refusal Answer) (body : Option (List Report) := none) :
    Report × Bench :=
  (.mk outcome b.session.status body, b)

def perform {α : Type} (x : Emit α) : Bench → Except (Fault EncodeError) α × Bench
  | ⟨session, slots⟩ =>
    match x session with
    | .ok a session => (.ok a, ⟨session, slots⟩)
    | .error e session => (.error e, ⟨session, slots⟩)

theorem perform_of_ok {α : Type} {x : Emit α} {b : Bench} {a : α} {t : Session}
    (h : x b.session = .ok a t) : b.perform x = (.ok a, ⟨t, b.slots⟩) := by
  simp only [perform, h]

theorem perform_of_error {α : Type} {x : Emit α} {b : Bench} {e : Fault EncodeError} {t : Session}
    (h : x b.session = .error e t) : b.perform x = (.error e, ⟨t, b.slots⟩) := by
  simp only [perform, h]

def call (b : Bench) (x : Emit Unit) : Report × Bench :=
  let (outcome, b) := b.perform x
  b.report ((outcome.map fun _ ↦ .done).mapError .session)

def onBuffer (b : Bench) (step : Buffer.Step) : Report × Bench :=
  let (outcome, b) := b.perform (Emit.onBuffer step.run)
  b.report ((outcome.map .buffer).mapError .buffer)

def openBlock (b : Bench) (id : UInt32) : Report × Bench :=
  match b.perform (Emit.beginBlock id) with
  | (.ok scope, b) =>
    let slot := b.slots.size
    { b with slots := b.slots.push (some scope) }.report (.ok (.opened slot scope))
  | (.error e, b) => b.report (.error (.session e))

def closeBlock (b : Bench) (slot : Nat) : Report × Bench :=
  match b.slots[slot]?.join with
  | some scope =>
    { b with slots := b.slots.setIfInBounds slot none }.call (Emit.endBlock scope)
  | none => b.report (.error .noScope)

end Bench

mutual

def Step.run (b : Bench) : Step → Report × Bench
  | .openBlock id => b.openBlock id
  | .closeBlock slot => b.closeBlock slot
  | .block id body =>
    match b.perform (Emit.beginBlock id) with
    | (.error e, b) => b.report (.error (.session e))
    | (.ok scope, b) =>
      let (failure, reports, b) := runBody b body
      match failure with
      | some e => b.report (.error (.session (.error e))) (some reports)
      | none =>
        let (outcome, b) := b.perform (Emit.endBlock scope)
        b.report ((outcome.map fun _ ↦ .done).mapError .session) (some reports)
  | .blockInfo types => b.call (Emit.blockInfo types)
  | .define layout types => b.call (Emit.define layout types)
  | .defineStandard id index types =>
    match (BlockKind.ofId? id).bind (·.abbrevs[index]?) with
    | some a => b.call (Emit.define a.layout types)
    | none => b.report (.error .noAbbrev)
  | .record code operands => b.call (Emit.record code operands)
  | .buffer step => b.onBuffer step
  | .content => b.report (.ok (.bytes b.session.out.bytes))
termination_by structural step => step

/-- Run steps up to the first whose failure ends the body, and tell that failure. -/
def runBody (b : Bench) : List Step → Option EncodeError × List Report × Bench
  | [] => (none, [], b)
  | step :: rest =>
    let (report, b) := step.run b
    match report.failure? with
    | some e => (some e, [report], b)
    | none =>
      let (failure, reports, b) := runBody b rest
      (failure, report :: reports, b)
termination_by structural steps => steps

end

theorem runBody_of_failure {b : Bench} {step : Step} {e : EncodeError}
    (h : (step.run b).1.failure? = some e) (rest : List Step) :
    runBody b (step :: rest) = (some e, [(step.run b).1], (step.run b).2) := by
  rw [runBody]
  rcases hr : step.run b with ⟨report, c⟩
  rw [hr] at h
  simp only [h]

theorem runBody_of_success {b : Bench} {step : Step} (h : (step.run b).1.failure? = none)
    (rest : List Step) :
    runBody b (step :: rest) =
      ((runBody (step.run b).2 rest).1, (step.run b).1 :: (runBody (step.run b).2 rest).2.1,
        (runBody (step.run b).2 rest).2.2) := by
  rw [runBody]
  rcases hr : step.run b with ⟨report, c⟩
  rw [hr] at h
  simp only [h]

end BlockStream.Session
