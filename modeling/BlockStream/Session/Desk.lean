import BlockStream.Session.Script

namespace BlockStream

open Session (Bench Report Refusal Answer)

structure Desk where
  /-- A finished session leaves an empty place. -/
  sessions : Array (Option Session)
  current : Nat := 0
  slots : Array (Option Scope) := #[]
  log : Array Event := #[]

namespace Desk

inductive Step
  /-- Make another session current; the number one past the last starts a new session. -/
  | use (index : Nat)
  | finish
  | step (step : Session.Step)

inductive Outcome
  | switched
  | finished (result : Except EncodeError ByteArray)
  | report (r : Report)
  | noSession

def start (existing : ByteArray) : Desk := { sessions := #[some (Session.start existing)] }

def putBack (d : Desk) (b : Bench) : Desk :=
  { d with
    sessions := d.sessions.setIfInBounds d.current (some { b.session with log := #[] })
    slots := b.slots
    log := d.log ++ b.session.log }

def run (d : Desk) : Step → Outcome × Desk
  | .use index =>
    let sessions :=
      if index = d.sessions.size then d.sessions.push (some (Session.start .empty)) else d.sessions
    (.switched, { d with sessions, current := index })
  | .finish =>
    match d.sessions[d.current]?.join with
    | none => (.noSession, d)
    | some s =>
      (.finished s.finish, { d with sessions := d.sessions.setIfInBounds d.current none })
  | .step step =>
    match d.sessions[d.current]?.join with
    | none => (.noSession, d)
    | some session =>
      let ⟨sessions, current, slots, log⟩ := d
      let (report, b) := step.run ⟨session, slots⟩
      (.report report, putBack ⟨sessions.setIfInBounds current none, current, #[], log⟩ b)

def runAll (d : Desk) (steps : List Step) : List Outcome × Desk :=
  let (outcomes, d) := steps.foldl (fun (outcomes, d) step ↦
    let (outcome, d) := d.run step
    (outcomes.push outcome, d)) ((#[] : Array Outcome), d)
  (outcomes.toList, d)

def contents (d : Desk) : List (Option ByteArray) :=
  d.sessions.toList.map fun s ↦ s.map (·.out.bytes)

end Desk

end BlockStream
