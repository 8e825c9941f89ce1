import BlockStream.Proofs.Session.Script

namespace BlockStream

/-- The sessions differ at most in what they have reported. -/
structure Session.Agrees (s t : Session) : Prop where
  out : t.out = s.out
  frames : t.frames = s.frames

namespace Session.Agrees

variable {s t u : Session}

theorem refl (s : Session) : s.Agrees s := ⟨rfl, rfl⟩

theorem symm (h : s.Agrees t) : t.Agrees s := ⟨h.out.symm, h.frames.symm⟩

theorem trans (h : s.Agrees t) (k : t.Agrees u) : s.Agrees u :=
  ⟨k.out.trans h.out, k.frames.trans h.frames⟩

theorem innermost_eq (h : s.Agrees t) : t.innermost = s.innermost := by
  rw [innermost, innermost, h.frames]

theorem width_eq (h : s.Agrees t) : t.width = s.width := by rw [width, width, h.innermost_eq]

theorem depth_eq (h : s.Agrees t) : t.depth = s.depth := by rw [depth, depth, h.frames]

theorem status_eq (h : s.Agrees t) : t.status = s.status := by
  rw [status, status, h.depth_eq, h.width_eq, h.innermost_eq, h.out]

theorem finish_eq (h : s.Agrees t) : t.finish = s.finish := by
  rw [finish, finish, h.innermost_eq, h.out]

end Session.Agrees

namespace Emit

inductive SameResult {α : Type} : EStateM.Result (Fault EncodeError) Session α →
    EStateM.Result (Fault EncodeError) Session α → Prop
  | ok {a : α} {s t : Session} (agrees : s.Agrees t) : SameResult (.ok a s) (.ok a t)
  | error {e : Fault EncodeError} {s t : Session} (agrees : s.Agrees t) :
      SameResult (.error e s) (.error e t)

/-- The computation does the same in sessions that agree. -/
def Unlogged {α : Type} (x : Emit α) : Prop :=
  ∀ s t : Session, s.Agrees t → SameResult (x s) (x t)

namespace Unlogged

variable {α β : Type}

theorem pure (a : α) : Unlogged (pure a) := fun _ _ h ↦ .ok h

theorem throw (e : Fault EncodeError) : Unlogged (throw e : Emit α) := fun _ _ h ↦ .error h

theorem modify {f : Session → Session} (hf : ∀ {s t : Session}, s.Agrees t → (f s).Agrees (f t)) :
    Unlogged (modify f) := fun _ _ h ↦ .ok (hf h)

theorem bind {x : Emit α} {f : α → Emit β} (hx : Unlogged x) (hf : ∀ a, Unlogged (f a)) :
    Unlogged (x >>= f) := by
  intro s t h
  have hresult := hx s t h
  generalize hs : x s = r at hresult
  generalize ht : x t = q at hresult
  cases hresult with
  | ok agrees =>
    rw [bind_of_ok hs, bind_of_ok ht]
    exact hf _ _ _ agrees
  | error agrees =>
    rw [bind_of_error hs, bind_of_error ht]
    exact .error agrees

theorem get_bind {f : Session → Emit α} (hf : ∀ s, Unlogged (f s))
    (hsame : ∀ out frames log other, f ⟨out, frames, other⟩ = f ⟨out, frames, log⟩) :
    Unlogged (get >>= f) := by
  rintro ⟨_, _, log⟩ ⟨out, frames, other⟩ ⟨rfl, rfl⟩
  change SameResult (f ⟨out, frames, log⟩ _) (f ⟨out, frames, other⟩ _)
  rw [hsame out frames log other]
  exact hf _ _ _ ⟨rfl, rfl⟩

theorem require (p : Prop) [Decidable p] (e : EncodeError) : Unlogged (Emit.require p e) := by
  unfold Emit.require
  split
  · exact .pure ()
  · exact .throw _

theorem difference (minuend subtrahend : Nat) :
    Unlogged (difference minuend subtrahend : Emit Nat) := by
  unfold BlockStream.difference
  split
  · exact .pure _
  · exact .throw _

theorem forM {f : α → Emit Unit} (hf : ∀ a, Unlogged (f a)) (xs : List α) :
    Unlogged (xs.forM f) := by
  induction xs with
  | nil => exact .pure ()
  | cons x xs ih => exact .bind (hf x) fun _ ↦ ih

end Unlogged

theorem unlogged_note (e : Event) : Unlogged (note e) := .modify fun h ↦ ⟨h.out, h.frames⟩

theorem unlogged_write (f : Buffer → Buffer) : Unlogged (write f) :=
  .modify fun h ↦ ⟨congrArg f h.out, h.frames⟩

theorem unlogged_emit (fields : Nat → List Field) : Unlogged (emit fields) :=
  .modify fun h ↦ ⟨by rw [h.width_eq, h.out], h.frames⟩

theorem onBuffer_of_error {α : Type} {x : Write α} {s : Session} {e : Fault EncodeError}
    {b : Buffer} (h : x s.out = .error e b) : onBuffer x s = .error e { s with out := b } := by
  rw [onBuffer, h]

theorem unlogged_onBuffer {α : Type} (x : Write α) : Unlogged (onBuffer x) := by
  intro s t h
  have hout := h.out
  cases hx : x s.out with
  | ok a b =>
    rw [onBuffer_of_ok hx, onBuffer_of_ok (hout ▸ hx)]
    exact .ok ⟨rfl, h.frames⟩
  | error e b =>
    rw [onBuffer_of_error hx, onBuffer_of_error (hout ▸ hx)]
    exact .error ⟨rfl, h.frames⟩

theorem unlogged_record (code : UInt32) (operands : List UInt64) :
    Unlogged (record code operands) := unlogged_emit _

theorem unlogged_define (layout : Layout) (types : UInt32) : Unlogged (define layout types) :=
  .bind (.require _ _) fun _ ↦ unlogged_emit _

theorem unlogged_beginBlock (id : UInt32) : Unlogged (beginBlock id) := by
  unfold beginBlock
  cases BlockKind.ofId? id with
  | none => exact .bind (unlogged_note _) fun _ ↦ .throw _
  | some kind =>
    refine .bind (unlogged_emit _) fun _ ↦ .bind (unlogged_write _) fun _ ↦ ?_
    refine .bind (unlogged_onBuffer _) fun offset ↦ .bind (unlogged_write _) fun _ ↦ ?_
    refine .bind (.modify fun h ↦ ⟨h.out, by rw [h.frames]⟩) fun _ ↦ ?_
    exact .bind (unlogged_note _) fun _ ↦ .get_bind (fun _ ↦ .pure _) fun _ _ _ _ ↦ rfl

theorem unlogged_endBlock (scope : Scope) : Unlogged (endBlock scope) := by
  obtain ⟨⟨kind, start⟩, depth⟩ := scope
  refine .get_bind (fun s ↦ ?_) fun _ _ _ _ ↦ rfl
  refine .bind (.require _ _) fun _ ↦ .bind (unlogged_emit _) fun _ ↦ ?_
  refine .bind (unlogged_write _) fun _ ↦ .bind (unlogged_onBuffer _) fun offset ↦ ?_
  refine .bind (.difference _ _) fun bytes ↦ .bind (.require _ _) fun _ ↦ ?_
  refine .bind (unlogged_onBuffer _) fun _ ↦ ?_
  exact .bind (.modify fun h ↦ ⟨h.out, by rw [h.frames]⟩) fun _ ↦ unlogged_note _

theorem unlogged_blockInfo (types : UInt32) : Unlogged (blockInfo types) := by
  refine .bind (.require _ _) fun _ ↦ .bind (unlogged_note _) fun _ ↦ ?_
  refine .bind (unlogged_beginBlock _) fun scope ↦ ?_
  refine .bind (.forM (fun kind ↦ ?_) _) fun _ ↦ unlogged_endBlock scope
  exact .bind (unlogged_record _ _) fun _ ↦ .forM (fun a ↦ unlogged_define _ _) _

end Emit

end BlockStream
