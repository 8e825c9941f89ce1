import BlockStream.Proofs.Buffer.Behind
import BlockStream.Proofs.Session.Framing

namespace BlockStream

def Frame.moved (bytes : Nat) (f : Frame) : Frame :=
  { f with lengthOffset := bytes + f.lengthOffset }

def Scope.moved (bytes : Nat) (scope : Scope) : Scope :=
  { scope with frame := scope.frame.moved bytes }

theorem Frame.moved_injective (bytes : Nat) : (Frame.moved bytes).Injective := by
  rintro ⟨kind, offset⟩ ⟨kind', offset'⟩ h
  simpa [moved] using h

/-- The event that is told where so many further bytes stand in front. -/
def Event.moved (bytes : Nat) : Event → Event
  | .entered kind offset => .entered kind (bytes + offset)
  | e => e

/-- The session with other bytes put in front of its output. -/
def Session.behind (front : ByteArray) (s : Session) : Session :=
  ⟨s.out.behind front, s.frames.map (.moved front.size), s.log.map (.moved front.size)⟩

namespace Session

variable {front : ByteArray} {s : Session}

theorem head?_frames_behind :
    (s.behind front).frames.head? = s.frames.head?.map (.moved front.size) := List.head?_map

@[simp] theorem depth_behind : (s.behind front).depth = s.depth := List.length_map _

@[simp] theorem innermost_behind : (s.behind front).innermost = s.innermost := by
  rw [innermost, head?_frames_behind, Option.map_map]
  rfl

@[simp] theorem width_behind : (s.behind front).width = s.width := by
  rw [width, innermost_behind, width]

end Session

namespace Emit

/-- What `x` does in a session, `y` does in it behind `front`. -/
structure Mirrors {α β : Type} (front : ByteArray) (value : α → β) (x : Emit α) (y : Emit β) :
    Prop where
  sized : ∀ s : Session, s.out.Sized → (finalState (x s)).out.Sized
  run_eq : ∀ s : Session, s.out.Sized →
    y (s.behind front) = resultMoved front.size (Session.behind front) value (x s)

namespace Mirrors

variable {α β γ δ : Type} {front : ByteArray} {value : α → β} {other : γ → δ}

theorem pure (a : α) : Mirrors front value (pure a) (pure (value a)) :=
  ⟨fun _ h ↦ h, fun _ _ ↦ rfl⟩

theorem fail (e : EncodeError) : Mirrors front value (Emit.fail e) (Emit.fail e) :=
  ⟨fun _ h ↦ h, fun _ _ ↦ rfl⟩

theorem get : Mirrors front (Session.behind front) get get := ⟨fun _ h ↦ h, fun _ _ ↦ rfl⟩

theorem bind {x : Emit α} {y : Emit β} {f : α → Emit γ} {g : β → Emit δ}
    (h : Mirrors front value x y) (k : ∀ a, Mirrors front other (f a) (g (value a))) :
    Mirrors front other (x >>= f) (y >>= g) := by
  constructor
  · intro s hs
    have hsized := h.sized s hs
    cases hx : x s with
    | ok a t =>
      rw [hx] at hsized
      rw [bind_of_ok hx]
      exact (k a).sized t hsized
    | error e t =>
      rw [hx] at hsized
      rwa [bind_of_error hx]
  · intro s hs
    have hsized := h.sized s hs
    have hrun := h.run_eq s hs
    cases hx : x s with
    | ok a t =>
      rw [hx] at hsized hrun
      rw [bind_of_ok hx, bind_of_ok hrun]
      exact (k a).run_eq t hsized
    | error e t =>
      rw [hx] at hrun
      rw [bind_of_error hx, bind_of_error hrun]
      rfl

theorem modify {f g : Session → Session} (hsized : ∀ s : Session, s.out.Sized → (f s).out.Sized)
    (h : ∀ s : Session, s.out.Sized → g (s.behind front) = (f s).behind front) :
    Mirrors front id (modify f) (modify g) :=
  ⟨hsized, fun s hs ↦ modify_moved (h s hs)⟩

theorem onBuffer {x : Write α} {y : Write β} (hgrows : ∀ b : Buffer, b.Grows (finalState (x b)))
    (h : ∀ b : Buffer, b.Sized →
      y (b.behind front) = resultMoved front.size (Buffer.behind front) value (x b)) :
    Mirrors front value (onBuffer x) (onBuffer y) := by
  constructor
  · intro s hs
    rw [finalState_onBuffer]
    exact (hgrows s.out).sized hs
  · intro s hs
    have hrun := h s.out hs
    cases hx : x s.out with
    | ok a b =>
      rw [hx] at hrun
      simp only [Emit.onBuffer, Session.behind, hx, hrun, resultMoved]
    | error e b =>
      rw [hx] at hrun
      simp only [Emit.onBuffer, Session.behind, hx, hrun, resultMoved]

theorem require {p q : Prop} [Decidable p] [Decidable q] (h : p ↔ q) (e : EncodeError) :
    Mirrors front id (Emit.require p e) (Emit.require q e) := by
  unfold Emit.require
  by_cases hp : p
  · rw [if_pos hp, if_pos (h.mp hp)]
    exact .pure ()
  · rw [if_neg hp, if_neg (mt h.mpr hp)]
    exact .fail e

end Mirrors

section Operations

variable {front : ByteArray}

theorem mirrors_note (e : Event) : Mirrors front id (note e) (note (e.moved front.size)) :=
  .modify (fun _ hs ↦ hs) fun s _ ↦ by simp [Session.behind]

theorem mirrors_write {f : Buffer → Buffer} (hgrows : ∀ b : Buffer, b.Grows (f b))
    (h : ∀ {b : Buffer}, b.Sized → f (b.behind front) = (f b).behind front) :
    Mirrors front id (write f) (write f) :=
  .modify (fun s hs ↦ (hgrows s.out).sized hs) fun s hs ↦ by simp [Session.behind, h hs]

theorem mirrors_emit (fields : Nat → List Field) : Mirrors front id (emit fields) (emit fields) :=
  .modify (fun s hs ↦ (Buffer.grows_pushAll s.out _).sized hs) fun s hs ↦ by
    rw [Session.width_behind]
    simp only [Session.behind, Buffer.pushAll_behind hs]

theorem mirrors_difference (minuend subtrahend : Nat) :
    Mirrors front id (difference minuend subtrahend)
      (difference (front.size + minuend) (front.size + subtrahend)) := by
  unfold difference
  by_cases hle : subtrahend ≤ minuend
  · rw [if_pos hle, if_pos (Nat.add_le_add_left hle _), Nat.add_sub_add_left]
    exact .pure _
  · rw [if_neg hle, if_neg (mt Nat.le_of_add_le_add_left hle)]
    exact ⟨fun _ hs ↦ hs, fun _ _ ↦ rfl⟩

theorem mirrors_byteOffset :
    Mirrors front (front.size + ·) (onBuffer Write.byteOffset) (onBuffer Write.byteOffset) := by
  refine .onBuffer (fun b ↦ ?_) fun _ _ ↦ Buffer.byteOffset_behind
  simpa only [Buffer.Step.run, finalState_map] using Buffer.grows_run b .byteOffset

theorem mirrors_patch (offset : Nat) (word : UInt32) :
    Mirrors front id (onBuffer (Write.patch offset word))
      (onBuffer (Write.patch (front.size + offset) word)) := by
  refine .onBuffer (fun b ↦ ?_) fun _ _ ↦ Buffer.patch_behind offset word
  simpa only [Buffer.Step.run, finalState_map] using Buffer.grows_run b (.patch offset word)

theorem mirrors_record (code : UInt32) (operands : List UInt64) :
    Mirrors front id (record code operands) (record code operands) := mirrors_emit _

theorem mirrors_define (layout : Layout) (types : UInt32) :
    Mirrors front id (define layout types) (define layout types) :=
  .bind (.require .rfl _) fun _ ↦ mirrors_emit _

theorem mirrors_forM {α : Type} {f : α → Emit Unit} (h : ∀ a, Mirrors front id (f a) (f a))
    (xs : List α) : Mirrors front id (xs.forM f) (xs.forM f) := by
  induction xs with
  | nil => exact .pure ()
  | cons x xs ih => exact .bind (h x) fun _ ↦ ih

variable (hfront : front.size % 4 = 0)
include hfront

theorem mirrors_align32 : Mirrors front id (write Buffer.align32) (write Buffer.align32) :=
  mirrors_write Buffer.grows_align32 fun hb ↦ Buffer.align32_behind hfront hb

theorem mirrors_beginBlock (id : UInt32) :
    Mirrors front (Scope.moved front.size) (beginBlock id) (beginBlock id) := by
  unfold beginBlock
  cases BlockKind.ofId? id with
  | none => exact .bind (mirrors_note _) fun _ ↦ .fail _
  | some kind =>
    refine .bind (mirrors_emit _) fun _ ↦ .bind (mirrors_align32 hfront) fun _ ↦ ?_
    refine .bind mirrors_byteOffset fun offset ↦ ?_
    refine .bind (mirrors_write (fun b ↦ Buffer.grows_push b _) fun hb ↦ Buffer.push_behind hb _)
      fun _ ↦ ?_
    refine .bind (.modify (fun _ hs ↦ hs) fun _ _ ↦ rfl) fun _ ↦ ?_
    refine .bind (mirrors_note (.entered kind offset)) fun _ ↦ .bind .get fun s ↦ ?_
    rw [Session.depth_behind]
    exact .pure (⟨⟨kind, offset⟩, s.depth⟩ : Scope)

theorem mirrors_endBlock (scope : Scope) :
    Mirrors front id (endBlock scope) (endBlock (scope.moved front.size)) := by
  obtain ⟨⟨kind, start⟩, depth⟩ := scope
  refine .bind .get fun s ↦ ?_
  have hmatch : (s.frames.head? = some ⟨kind, start⟩ ∧ depth = s.depth) ↔
      ((s.behind front).frames.head? = some ⟨kind, front.size + start⟩ ∧
        depth = (s.behind front).depth) := by
    have hinj := Option.map_injective (Frame.moved_injective front.size)
    rw [Session.depth_behind, Session.head?_frames_behind]
    exact and_congr_left' (hinj.eq_iff (b := some ⟨kind, start⟩)).symm
  rw [Session.innermost_behind]
  refine .bind (.require hmatch _) fun _ ↦ .bind (mirrors_emit _) fun _ ↦ ?_
  refine .bind (mirrors_align32 hfront) fun _ ↦ .bind mirrors_byteOffset fun offset ↦ ?_
  refine .bind (mirrors_difference offset (start + 4)) fun bytes ↦ ?_
  refine .bind (.require .rfl _) fun _ ↦ .bind (mirrors_patch start _) fun _ ↦ ?_
  refine .bind (.modify (fun _ hs ↦ hs) fun _ _ ↦ ?_) fun _ ↦ mirrors_note (.exited kind _)
  simp [Session.behind]

theorem mirrors_blockInfo (types : UInt32) :
    Mirrors front id (blockInfo types) (blockInfo types) := by
  refine .bind (.require .rfl _) fun _ ↦ .bind (mirrors_note _) fun _ ↦ ?_
  refine .bind (mirrors_beginBlock hfront _) fun scope ↦ ?_
  refine .bind (mirrors_forM (fun kind ↦ ?_) _) fun _ ↦ mirrors_endBlock hfront scope
  exact .bind (mirrors_record _ _) fun _ ↦ mirrors_forM (fun a ↦ mirrors_define _ _) _

end Operations

end Emit

end BlockStream
