import BlockStream.Cursor.Steady
import BlockStream.Decode

namespace BlockStream.Decode

open Format

abbrev IsSteady {α : Type} (x : Decode α) : Prop := Steady State.cursor x

theorem steady_read {α : Type} {x : Read α} (hx : Steady id x) : IsSteady (read x) := by
  intro s
  have h := hx s.cursor
  simp only [read]
  cases hs : x s.cursor <;> rw [hs] at h <;> exact h

theorem steady_readOr {α : Type} (e : DecodeError) {x : Read α} (hx : Steady id x) :
    IsSteady (readOr e x) := by
  intro s
  have h := hx s.cursor
  simp only [readOr]
  cases hs : x s.cursor with
  | ok a c => rw [hs] at h; exact h
  | error f c =>
    rw [hs] at h
    cases f <;> exact h

theorem steady_note (e : Event) : IsSteady (note e) := .modify fun _ ↦ rfl

theorem steady_require {p : Prop} [Decidable p] (e : DecodeError) : IsSteady (require p e) :=
  .ite (.pure _) (.throw _)

theorem steady_difference (a b : Nat) : IsSteady (difference a b) := .ite (.pure _) (.throw _)

theorem steady_vbr (width : Nat) : IsSteady (read (Read.vbr width)) :=
  steady_read (Read.steady_vbr width)

theorem steady_header : IsSteady header :=
  .bind (steady_vbr _) fun _ ↦ .bind (steady_require _) fun _ ↦
    .bind (steady_vbr _) fun _ ↦ .bind (steady_require _) fun _ ↦
      .bind (steady_read Read.steady_align32) fun _ ↦
        .bind (steady_read (Read.steady_field _)) fun _ ↦
          .bind (steady_read Read.steady_byteOffset) fun _ ↦
            .bind (steady_note _) fun _ ↦ .pure _

theorem steady_close (h : Header) (bodyStart : Nat) : IsSteady (close h bodyStart) :=
  .bind (steady_readOr _ Read.steady_align32) fun _ ↦
    .bind (steady_read Read.steady_byteOffset) fun _ ↦
      .bind (steady_difference _ _) fun _ ↦ steady_require _

theorem steady_operandWidth : IsSteady operandWidth :=
  .bind (steady_vbr _) fun _ ↦ .bind (steady_require _) fun _ ↦ .pure _

theorem steady_encoded : IsSteady encoded := by
  refine .bind (steady_read (Read.steady_field _)) fun tag ↦ ?_
  split
  · exact .throw _
  · exact .map _ steady_operandWidth
  · exact .map _ steady_operandWidth
  · exact .pure _
  · exact .pure _
  · exact .pure _

theorem steady_operand : IsSteady operand := by
  refine .bind (steady_read Read.steady_bool) fun literal ↦ ?_
  split
  · exact .map _ (steady_vbr _)
  · exact steady_encoded

theorem steady_repeated {α : Type} {x : Decode α} (hx : IsSteady x) (count : Nat)
    (seen : List α) : IsSteady (repeated x count seen) := by
  induction count generalizing seen with
  | zero => exact .pure _
  | succ count ih => exact .bind hx fun a ↦ ih (a :: seen)

theorem steady_definition : IsSteady definition :=
  .bind (steady_vbr _) fun _ ↦ .bind (steady_repeated steady_operand _ _) fun _ ↦ .pure _

theorem steady_record : IsSteady record :=
  .bind (steady_vbr _) fun _ ↦ .bind (steady_vbr _) fun _ ↦
    .bind (steady_repeated (steady_vbr _) _ _) fun _ ↦ .pure _

theorem steady_marker (h : Header) : IsSteady (marker h) :=
  .bind .get fun _ ↦ .bind (steady_require _) fun _ ↦
    steady_readOr _ (Read.steady_field _)

theorem steady_item {child : Decode Item} (hc : IsSteady child) (id : UInt64) :
    IsSteady (item child id) :=
  .ite hc (.ite steady_definition (.ite steady_record (.throw _)))

theorem ok_of_require {p : Prop} [Decidable p] {e : DecodeError} {s t : State} {u : Unit}
    (h : require p e s = .ok u t) : p ∧ t = s := by
  unfold require at h
  split at h
  · cases h
    exact ⟨by assumption, rfl⟩
  · cases h

theorem ok_of_read {α : Type} {x : Read α} {s t : State} {a : α} (h : read x s = .ok a t) :
    x s.cursor = .ok a t.cursor := by
  simp only [read] at h
  split at h <;> cases h
  assumption

theorem ok_of_readOr {α : Type} {x : Read α} {e : DecodeError} {s t : State} {a : α}
    (h : readOr e x s = .ok a t) : x s.cursor = .ok a t.cursor := by
  simp only [readOr] at h
  split at h <;> cases h
  assumption

theorem left_lt_of_marker {h : Header} {s t : State} {id : UInt64} (hm : marker h s = .ok id t)
    (hid : id ≠ 0) : t.cursor.left < s.cursor.left := by
  obtain ⟨_, _, hg, h1⟩ := ok_of_bind hm
  cases hg
  obtain ⟨_, _, hr, h2⟩ := ok_of_bind h1
  obtain ⟨-, rfl⟩ := ok_of_require hr
  have hf := ok_of_readOr h2
  exact Read.left_lt_of_field hf (Read.width_pos_of_field hf hid)

theorem left_lt_of_item {child : Decode Item} (hc : IsSteady child) {h : Header}
    {s t u : State} {id : UInt64} {i : Item} (hm : marker h s = .ok id t) (hid : id ≠ 0)
    (hi : item child id t = .ok i u) : u.cursor.left < s.cursor.left := by
  have hu := (steady_item hc id t).left_le
  rw [hi] at hu
  exact Nat.lt_of_le_of_lt hu (left_lt_of_marker hm hid)

theorem left_lt_of_marked {α : Type} {x : Decode α} (hx : IsSteady x) {width : Nat}
    {p : UInt64 → Prop} [DecidablePred p] {e : UInt64 → DecodeError} {s t : State} {a : α}
    (h : (do
      let id ← read (Read.field (width + 1))
      require (p id) (e id)
      x) s = .ok a t) : t.cursor.left < s.cursor.left := by
  obtain ⟨_, u, hf, h1⟩ := ok_of_bind h
  obtain ⟨_, v, hr, h2⟩ := ok_of_bind h1
  obtain ⟨-, rfl⟩ := ok_of_require hr
  exact Nat.lt_of_le_of_lt (hx.of_eq h2).left_le
    (Read.left_lt_of_field (ok_of_read hf) (Nat.succ_pos _))

end BlockStream.Decode
