import BlockStream.Cursor.Field

namespace BlockStream

namespace Cursor

/-- Whether `d` stands in the same bytes as `c`, and not before it. -/
structure Reaches (c d : Cursor) : Prop where
  bytes_eq : d.bytes = c.bytes
  pos_le : c.pos ≤ d.pos

theorem Reaches.refl (c : Cursor) : c.Reaches c := ⟨rfl, Nat.le_refl _⟩

theorem Reaches.trans {c d e : Cursor} (h : c.Reaches d) (k : d.Reaches e) : c.Reaches e :=
  ⟨k.bytes_eq.trans h.bytes_eq, Nat.le_trans h.pos_le k.pos_le⟩

theorem Reaches.left_le {c d : Cursor} (h : c.Reaches d) : d.left ≤ c.left := by
  simp only [left, bitLen, h.bytes_eq]
  exact Nat.sub_le_sub_left h.pos_le _

end Cursor

/-- Steadiness of a computation whose state has a cursor in it. -/
def Steady {ε σ α : Type} (cursor : σ → Cursor) (x : EStateM ε σ α) : Prop :=
  ∀ s, (cursor s).Reaches (cursor (finalState (x s)))

namespace Steady

variable {ε σ α β : Type} {cursor : σ → Cursor}

theorem of_eq {x : EStateM ε σ α} (hx : Steady cursor x) {s : σ} {r : EStateM.Result ε σ α}
    (h : x s = r) : (cursor s).Reaches (cursor (finalState r)) := h ▸ hx s

theorem pure (a : α) : Steady cursor (pure a : EStateM ε σ α) := fun _ ↦ .refl _

theorem throw (e : ε) : Steady cursor (throw e : EStateM ε σ α) := fun _ ↦ .refl _

theorem bind {x : EStateM ε σ α} {f : α → EStateM ε σ β} (hx : Steady cursor x)
    (hf : ∀ a, Steady cursor (f a)) : Steady cursor (x >>= f) := by
  intro s
  have h := hx s
  show (cursor s).Reaches (cursor (finalState (EStateM.bind x f s)))
  unfold EStateM.bind
  cases hs : x s with
  | ok a t => rw [hs] at h; exact h.trans (hf a t)
  | error e t => rw [hs] at h; exact h

theorem map {x : EStateM ε σ α} (f : α → β) (hx : Steady cursor x) : Steady cursor (f <$> x) :=
  bind hx fun a ↦ pure (f a)

theorem get : Steady cursor (get : EStateM ε σ σ) := fun _ ↦ .refl _

theorem modify {f : σ → σ} (h : ∀ s, cursor (f s) = cursor s) :
    Steady cursor (modify f : EStateM ε σ Unit) := fun s ↦ by
  show (cursor s).Reaches (cursor (f s))
  rw [h]
  exact .refl _

theorem ite {p : Prop} [Decidable p] {x y : EStateM ε σ α} (hx : Steady cursor x)
    (hy : Steady cursor y) : Steady cursor (if p then x else y) := by
  split <;> assumption

end Steady

namespace Read

theorem steady_ensure (bits : Nat) : Steady id (ensure bits) := by
  intro c
  simp only [ensure]
  split <;> exact .refl _

theorem steady_advance (bits : Nat) : Steady id (advance bits) :=
  fun _ ↦ ⟨rfl, Nat.le_add_right ..⟩

theorem steady_skip (bits : Nat) : Steady id (skip bits) :=
  .bind (steady_ensure bits) fun _ ↦ steady_advance bits

theorem steady_field (width : Nat) : Steady id (field width) := by
  intro c
  rw [field_eq]
  split
  · exact .refl _
  · split
    · exact ⟨rfl, Nat.le_add_right ..⟩
    · exact .refl _

theorem steady_shiftUp (word : UInt64) (places : Nat) : Steady id (shiftUp word places) :=
  .ite (.pure _) (.throw _)

theorem steady_shiftDown (word : UInt64) (places : Nat) : Steady id (shiftDown word places) :=
  .ite (.pure _) (.throw _)

theorem steady_lost (digits : UInt64) (shift : Nat) : Steady id (lost digits shift) :=
  .ite (.pure _) (steady_shiftDown _ _)

theorem steady_bool : Steady id bool := .bind (steady_field 1) fun _ ↦ .pure _

theorem steady_byte : Steady id byte := .bind (steady_field 8) fun _ ↦ .pure _

theorem steady_chunksFrom (payload start shift : Nat) (sum : UInt64) :
    Steady id (chunksFrom payload start shift sum) := by
  fun_induction chunksFrom payload start shift sum with
  | case1 shift sum ih =>
    refine .bind (steady_field _) fun chunk ↦ .bind (steady_shiftUp _ _) fun flag ↦ ?_
    dsimp only
    split
    · exact .throw _
    · rename_i h
      refine .bind (steady_lost _ _) fun excess ↦ ?_
      split
      · exact .throw _
      · refine .bind (steady_shiftUp _ _) fun part ↦ ?_
        split
        · exact .pure _
        · exact ih h part

theorem steady_vbr (width : Nat) : Steady id (vbr width) := by
  unfold vbr
  split
  · split
    · exact .bind .get fun c ↦ steady_chunksFrom _ _ _ _
    · exact .throw _
  · exact .throw _

theorem steady_signedVbr (width : Nat) : Steady id (signedVbr width) :=
  .bind (steady_vbr width) fun _ ↦ .pure _

theorem steady_char6 : Steady id char6 := .bind (steady_field 6) fun _ ↦ .pure _

theorem steady_align32 : Steady id align32 := fun c ↦ steady_skip _ c

theorem steady_byteOffset : Steady id byteOffset := by
  intro c
  simp only [byteOffset]
  split <;> exact .refl _

theorem steady_between (start stop : Nat) : Steady id (between start stop) := by
  intro c
  simp only [between]
  cases slice c.bytes start stop <;> exact .refl _

theorem steady_blob : Steady id blob :=
  .bind (steady_vbr _) fun _ ↦ .bind steady_align32 fun _ ↦ .bind steady_byteOffset fun _ ↦
    .bind (steady_skip _) fun _ ↦ .bind steady_align32 fun _ ↦ steady_between _ _

theorem left_lt_of_field {width : Nat} {c d : Cursor} {v : UInt64} (h : field width c = .ok v d)
    (hw : 0 < width) : d.left < c.left := by
  rw [field_eq] at h
  split at h
  · cases h
  · split at h
    · cases h
      simp only [Cursor.left, Cursor.bitLen] at *
      omega
    · cases h

theorem width_pos_of_field {width : Nat} {c d : Cursor} {v : UInt64}
    (h : field width c = .ok v d) (hv : v ≠ 0) : 0 < width := by
  rcases Nat.eq_zero_or_pos width with rfl | hw
  · rw [field_eq] at h
    split at h
    · cases h
    · split at h
      · cases h
        exact absurd rfl hv
      · cases h
  · exact hw

end Read

end BlockStream
