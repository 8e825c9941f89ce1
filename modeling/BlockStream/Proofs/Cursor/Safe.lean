import BlockStream.Cursor.Steady

namespace BlockStream

def Cursor.Within (c : Cursor) : Prop := c.pos ≤ c.bitLen

/-- From `s` no contract is broken and the bytes are not left; a value comes with `Q`. -/
def Safe {ε σ α : Type} (cursor : σ → Cursor) (x : EStateM (Fault ε) σ α) (s : σ)
    (Q : α → σ → Prop) : Prop :=
  match x s with
  | .ok a t => (cursor t).Within ∧ Q a t
  | .error (.error _) t => (cursor t).Within
  | .error (.violation _) _ => False

namespace Safe

variable {ε σ α β : Type} {cursor : σ → Cursor} {x : EStateM (Fault ε) σ α} {s : σ}
  {Q R : α → σ → Prop}

theorem of_ok {a : α} {t : σ} (h : x s = .ok a t) (ht : (cursor t).Within) (hq : Q a t) :
    Safe cursor x s Q := by
  unfold Safe
  rw [h]
  exact ⟨ht, hq⟩

theorem of_error {e : ε} {t : σ} (h : x s = .error (.error e) t) (ht : (cursor t).Within) :
    Safe cursor x s Q := by
  unfold Safe
  rw [h]
  exact ht

theorem pure {a : α} (hs : (cursor s).Within) (hq : Q a s) :
    Safe cursor (pure a : EStateM (Fault ε) σ α) s Q := of_ok rfl hs hq

theorem throw {e : ε} (hs : (cursor s).Within) :
    Safe cursor (throw (.error e) : EStateM (Fault ε) σ α) s Q := of_error rfl hs

theorem get {Q : σ → σ → Prop} (hs : (cursor s).Within) (hq : Q s s) :
    Safe cursor (get : EStateM (Fault ε) σ σ) s Q := of_ok rfl hs hq

theorem mono_of_run (h : Safe cursor x s Q) (hqr : ∀ a t, x s = .ok a t → Q a t → R a t) :
    Safe cursor x s R := by
  unfold Safe at h ⊢
  split at h
  · rename_i hok
    exact ⟨h.1, hqr _ _ hok h.2⟩
  · exact h
  · exact h

theorem mono (h : Safe cursor x s Q) (hqr : ∀ a t, Q a t → R a t) : Safe cursor x s R :=
  h.mono_of_run fun a t _ hq ↦ hqr a t hq

theorem bind {f : α → EStateM (Fault ε) σ β} {T : β → σ → Prop} (hx : Safe cursor x s Q)
    (hf : ∀ a t, (cursor t).Within → Q a t → Safe cursor (f a) t T) :
    Safe cursor (x >>= f) s T := by
  unfold Safe at hx
  split at hx
  · rename_i a t hok
    unfold Safe
    rw [bind_of_ok hok]
    exact hf a t hx.1 hx.2
  · rename_i e t he
    exact of_error (bind_of_error he) hx
  · exact hx.elim

theorem map (g : α → β) {T : β → σ → Prop} (hx : Safe cursor x s Q)
    (hg : ∀ a t, Q a t → T (g a) t) : Safe cursor (g <$> x) s T :=
  bind hx fun a t ht hq ↦ pure ht (hg a t hq)

theorem remember (h : Safe cursor x s Q) (hx : Steady cursor x) :
    Safe cursor x s fun a t ↦ (cursor s).Reaches (cursor t) ∧ Q a t :=
  h.mono_of_run fun _ _ hok hq ↦ ⟨hx.of_eq hok, hq⟩

theorem yielded (h : Safe cursor x s Q) : Safe cursor x s fun a t ↦ x s = .ok a t ∧ Q a t :=
  h.mono_of_run fun _ _ hok hq ↦ ⟨hok, hq⟩

theorem of_eq {y : EStateM (Fault ε) σ α} {t : σ} (h : x s = y t) (hy : Safe cursor y t Q) :
    Safe cursor x s Q := by
  unfold Safe at hy ⊢
  rwa [h]

theorem ends (h : Safe cursor x s Q) :
    (∃ a t, x s = .ok a t ∧ (cursor t).Within ∧ Q a t) ∨
      ∃ e t, x s = .error (.error e) t ∧ (cursor t).Within := by
  unfold Safe at h
  split at h
  · rename_i a t hok
    exact .inl ⟨a, t, hok, h⟩
  · rename_i e t he
    exact .inr ⟨e, t, he, h⟩
  · exact h.elim

theorem holds_of_ok {a : α} {t : σ} (h : Safe cursor x s Q) (hok : x s = .ok a t) :
    (cursor t).Within ∧ Q a t := by
  unfold Safe at h
  rwa [hok] at h

theorem within_of_ok {a : α} {t : σ} (h : Safe cursor x s Q) (hok : x s = .ok a t) :
    (cursor t).Within := (h.holds_of_ok hok).1

theorem error_of_error {f : Fault ε} {t : σ} (h : Safe cursor x s Q) (hf : x s = .error f t) :
    ∃ e, f = .error e ∧ (cursor t).Within := by
  unfold Safe at h
  rw [hf] at h
  cases f with
  | error e => exact ⟨e, rfl, h⟩
  | violation v => exact h.elim

end Safe

namespace Read

variable {c : Cursor}

theorem safe_field {width : Nat} (hw : width ≤ 64) (hc : c.Within) :
    Safe id (field width) c fun _ d ↦ d.pos = c.pos + width := by
  have hfield := field_eq width c
  rw [if_neg (Nat.not_lt.mpr hw)] at hfield
  split at hfield
  · rename_i hin
    exact .of_ok hfield hin rfl
  · exact .of_error hfield hc

theorem safe_shiftUp {word : UInt64} {places : Nat} (hp : places < 64) (hc : c.Within) :
    Safe id (shiftUp word places) c fun _ _ ↦ True := by
  rw [shiftUp_of_lt _ hp]
  exact .pure hc trivial

theorem safe_lost {digits : UInt64} {shift : Nat} (hs : shift < 64) (hc : c.Within) :
    Safe id (lost digits shift) c fun _ _ ↦ True := by
  rw [lost]
  split
  · exact .pure hc trivial
  · rw [shiftDown_of_lt _ (by omega)]
    exact .pure hc trivial

theorem safe_chunksFrom {payload start : Nat} (hp : payload + 2 ≤ 64) (shift : Nat) (sum : UInt64)
    (hc : c.Within) : Safe id (chunksFrom payload start shift sum) c fun _ _ ↦ True := by
  -- along the rounds, in which a payload is moved only where it stays within a word
  fun_induction chunksFrom payload start shift sum generalizing c with
  | case1 shift sum ih =>
    refine .bind (safe_field hp hc) ?_
    intro chunk d hd _
    refine .bind (safe_shiftUp (by omega) hd) ?_
    intro flag e he _
    dsimp only
    split
    · exact .throw he
    · rename_i hs
      refine .bind (safe_lost (by omega) he) ?_
      intro excess e he _
      split
      · exact .throw he
      · refine .bind (safe_shiftUp (by omega) he) ?_
        intro part e he _
        split
        · exact .pure he trivial
        · exact ih hs part he

theorem safe_vbr {width : Nat} (hw : 2 ≤ width ∧ width ≤ 64) (hc : c.Within) :
    Safe id (vbr width) c fun _ _ ↦ True := by
  obtain ⟨payload, rfl⟩ := Nat.exists_eq_add_of_le' hw.1
  unfold vbr
  dsimp only
  rw [if_pos hw.2]
  exact .bind (Q := fun _ _ ↦ True) (.get hc trivial) fun d e he _ ↦ safe_chunksFrom hw.2 0 0 he

theorem safe_signedVbr {width : Nat} (hw : 2 ≤ width ∧ width ≤ 64) (hc : c.Within) :
    Safe id (signedVbr width) c fun _ _ ↦ True :=
  .bind (safe_vbr hw hc) fun _ _ hd _ ↦ .pure hd trivial

theorem safe_bool (hc : c.Within) : Safe id bool c fun _ d ↦ d.pos = c.pos + 1 :=
  .bind (safe_field (by decide) hc) fun _ _ hd hpos ↦ .pure hd hpos

theorem safe_byte (hc : c.Within) : Safe id byte c fun _ d ↦ d.pos = c.pos + 8 :=
  .bind (safe_field (by decide) hc) fun _ _ hd hpos ↦ .pure hd hpos

theorem safe_char6 (hc : c.Within) : Safe id char6 c fun _ d ↦ d.pos = c.pos + 6 :=
  .bind (safe_field (by decide) hc) fun _ _ hd hpos ↦ .pure hd hpos

theorem safe_skip (bits : Nat) (hc : c.Within) :
    Safe id (skip bits) c fun _ d ↦ d.pos = c.pos + bits := by
  have hskip := skip_eq bits c
  split at hskip
  · rename_i hin
    exact .of_ok hskip hin rfl
  · exact .of_error hskip hc

theorem safe_align32 (hc : c.Within) : Safe id align32 c fun _ d ↦ d.pos % 32 = 0 := by
  refine .of_eq (align32_eq c) ((safe_skip ((32 - c.pos % 32) % 32) hc).mono ?_)
  intro _ d hpos
  omega

theorem safe_byteOffset (hc : c.Within) (h : c.pos % 8 = 0) :
    Safe id byteOffset c fun n d ↦ d = c ∧ n = c.pos / 8 :=
  .of_ok (by rw [byteOffset, if_pos h]) hc ⟨rfl, rfl⟩

end Read

end BlockStream
