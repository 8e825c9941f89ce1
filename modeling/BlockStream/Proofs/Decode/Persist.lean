import BlockStream.Proofs.Decode.Grammar

namespace BlockStream

/-- The cursor with other bytes put behind its own. -/
def Cursor.before (back : ByteArray) (c : Cursor) : Cursor := ⟨c.bytes ++ back, c.pos⟩

/-- The bytes have ended inside a value. -/
def DecodeError.IsEnd : DecodeError → Prop
  | .unexpectedEnd _ => True
  | _ => False

def DecodeError.IsCut : DecodeError → Prop
  | .unexpectedEnd _ | .unterminatedBlock _ => True
  | _ => False

theorem DecodeError.isCut_of_isEnd {e : DecodeError} (h : e.IsEnd) : e.IsCut := by
  cases e <;> trivial

section Relation

variable {σ α : Type} (back : ByteArray) (cursor : σ → Cursor) (E : DecodeError → Prop)

/-- How a run ends before `back`, against how it ends without: in the same way, unless that was one
of the errors in `E`. Nothing is said of runs that break a contract. -/
inductive Kept :
    EStateM.Result (Fault DecodeError) σ α → EStateM.Result (Fault DecodeError) σ α → Prop
  | ok {a : α} {s t : σ} (state : cursor t = (cursor s).before back) : Kept (.ok a s) (.ok a t)
  | error {e : DecodeError} {s t : σ} : Kept (.error (.error e) s) (.error (.error e) t)
  | stopped {e : DecodeError} {s : σ} {r : EStateM.Result (Fault DecodeError) σ α} (stop : E e) :
      Kept (.error (.error e) s) r
  | violation {v : Violation} {s : σ} {r : EStateM.Result (Fault DecodeError) σ α} :
      Kept (.error (.violation v) s) r

/-- What `x` does, it does before `back`, unless it stops with one of the errors in `E`. -/
def Persists (x : EStateM (Fault DecodeError) σ α) : Prop :=
  ∀ s t, cursor t = (cursor s).before back → Kept back cursor E (x s) (x t)

end Relation

namespace Persists

variable {σ α β : Type} {back : ByteArray} {cursor : σ → Cursor} {E F : DecodeError → Prop}
  {x : EStateM (Fault DecodeError) σ α}

theorem pure (a : α) : Persists back cursor E (pure a : EStateM (Fault DecodeError) σ α) :=
  fun _ _ hst ↦ .ok hst

theorem throw (e : DecodeError) :
    Persists back cursor E (throw (.error e) : EStateM (Fault DecodeError) σ α) :=
  fun _ _ _ ↦ .error

theorem violation {v : Violation} :
    Persists back cursor E
      (MonadExcept.throw (.violation v) : EStateM (Fault DecodeError) σ α) :=
  fun _ _ _ ↦ .violation

theorem bind {f : α → EStateM (Fault DecodeError) σ β} (h : Persists back cursor E x)
    (k : ∀ a, Persists back cursor E (f a)) : Persists back cursor E (x >>= f) := by
  intro s t hst
  have hx := h s t hst
  generalize hs : x s = r at hx
  generalize ht : x t = q at hx
  cases hx with
  | ok state =>
    rw [bind_of_ok hs, bind_of_ok ht]
    exact k _ _ _ state
  | error =>
    rw [bind_of_error hs, bind_of_error ht]
    exact .error
  | stopped stop =>
    rw [bind_of_error hs]
    exact .stopped stop
  | violation =>
    rw [bind_of_error hs]
    exact .violation

theorem map (f : α → β) (h : Persists back cursor E x) : Persists back cursor E (f <$> x) :=
  bind h fun a ↦ pure (f a)

theorem ite {p : Prop} [Decidable p] {y : EStateM (Fault DecodeError) σ α}
    (hx : Persists back cursor E x) (hy : Persists back cursor E y) :
    Persists back cursor E (if p then x else y) := by
  split <;> assumption

theorem mono (h : Persists back cursor E x) (hEF : ∀ e, E e → F e) : Persists back cursor F x := by
  intro s t hst
  have hx := h s t hst
  generalize x s = r at hx
  generalize x t = q at hx
  cases hx with
  | ok state => exact .ok state
  | error => exact .error
  | stopped stop => exact .stopped (hEF _ stop)
  | violation => exact .violation

theorem ok_of_ok (h : Persists back cursor E x) {s t u : σ} {a : α}
    (hst : cursor t = (cursor s).before back) (hx : x s = .ok a u) :
    ∃ v, x t = .ok a v ∧ cursor v = (cursor u).before back := by
  have hxt := h s t hst
  generalize ht : x t = q at hxt
  rw [hx] at hxt
  cases hxt with
  | ok state => exact ⟨_, rfl, state⟩

/-- Where a run fails alone and succeeds before `back`, it was stopped. -/
theorem stop_of_ok (h : Persists back cursor E x) {s t u v : σ} {e : DecodeError} {a : α}
    (hst : cursor t = (cursor s).before back) (hs : x s = .error (.error e) u)
    (ht : x t = .ok a v) : E e := by
  have hx := h s t hst
  rw [hs, ht] at hx
  cases hx with
  | stopped stop => exact stop

theorem kept_of_error (h : Persists back cursor E x) {s t u : σ} {e : Fault DecodeError}
    (hst : cursor t = (cursor s).before back) (hx : x s = .error e u) (hEF : ∀ f, E f → F f)
    {r : EStateM.Result (Fault DecodeError) σ β} (hr : ∀ f v, x t = .error f v → r = .error f v) :
    Kept back cursor F (.error e u : EStateM.Result (Fault DecodeError) σ β) r := by
  have hxt := h s t hst
  generalize ht : x t = q at hxt
  rw [hx] at hxt
  cases hxt with
  | error =>
    rw [hr _ _ ht]
    exact .error
  | stopped stop => exact .stopped (hEF _ stop)
  | violation => exact .violation

theorem of_before {x : EStateM (Fault DecodeError) Cursor α}
    (h : ∀ c, Kept back id E (x c) (x (c.before back))) : Persists back id E x := by
  intro c d hd
  have hd' : d = c.before back := hd
  exact hd' ▸ h c

end Persists

namespace Cursor

variable {back : ByteArray} {c : Cursor}

theorem pos_before : (c.before back).pos = c.pos := rfl

theorem bitLen_before : (c.before back).bitLen = c.bitLen + 8 * back.size := by
  simp only [before, bitLen, ByteArray.size_append]
  omega

theorem fieldAt_before {width : Nat} (h : c.pos + width ≤ c.bitLen) :
    fieldAt (c.before back).bytes (c.before back).pos width = fieldAt c.bytes c.pos width := by
  apply Nat.eq_of_testBit_eq
  intro i
  rw [testBit_fieldAt, testBit_fieldAt]
  by_cases hi : i < width
  · rw [bitLen] at h
    rw [pos_before, before, bitAt_append_left _ (by omega)]
  · simp [hi]

theorem Takes.before (back : ByteArray) {bits : List Bool} {d : Cursor} (h : c.Takes bits d) :
    (c.before back).Takes bits (d.before back) := by
  obtain ⟨rfl, hbits, hin⟩ := h
  refine ⟨rfl, ?_, ?_⟩
  · refine (bitsAt_congr fun i hi ↦ ?_).trans hbits
    rw [bitLen] at hin
    rw [pos_before, Cursor.before, bitAt_append_left _ (by omega)]
  · rw [pos_before, bitLen_before]
    exact Nat.le_trans hin (Nat.le_add_right ..)

theorem takes_of_before {bits : List Bool} {d : Cursor} (h : (c.before back).Takes bits d)
    (hd : d.pos ≤ c.bitLen) : c.Takes bits ⟨c.bytes, d.pos⟩ := by
  have hpos := h.pos_eq
  have hbits := h.bits_eq
  have hin : c.pos + bits.length ≤ c.bitLen := hpos ▸ hd
  refine ⟨by rw [hpos]; rfl, ?_, hin⟩
  refine (bitsAt_congr fun i hi ↦ ?_).trans hbits
  rw [bitLen] at hin
  rw [pos_before, before, bitAt_append_left _ (by omega)]

end Cursor

namespace Read

variable {back : ByteArray}

theorem persists_field (width : Nat) : Persists back id DecodeError.IsEnd (field width) := by
  refine .of_before fun c ↦ ?_
  rw [field_eq, field_eq]
  by_cases hw : 64 < width
  · rw [if_pos hw]
    exact .violation
  rw [if_neg hw, if_neg hw, Cursor.bitLen_before, Cursor.pos_before]
  by_cases hin : c.pos + width ≤ c.bitLen
  · rw [if_pos hin, if_pos (Nat.le_trans hin (Nat.le_add_right ..)), ← Cursor.fieldAt_before hin]
    exact .ok rfl
  · rw [if_neg hin]
    exact .stopped trivial

theorem persists_skip (bits : Nat) : Persists back id DecodeError.IsEnd (skip bits) := by
  refine .of_before fun c ↦ ?_
  rw [skip_eq, skip_eq, Cursor.bitLen_before, Cursor.pos_before]
  by_cases hin : c.pos + bits ≤ c.bitLen
  · rw [if_pos hin, if_pos (Nat.le_trans hin (Nat.le_add_right ..))]
    exact .ok rfl
  · rw [if_neg hin]
    exact .stopped trivial

theorem persists_shiftUp (word : UInt64) (places : Nat) :
    Persists back id DecodeError.IsEnd (shiftUp word places) := .ite (.pure _) .violation

theorem persists_lost (digits : UInt64) (shift : Nat) :
    Persists back id DecodeError.IsEnd (lost digits shift) :=
  .ite (.pure _) (.ite (.pure _) .violation)

theorem persists_bool : Persists back id DecodeError.IsEnd bool :=
  .bind (persists_field 1) fun _ ↦ .pure _

theorem persists_chunksFrom (payload start shift : Nat) (sum : UInt64) :
    Persists back id DecodeError.IsEnd (chunksFrom payload start shift sum) := by
  fun_induction chunksFrom payload start shift sum with
  | case1 shift sum ih =>
    refine .bind (persists_field _) fun chunk ↦ .bind (persists_shiftUp _ _) fun flag ↦ ?_
    dsimp only
    split
    · exact .throw _
    · rename_i h
      refine .bind (persists_lost _ _) fun excess ↦ ?_
      split
      · exact .throw _
      · refine .bind (persists_shiftUp _ _) fun part ↦ ?_
        split
        · exact .pure _
        · exact ih h part

theorem persists_vbr (width : Nat) : Persists back id DecodeError.IsEnd (vbr width) := by
  refine .of_before fun c ↦ ?_
  unfold vbr
  split
  · rename_i payload
    split
    · exact persists_chunksFrom payload c.pos 0 0 c _ rfl
    · exact .violation
  · exact .violation

theorem persists_align32 : Persists back id DecodeError.IsEnd align32 := by
  refine .of_before fun c ↦ ?_
  exact persists_skip ((32 - c.pos % 32) % 32) c _ rfl

theorem persists_byteOffset (E : DecodeError → Prop) : Persists back id E byteOffset := by
  refine .of_before fun c ↦ ?_
  unfold byteOffset
  rw [Cursor.pos_before]
  by_cases hc : c.pos % 8 = 0
  · rw [if_pos hc, if_pos hc]
    exact .ok rfl
  · rw [if_neg hc]
    exact .violation

end Read

namespace Decode

open Format

variable {α : Type} {back : ByteArray} {E : DecodeError → Prop}

abbrev Stays (back : ByteArray) (E : DecodeError → Prop) (x : Decode α) : Prop :=
  Persists back State.cursor E x

section Parts

theorem stays_read {x : Read α} (h : Persists back id E x) : Stays back E (read x) := by
  intro s t hst
  have hx := h s.cursor t.cursor hst
  unfold read
  generalize x s.cursor = r at hx
  generalize x t.cursor = q at hx
  cases hx with
  | ok state => exact .ok state
  | error => exact .error
  | stopped stop => exact .stopped stop
  | violation => exact .violation

theorem stays_readOr {x : Read α} {e : DecodeError} (h : Persists back id E x) :
    Stays back (· = e) (readOr e x) := by
  intro s t hst
  have hx := h s.cursor t.cursor hst
  unfold readOr
  generalize x s.cursor = r at hx
  generalize x t.cursor = q at hx
  cases hx with
  | ok state => exact .ok state
  | error => exact .stopped rfl
  | stopped => exact .stopped rfl
  | violation => exact .violation

theorem stays_require (p : Prop) [Decidable p] (e : DecodeError) : Stays back E (require p e) :=
  .ite (.pure _) (.throw _)

theorem stays_note (e : Event) : Stays back E (note e) := fun _ _ hst ↦ .ok hst

theorem stays_vbr (width : Nat) : Stays back DecodeError.IsEnd (read (Read.vbr width)) :=
  stays_read (Read.persists_vbr width)

theorem stays_header : Stays back DecodeError.IsEnd header :=
  .bind (stays_vbr _) fun _ ↦ .bind (stays_require _ _) fun _ ↦
    .bind (stays_vbr _) fun _ ↦ .bind (stays_require _ _) fun _ ↦
      .bind (stays_read Read.persists_align32) fun _ ↦
        .bind (stays_read (Read.persists_field _)) fun _ ↦
          .bind (stays_read (Read.persists_byteOffset _)) fun _ ↦
            .bind (stays_note _) fun _ ↦ .pure _

theorem stays_operandWidth : Stays back DecodeError.IsEnd operandWidth :=
  .bind (stays_vbr _) fun _ ↦ .bind (stays_require _ _) fun _ ↦ .pure _

theorem stays_encoded : Stays back DecodeError.IsEnd encoded := by
  refine .bind (stays_read (Read.persists_field _)) fun tag ↦ ?_
  split
  · exact .throw _
  · exact .map _ stays_operandWidth
  · exact .map _ stays_operandWidth
  · exact .pure _
  · exact .pure _
  · exact .pure _

theorem stays_operand : Stays back DecodeError.IsEnd operand := by
  refine .bind (stays_read Read.persists_bool) fun literal ↦ ?_
  split
  · exact .map _ (stays_vbr _)
  · exact stays_encoded

theorem stays_repeated {x : Decode α} (hx : Stays back E x) (count : Nat) (seen : List α) :
    Stays back E (repeated x count seen) := by
  induction count generalizing seen with
  | zero => exact .pure _
  | succ count ih => exact .bind hx fun a ↦ ih (a :: seen)

theorem stays_definition : Stays back DecodeError.IsEnd definition :=
  .bind (stays_vbr _) fun _ ↦ .bind (stays_repeated stays_operand _ _) fun _ ↦ .pure _

theorem stays_record : Stays back DecodeError.IsEnd record :=
  .bind (stays_vbr _) fun _ ↦ .bind (stays_vbr _) fun _ ↦
    .bind (stays_repeated (stays_vbr _) _ _) fun _ ↦ .pure _

theorem atEnd_of_before {s t : State} (hst : t.cursor = s.cursor.before back)
    (h : s.cursor.atEnd = false) : t.cursor.atEnd = false := by
  rw [Cursor.atEnd, decide_eq_false_iff_not] at h ⊢
  rw [hst, Cursor.bitLen_before]
  exact fun hle ↦ h (Nat.le_trans (Nat.le_add_right ..) hle)

theorem stays_marker (h : Header) : Stays back (· = .unterminatedBlock h.id) (marker h) := by
  intro s t hst
  by_cases hend : s.cursor.atEnd = false
  · have hgo := atEnd_of_before hst hend
    have hs : marker h s = readOr (.unterminatedBlock h.id) (Read.field h.abbrevWidth.toNat) s := by
      refine (bind_of_ok rfl).trans (bind_of_ok (a := ()) ?_)
      rw [require, if_pos hend]
      rfl
    have ht : marker h t = readOr (.unterminatedBlock h.id) (Read.field h.abbrevWidth.toNat) t := by
      refine (bind_of_ok rfl).trans (bind_of_ok (a := ()) ?_)
      rw [require, if_pos hgo]
      rfl
    rw [hs, ht]
    exact stays_readOr (Read.persists_field _) s t hst
  · have hs : marker h s = .error (.error (.unterminatedBlock h.id)) s := by
      refine (bind_of_ok rfl).trans (bind_of_error ?_)
      rw [require, if_neg hend]
      rfl
    rw [hs]
    exact .stopped rfl

theorem stays_close (h : Header) (bodyStart : Nat) :
    Stays back (· = .unterminatedBlock h.id) (close h bodyStart) :=
  .bind (stays_readOr Read.persists_align32) fun _ ↦
    .bind (stays_read (Read.persists_byteOffset _)) fun _ ↦
      .bind (.ite (.pure _) .violation) fun _ ↦ stays_require _ _

theorem stays_item {child : Decode Item} (hc : Stays back DecodeError.IsCut child) (id : UInt64) :
    Stays back DecodeError.IsCut (item child id) :=
  .ite hc (.ite (stays_definition.mono fun _ ↦ DecodeError.isCut_of_isEnd)
    (.ite (stays_record.mono fun _ ↦ DecodeError.isCut_of_isEnd) (.throw _)))

end Parts

section Nesting

theorem stays_items {child : Decode Item} {hc : IsSteady child}
    (hchild : Stays back DecodeError.IsCut child) (h : Header) (seen : List Item) :
    Stays back DecodeError.IsCut (items child hc h seen) := by
  intro s t hst
  -- along the rounds of the loop
  fun_induction items child hc h seen s generalizing t with
  | case1 seen s e u hm =>
    exact (stays_marker h).kept_of_error hst hm (fun f hf ↦ hf ▸ trivial) fun f v hm' ↦
      items_of_noMarker hm'
  | case2 seen s u hm =>
    obtain ⟨v, hm', hv⟩ := (stays_marker h).ok_of_ok hst hm
    rw [items_of_end hm']
    exact .ok hv
  | case3 seen s id u hm hid e v hi =>
    obtain ⟨u', hm', hu⟩ := (stays_marker h).ok_of_ok hst hm
    exact (stays_item hchild id).kept_of_error hu hi (fun _ h ↦ h)
      fun f w hi' ↦ items_of_error hm' hid hi'
  | case4 seen s id u hm hid i v hi _ ih =>
    obtain ⟨u', hm', hu⟩ := (stays_marker h).ok_of_ok hst hm
    obtain ⟨v', hi', hv⟩ := (stays_item hchild id).ok_of_ok hu hi
    rw [items_of_item hm' hid hi']
    exact ih v' hv

theorem stays_blockWith {child : Decode Item} (hchild : Stays back DecodeError.IsCut child)
    (hc : IsSteady child) : Stays back DecodeError.IsCut (blockWith child hc) := by
  refine .bind (stays_header.mono fun _ ↦ DecodeError.isCut_of_isEnd) fun r ↦ ?_
  refine .bind (stays_items hchild r.1 []) fun all ↦ ?_
  exact .bind ((stays_close r.1 r.2).mono fun e he ↦ he ▸ trivial) fun _ ↦ .pure _

theorem stays_block (levels : Nat) : Stays back DecodeError.IsCut (block levels).val := by
  induction levels with
  | zero => exact .throw _
  | succ levels ih => exact stays_blockWith (.map _ ih) _

theorem stays_topLevel : Stays back DecodeError.IsCut topLevel :=
  .bind ((stays_read (Read.persists_field _)).mono fun _ ↦ DecodeError.isCut_of_isEnd) fun _ ↦
    .bind (stays_require _ _) fun _ ↦ stays_block maxDepth

theorem error_of_blocks {e : DecodeError} (he : ¬ e.IsCut) (seen : List Block) (s t : State)
    {u : State} (hst : t.cursor = s.cursor.before back)
    (herr : blocks seen s = .error (.error e) u) :
    ∃ v, blocks seen t = .error (.error e) v := by
  fun_induction blocks seen s generalizing t with
  | case1 seen s hend => cases herr
  | case2 seen s hend f v hb =>
    cases herr
    have hgo := atEnd_of_before hst (by simpa using hend)
    have hrun := stays_topLevel s t hst
    generalize hb' : topLevel t = q at hrun
    rw [hb] at hrun
    cases hrun with
    | error => exact ⟨_, blocks_of_error hgo hb'⟩
    | stopped stop => exact absurd stop he
  | case3 seen s hend b v hb _ ih =>
    have hgo := atEnd_of_before hst (by simpa using hend)
    obtain ⟨v', hb', hv⟩ := stays_topLevel.ok_of_ok hst hb
    rw [blocks_of_topLevel hgo hb']
    exact ih v' hv herr

end Nesting

end Decode

end BlockStream
