import BlockStream.Proofs.Decode.Grammar

namespace BlockStream

/-- The error that is found where `bits` further bits stand in front. -/
def DecodeError.moved (bits : Nat) : DecodeError → DecodeError
  | .unexpectedEnd bit => .unexpectedEnd (bits + bit)
  | .vbrOverflow bit => .vbrOverflow (bits + bit)
  | e => e

/-- The cursor with other bytes put in front of its own. -/
def Cursor.behind (front : ByteArray) (c : Cursor) : Cursor :=
  ⟨front ++ c.bytes, 8 * front.size + c.pos⟩

section Relation

variable {σ α β : Type} (front : ByteArray) (cursor : σ → Cursor)

/-- How a run ends behind `front`, against how it ends without: with a value that is related, or
with the same error, moved on. Nothing is said of runs that break a contract. -/
inductive Alike (P : α → β → Prop) :
    EStateM.Result (Fault DecodeError) σ α → EStateM.Result (Fault DecodeError) σ β → Prop
  | ok {a : α} {b : β} {s t : σ} (value : P a b) (state : cursor t = (cursor s).behind front) :
      Alike P (.ok a s) (.ok b t)
  | error {e f : DecodeError} {s t : σ} (moved : f = e.moved (8 * front.size)) :
      Alike P (.error (.error e) s) (.error (.error f) t)
  | violation {v : Violation} {s : σ} {r : EStateM.Result (Fault DecodeError) σ β} :
      Alike P (.error (.violation v) s) r

/-- What `x` does at the start, `y` does behind `front`. -/
def Shifts (P : α → β → Prop) (x : EStateM (Fault DecodeError) σ α)
    (y : EStateM (Fault DecodeError) σ β) : Prop :=
  ∀ s t, cursor t = (cursor s).behind front → Alike front cursor P (x s) (y t)

end Relation

namespace Shifts

variable {σ α β γ δ : Type} {front : ByteArray} {cursor : σ → Cursor}
  {P : α → β → Prop} {Q : γ → δ → Prop}
  {x : EStateM (Fault DecodeError) σ α} {y : EStateM (Fault DecodeError) σ β}

theorem pure {a : α} {b : β} (h : P a b) :
    Shifts front cursor P (pure a : EStateM (Fault DecodeError) σ α) (pure b) :=
  fun _ _ hst ↦ .ok h hst

theorem throw {e f : DecodeError} (h : f = e.moved (8 * front.size)) :
    Shifts front cursor P (throw (.error e)) (throw (.error f)) :=
  fun _ _ _ ↦ .error h

theorem violation {v : Violation} : Shifts front cursor P (MonadExcept.throw (.violation v)) y :=
  fun _ _ _ ↦ .violation

theorem bind {f : α → EStateM (Fault DecodeError) σ γ} {g : β → EStateM (Fault DecodeError) σ δ}
    (h : Shifts front cursor P x y) (k : ∀ a b, P a b → Shifts front cursor Q (f a) (g b)) :
    Shifts front cursor Q (x >>= f) (y >>= g) := by
  intro s t hst
  have hxy := h s t hst
  generalize hx : x s = r at hxy
  generalize hy : y t = q at hxy
  cases hxy with
  | ok value state =>
    rw [bind_of_ok hx, bind_of_ok hy]
    exact k _ _ value _ _ state
  | error moved =>
    rw [bind_of_error hx, bind_of_error hy]
    exact .error moved
  | violation =>
    rw [bind_of_error hx]
    exact .violation

theorem ok_of_ok (h : Shifts front cursor P x y) {s t u : σ} {a : α}
    (hst : cursor t = (cursor s).behind front) (hx : x s = .ok a u) :
    ∃ b v, y t = .ok b v ∧ P a b ∧ cursor v = (cursor u).behind front := by
  have hxy := h s t hst
  generalize hy : y t = q at hxy
  rw [hx] at hxy
  cases hxy with
  | ok value state => exact ⟨_, _, rfl, value, state⟩

theorem alike_of_error {Q : γ → δ → Prop} (h : Shifts front cursor P x y) {s t u : σ}
    {e : Fault DecodeError} (hst : cursor t = (cursor s).behind front) (hx : x s = .error e u)
    {r : EStateM.Result (Fault DecodeError) σ δ}
    (hr : ∀ f v, y t = .error f v → r = .error f v) :
    Alike front cursor Q (.error e u : EStateM.Result (Fault DecodeError) σ γ) r := by
  have hxy := h s t hst
  generalize hy : y t = q at hxy
  rw [hx] at hxy
  cases hxy with
  | error moved =>
    rw [hr _ _ hy]
    exact .error moved
  | violation => exact .violation

theorem map {f : α → γ} {g : β → δ} (h : Shifts front cursor P x y)
    (k : ∀ a b, P a b → Q (f a) (g b)) : Shifts front cursor Q (f <$> x) (g <$> y) :=
  bind h fun a b hab ↦ pure (k a b hab)

theorem ite {p q : Prop} [Decidable p] [Decidable q] {x' : EStateM (Fault DecodeError) σ α}
    {y' : EStateM (Fault DecodeError) σ β} (hpq : p ↔ q) (h : Shifts front cursor P x y)
    (k : Shifts front cursor P x' y') :
    Shifts front cursor P (if p then x else x') (if q then y else y') := by
  by_cases hp : p
  · rwa [if_pos hp, if_pos (hpq.mp hp)]
  · rwa [if_neg hp, if_neg (mt hpq.mpr hp)]

theorem of_behind {x : EStateM (Fault DecodeError) Cursor α}
    {y : EStateM (Fault DecodeError) Cursor β}
    (h : ∀ c, Alike front id P (x c) (y (c.behind front))) : Shifts front id P x y := by
  intro c d hd
  have hd' : d = c.behind front := hd
  exact hd' ▸ h c

end Shifts

namespace Cursor

variable {front : ByteArray} {c : Cursor}

theorem pos_behind : (c.behind front).pos = 8 * front.size + c.pos := rfl

theorem bitLen_behind : (c.behind front).bitLen = 8 * front.size + c.bitLen := by
  simp only [behind, bitLen, ByteArray.size_append]
  omega

theorem fieldAt_behind (width : Nat) :
    fieldAt (c.behind front).bytes (c.behind front).pos width = fieldAt c.bytes c.pos width := by
  apply Nat.eq_of_testBit_eq
  intro i
  rw [testBit_fieldAt, testBit_fieldAt, behind, Nat.add_assoc, bitAt_append_right]

theorem behind_advance (n : Nat) :
    { c.behind front with pos := (c.behind front).pos + n } =
      ({ c with pos := c.pos + n } : Cursor).behind front := by
  simp [behind, Nat.add_assoc]

theorem atEnd_behind : (c.behind front).atEnd = c.atEnd := by
  simp only [atEnd, bitLen_behind, pos_behind, Nat.add_le_add_iff_left]

end Cursor

namespace Read

variable {front : ByteArray}

theorem shifts_field (width : Nat) : Shifts front id Eq (field width) (field width) := by
  refine .of_behind fun c ↦ ?_
  rw [field_eq, field_eq]
  by_cases hw : 64 < width
  · rw [if_pos hw]
    exact .violation
  rw [if_neg hw, if_neg hw, Cursor.fieldAt_behind, Cursor.behind_advance, Cursor.bitLen_behind,
    Cursor.pos_behind]
  by_cases hin : c.pos + width ≤ c.bitLen
  · rw [if_pos hin, if_pos (by omega)]
    exact .ok rfl rfl
  · rw [if_neg hin, if_neg (by omega)]
    exact .error rfl

theorem shifts_skip (bits : Nat) : Shifts front id Eq (skip bits) (skip bits) := by
  refine .of_behind fun c ↦ ?_
  rw [skip_eq, skip_eq, Cursor.behind_advance, Cursor.bitLen_behind, Cursor.pos_behind]
  by_cases hin : c.pos + bits ≤ c.bitLen
  · rw [if_pos hin, if_pos (by omega)]
    exact .ok rfl rfl
  · rw [if_neg hin, if_neg (by omega)]
    exact .error rfl

theorem shifts_shiftUp (word : UInt64) (places : Nat) :
    Shifts front id Eq (shiftUp word places) (shiftUp word places) := by
  unfold shiftUp
  split
  · exact .pure rfl
  · exact .violation

theorem shifts_lost (digits : UInt64) (shift : Nat) :
    Shifts front id Eq (lost digits shift) (lost digits shift) := by
  unfold lost shiftDown
  split
  · exact .pure rfl
  split
  · exact .pure rfl
  · exact .violation

theorem shifts_bool : Shifts front id Eq bool bool := by
  refine .bind (shifts_field 1) ?_
  rintro v _ rfl
  exact .pure rfl

theorem shifts_chunksFrom (payload start shift : Nat) (sum : UInt64) :
    Shifts front id Eq (chunksFrom payload start shift sum)
      (chunksFrom payload (8 * front.size + start) shift sum) := by
  fun_induction chunksFrom payload start shift sum with
  | case1 shift sum ih =>
    rw [chunksFrom]
    refine .bind (shifts_field _) ?_
    rintro chunk _ rfl
    refine .bind (shifts_shiftUp _ _) ?_
    rintro flag _ rfl
    dsimp only
    split
    · exact .throw rfl
    · rename_i h
      refine .bind (shifts_lost _ _) ?_
      rintro excess _ rfl
      split
      · exact .throw rfl
      · refine .bind (shifts_shiftUp _ _) ?_
        rintro part _ rfl
        split
        · exact .pure rfl
        · exact ih h part

theorem shifts_vbr (width : Nat) : Shifts front id Eq (vbr width) (vbr width) := by
  refine .of_behind fun c ↦ ?_
  unfold vbr
  split
  · rename_i payload
    split
    · exact shifts_chunksFrom payload c.pos 0 0 c _ rfl
    · exact .violation
  · exact .violation

theorem shifts_align32 (hfront : 8 * front.size % 32 = 0) :
    Shifts front id Eq align32 align32 := by
  refine .of_behind fun c ↦ ?_
  have hpad : (32 - (c.behind front).pos % 32) % 32 = (32 - c.pos % 32) % 32 := by
    rw [Cursor.pos_behind]
    omega
  have hrun : align32 (c.behind front) = skip ((32 - c.pos % 32) % 32) (c.behind front) := by
    rw [align32_eq, hpad]
  rw [hrun]
  exact shifts_skip _ c _ rfl

theorem shifts_byteOffset :
    Shifts front id (fun m n ↦ n = front.size + m) byteOffset byteOffset := by
  refine .of_behind fun c ↦ ?_
  unfold byteOffset
  by_cases hc : c.pos % 8 = 0
  · rw [if_pos hc, if_pos (by rw [Cursor.pos_behind]; omega)]
    exact .ok (by rw [Cursor.pos_behind]; omega) rfl
  · rw [if_neg hc]
    exact .violation

end Read

namespace Decode

open Format

variable {front : ByteArray}

abbrev Moves {α β : Type} (front : ByteArray) (P : α → β → Prop) (x : Decode α) (y : Decode β) :
    Prop := Shifts front State.cursor P x y

section Parts

variable {α β : Type} {P : α → β → Prop}

theorem moves_read {x : Read α} {y : Read β} (h : Shifts front id P x y) :
    Moves front P (read x) (read y) := by
  intro s t hst
  have hxy := h s.cursor t.cursor hst
  unfold read
  generalize x s.cursor = r at hxy
  generalize y t.cursor = q at hxy
  cases hxy with
  | ok value state => exact .ok value state
  | error moved => exact .error moved
  | violation => exact .violation

theorem moves_readOr {x : Read α} {y : Read β} {e : DecodeError}
    (he : e = e.moved (8 * front.size)) (h : Shifts front id P x y) :
    Moves front P (readOr e x) (readOr e y) := by
  intro s t hst
  have hxy := h s.cursor t.cursor hst
  unfold readOr
  generalize x s.cursor = r at hxy
  generalize y t.cursor = q at hxy
  cases hxy with
  | ok value state => exact .ok value state
  | error => exact .error he
  | violation => exact .violation

theorem moves_require {p q : Prop} [Decidable p] [Decidable q] (hpq : p ↔ q) {e : DecodeError}
    (he : e = e.moved (8 * front.size)) : Moves front Eq (require p e) (require q e) :=
  .ite hpq (.pure rfl) (.throw he)

theorem moves_note (e f : Event) : Moves front Eq (note e) (note f) :=
  fun _ _ hst ↦ .ok rfl hst

theorem moves_vbr (width : Nat) : Moves front Eq (read (Read.vbr width)) (read (Read.vbr width)) :=
  moves_read (Read.shifts_vbr width)

theorem moves_operandWidth : Moves front Eq operandWidth operandWidth := by
  refine .bind (moves_vbr _) ?_
  rintro width _ rfl
  exact .bind (moves_require .rfl rfl) fun _ _ _ ↦ .pure rfl

theorem moves_encoded : Moves front Eq encoded encoded := by
  refine .bind (moves_read (Read.shifts_field _)) ?_
  rintro tag _ rfl
  split
  · exact .throw rfl
  · exact .map moves_operandWidth fun _ _ h ↦ congrArg Operand.fixed h
  · exact .map moves_operandWidth fun _ _ h ↦ congrArg Operand.vbr h
  · exact .pure rfl
  · exact .pure rfl
  · exact .pure rfl

theorem moves_operand : Moves front Eq operand operand := by
  refine .bind (moves_read Read.shifts_bool) ?_
  rintro literal _ rfl
  split
  · exact .map (moves_vbr _) fun _ _ h ↦ congrArg Operand.literal h
  · exact moves_encoded

theorem moves_repeated {x : Decode α} (hx : Moves front Eq x x) (count : Nat) (seen : List α) :
    Moves front Eq (repeated x count seen) (repeated x count seen) := by
  induction count generalizing seen with
  | zero => exact .pure rfl
  | succ count ih =>
    refine .bind hx ?_
    rintro a _ rfl
    exact ih (a :: seen)

theorem moves_definition : Moves front Eq definition definition := by
  refine .bind (moves_vbr _) ?_
  rintro count _ rfl
  refine .bind (moves_repeated moves_operand _ _) ?_
  rintro layout _ rfl
  exact .pure rfl

theorem moves_record : Moves front Eq record record := by
  refine .bind (moves_vbr _) ?_
  rintro code _ rfl
  refine .bind (moves_vbr _) ?_
  rintro count _ rfl
  refine .bind (moves_repeated (moves_vbr _) _ _) ?_
  rintro operands _ rfl
  exact .pure rfl

theorem moves_item {child child' : Decode Item} (hc : Moves front Eq child child') (id : UInt64) :
    Moves front Eq (item child id) (item child' id) :=
  .ite .rfl hc (.ite .rfl moves_definition (.ite .rfl moves_record (.throw rfl)))

theorem moves_marker (h : Header) : Moves front Eq (marker h) (marker h) := by
  refine .bind (P := fun s t ↦ t.cursor = s.cursor.behind front)
    (fun s t hst ↦ .ok hst hst) ?_
  intro s t hst
  refine .bind (moves_require (by rw [hst, Cursor.atEnd_behind]) rfl) ?_
  intro _ _ _
  exact moves_readOr rfl (Read.shifts_field _)

variable (hfront : 8 * front.size % 32 = 0)
include hfront

theorem moves_header :
    Moves front (fun r r' ↦ r'.1 = r.1 ∧ r'.2 = front.size + r.2) header header := by
  refine .bind (moves_vbr _) ?_
  rintro id _ rfl
  refine .bind (moves_require .rfl rfl) fun _ _ _ ↦ .bind (moves_vbr _) ?_
  rintro width _ rfl
  refine .bind (moves_require .rfl rfl) fun _ _ _ ↦
    .bind (moves_read (Read.shifts_align32 hfront)) fun _ _ _ ↦
      .bind (moves_read (Read.shifts_field _)) ?_
  rintro words _ rfl
  refine .bind (moves_read Read.shifts_byteOffset) fun start start' hstart ↦ ?_
  exact .bind (moves_note _ _) fun _ _ _ ↦ .pure ⟨rfl, hstart⟩

theorem moves_close (h : Header) (start : Nat) :
    Moves front Eq (close h start) (close h (front.size + start)) := by
  refine .bind (moves_readOr rfl (Read.shifts_align32 hfront)) fun _ _ _ ↦
    .bind (moves_read Read.shifts_byteOffset) ?_
  rintro stop _ rfl
  have hdiff : Moves front Eq (difference stop start)
      (difference (front.size + stop) (front.size + start)) := by
    unfold difference
    refine .ite (by omega) (.pure (by omega)) .violation
  refine .bind hdiff ?_
  rintro n _ rfl
  exact moves_require .rfl rfl

end Parts

section Nesting

theorem alike_items {child child' : Decode Item} (hmoves : Moves front Eq child child')
    (hc : IsSteady child) (hc' : IsSteady child') (h : Header) (seen : List Item) (s t : State)
    (hst : t.cursor = s.cursor.behind front) :
    Alike front State.cursor Eq (items child hc h seen s) (items child' hc' h seen t) := by
  -- along the rounds of the loop
  fun_induction items child hc h seen s generalizing t with
  | case1 seen s e u hm =>
    exact (moves_marker h).alike_of_error hst hm fun f v hm' ↦ items_of_noMarker hm'
  | case2 seen s u hm =>
    obtain ⟨_, v, hm', rfl, hv⟩ := (moves_marker h).ok_of_ok hst hm
    rw [items_of_end hm']
    exact .ok rfl hv
  | case3 seen s id u hm hid e v hi =>
    obtain ⟨_, u', hm', rfl, hu⟩ := (moves_marker h).ok_of_ok hst hm
    exact (moves_item hmoves id).alike_of_error hu hi fun f w hi' ↦ items_of_error hm' hid hi'
  | case4 seen s id u hm hid i v hi _ ih =>
    obtain ⟨_, u', hm', rfl, hu⟩ := (moves_marker h).ok_of_ok hst hm
    obtain ⟨_, v', hi', rfl, hv⟩ := (moves_item hmoves id).ok_of_ok hu hi
    rw [items_of_item hm' hid hi']
    exact ih v' hv

variable (hfront : 8 * front.size % 32 = 0)
include hfront

theorem moves_blockWith {child child' : Decode Item} (hmoves : Moves front Eq child child')
    (hc : IsSteady child) (hc' : IsSteady child') :
    Moves front Eq (blockWith child hc) (blockWith child' hc') := by
  refine .bind (moves_header hfront) ?_
  rintro ⟨h, start⟩ ⟨h', start'⟩ hr
  obtain ⟨rfl, rfl⟩ : h' = h ∧ start' = front.size + start := hr
  refine .bind (fun s t hst ↦ alike_items hmoves hc hc' _ [] s t hst) ?_
  rintro all _ rfl
  exact .bind (moves_close hfront _ start) fun _ _ _ ↦ .pure rfl

theorem moves_block (levels : Nat) : Moves front Eq (block levels).val (block levels).val := by
  induction levels with
  | zero => exact .throw rfl
  | succ levels ih =>
    exact moves_blockWith hfront (.map ih fun _ _ h ↦ congrArg Block.toItem h) _ _

theorem moves_topLevel : Moves front Eq topLevel topLevel := by
  refine .bind (moves_read (Read.shifts_field _)) ?_
  rintro id _ rfl
  exact .bind (moves_require .rfl rfl) fun _ _ _ ↦ moves_block hfront maxDepth

theorem alike_blocks (before seen : List Block) (s t : State)
    (hst : t.cursor = s.cursor.behind front) :
    Alike front State.cursor (fun bs bs' ↦ bs' = before.reverse ++ bs) (blocks seen s)
      (blocks (seen ++ before) t) := by
  fun_induction blocks seen s generalizing t with
  | case1 seen s hend =>
    rw [blocks, if_pos (by rw [hst, Cursor.atEnd_behind, hend])]
    exact .ok (by simp) hst
  | case2 seen s hend e u hb =>
    have hgo : t.cursor.atEnd = false := by simpa [hst, Cursor.atEnd_behind] using hend
    exact (moves_topLevel hfront).alike_of_error hst hb fun f v hb' ↦ blocks_of_error hgo hb'
  | case3 seen s hend b u hb _ ih =>
    have hgo : t.cursor.atEnd = false := by simpa [hst, Cursor.atEnd_behind] using hend
    obtain ⟨_, v, hb', rfl, hv⟩ := (moves_topLevel hfront).ok_of_ok hst hb
    rw [blocks_of_topLevel hgo hb']
    exact ih v hv

end Nesting

end Decode

end BlockStream
