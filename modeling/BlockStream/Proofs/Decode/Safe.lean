import BlockStream.Decode.Stream
import BlockStream.Proofs.Cursor.Safe
import BlockStream.Proofs.Decode.Grammar

namespace BlockStream.Decode

open Format Wire

abbrev IsSafe {α : Type} (x : Decode α) (s : State) (Q : α → State → Prop) : Prop :=
  Safe State.cursor x s Q

section Parts

variable {α : Type} {s : State}

theorem safe_read {x : Read α} {Q : α → Cursor → Prop} (h : Safe id x s.cursor Q) :
    IsSafe (read x) s fun a t ↦ Q a t.cursor := by
  rcases h.ends with ⟨a, c, hok, hc, hq⟩ | ⟨e, c, he, hc⟩
  · exact .of_ok (t := ⟨c, s.log⟩) (by rw [read, hok]) hc hq
  · exact .of_error (t := ⟨c, s.log⟩) (by rw [read, he]) hc

theorem safe_readOr {e : DecodeError} {x : Read α} {Q : α → Cursor → Prop}
    (h : Safe id x s.cursor Q) : IsSafe (readOr e x) s fun a t ↦ Q a t.cursor := by
  rcases h.ends with ⟨a, c, hok, hc, hq⟩ | ⟨f, c, hf, hc⟩
  · exact .of_ok (t := ⟨c, s.log⟩) (by rw [readOr, hok]) hc hq
  · exact .of_error (t := ⟨c, s.log⟩) (by rw [readOr, hf]) hc

theorem safe_require {p : Prop} [Decidable p] {e : DecodeError} (hs : s.cursor.Within) :
    IsSafe (require p e) s fun _ t ↦ p ∧ t = s := by
  unfold require
  split
  · rename_i hp
    exact .pure hs ⟨hp, rfl⟩
  · exact .throw hs

theorem safe_vbr {width : Nat} (hw : 2 ≤ width ∧ width ≤ 64) (hs : s.cursor.Within) :
    IsSafe (read (Read.vbr width)) s fun _ _ ↦ True := safe_read (Read.safe_vbr hw hs)

theorem safe_header (hs : s.cursor.Within) :
    IsSafe header s fun r t ↦ r.1.abbrevWidth.toNat ≤ maxAbbrevWidth ∧
      8 * r.2 ≤ t.cursor.pos := by
  refine .bind (safe_vbr (by decide) hs) ?_
  intro id s₁ hs₁ _
  refine .bind (safe_require hs₁) ?_
  intro _ s₂ hs₂ _
  refine .bind (safe_vbr (by decide) hs₂) ?_
  intro width s₃ hs₃ _
  refine .bind (safe_require hs₃) ?_
  intro _ s₄ hs₄ hwidth
  refine .bind (safe_read (Read.safe_align32 hs₄)) ?_
  intro _ s₅ hs₅ hword
  refine .bind (safe_read (Read.safe_field (by decide) hs₅)) ?_
  intro words s₆ hs₆ hpos
  refine .bind (safe_read (Read.safe_byteOffset hs₆ (by omega))) ?_
  intro start s₇ hs₇ hstart
  refine .bind (Q := fun _ t ↦ t.cursor = s₇.cursor) (.of_ok rfl hs₇ rfl) ?_
  intro _ s₈ hs₈ hstay
  refine .pure hs₈ ⟨?_, ?_⟩
  · obtain ⟨⟨-, hle⟩, -⟩ := hwidth
    rwa [Read.toNat_toUInt32 (Nat.lt_of_le_of_lt hle (by decide))]
  · obtain ⟨hsame, rfl⟩ := hstart
    rw [hstay, hsame]
    exact Nat.mul_div_le ..

theorem safe_close {h : Header} {bodyStart : Nat} (hs : s.cursor.Within)
    (hstart : 8 * bodyStart ≤ s.cursor.pos) : IsSafe (close h bodyStart) s fun _ _ ↦ True := by
  have halign := Safe.remember (Read.safe_align32 hs) Read.steady_align32
  refine .bind (safe_readOr halign) ?_
  intro _ s₁ hs₁ hbehind
  obtain ⟨hreach, hword⟩ := hbehind
  refine .bind (safe_read (Read.safe_byteOffset hs₁ (by omega))) ?_
  intro stop s₂ hs₂ hstop
  obtain ⟨-, rfl⟩ := hstop
  have hle : bodyStart ≤ s₁.cursor.pos / 8 := by
    have := hreach.pos_le
    simp only [id] at this
    omega
  refine .bind (Q := fun _ _ ↦ True) (.of_ok (by rw [difference, if_pos hle]; rfl) hs₂ trivial)
    fun _ s₃ hs₃ _ ↦ ?_
  exact (safe_require hs₃).mono fun _ _ _ ↦ trivial

theorem safe_operandWidth (hs : s.cursor.Within) : IsSafe operandWidth s fun _ _ ↦ True :=
  .bind (safe_vbr (by decide) hs) fun _ _ hs₁ _ ↦
    .bind (safe_require hs₁) fun _ _ hs₂ _ ↦ .pure hs₂ trivial

theorem safe_encoded (hs : s.cursor.Within) : IsSafe encoded s fun _ _ ↦ True := by
  refine .bind (safe_read (Read.safe_field (by decide) hs)) ?_
  intro tag s₁ hs₁ _
  split
  · exact .throw hs₁
  · exact .map _ (safe_operandWidth hs₁) fun _ _ _ ↦ trivial
  · exact .map _ (safe_operandWidth hs₁) fun _ _ _ ↦ trivial
  · exact .pure hs₁ trivial
  · exact .pure hs₁ trivial
  · exact .pure hs₁ trivial

theorem safe_operand (hs : s.cursor.Within) : IsSafe operand s fun _ _ ↦ True := by
  refine .bind (safe_read (Read.safe_bool hs)) ?_
  intro literal s₁ hs₁ _
  split
  · exact .map _ (safe_vbr (by decide) hs₁) fun _ _ _ ↦ trivial
  · exact safe_encoded hs₁

theorem safe_repeated {x : Decode α} (hx : ∀ t, t.cursor.Within → IsSafe x t fun _ _ ↦ True)
    (count : Nat) (seen : List α) (hs : s.cursor.Within) :
    IsSafe (repeated x count seen) s fun _ _ ↦ True := by
  induction count generalizing seen s with
  | zero => exact .pure hs trivial
  | succ count ih => exact .bind (hx s hs) fun a t ht _ ↦ ih (a :: seen) ht

theorem safe_definition (hs : s.cursor.Within) : IsSafe definition s fun _ _ ↦ True :=
  .bind (safe_vbr (by decide) hs) fun _ _ hs₁ _ ↦
    .bind (safe_repeated (fun _ ↦ safe_operand) _ _ hs₁) fun _ _ hs₂ _ ↦ .pure hs₂ trivial

theorem safe_record (hs : s.cursor.Within) : IsSafe record s fun _ _ ↦ True :=
  .bind (safe_vbr (by decide) hs) fun _ _ hs₁ _ ↦
    .bind (safe_vbr (by decide) hs₁) fun _ _ hs₂ _ ↦
      .bind (safe_repeated (fun _ ↦ safe_vbr (by decide)) _ _ hs₂) fun _ _ hs₃ _ ↦
        .pure hs₃ trivial

theorem safe_marker {h : Header} (hw : h.abbrevWidth.toNat ≤ maxAbbrevWidth)
    (hs : s.cursor.Within) : IsSafe (marker h) s fun _ _ ↦ True := by
  have hw64 : h.abbrevWidth.toNat ≤ 64 := Nat.le_trans hw (by decide)
  refine .bind (Q := fun _ t ↦ t = s) (.get hs rfl) ?_
  intro _ s₁ hs₁ _
  refine .bind (safe_require hs₁) ?_
  intro _ s₂ hs₂ _
  exact (safe_readOr (Read.safe_field hw64 hs₂)).mono fun _ _ _ ↦ trivial

theorem safe_item {child : Decode Item}
    (hc : ∀ t, t.cursor.Within → IsSafe child t fun _ _ ↦ True) (id : UInt64)
    (hs : s.cursor.Within) : IsSafe (item child id) s fun _ _ ↦ True := by
  unfold item
  split
  · exact hc s hs
  split
  · exact safe_definition hs
  split
  · exact safe_record hs
  · exact .throw hs

end Parts

section Nesting

theorem safe_items {child : Decode Item} (hc : IsSteady child)
    (hsafe : ∀ t, t.cursor.Within → IsSafe child t fun _ _ ↦ True) {h : Header}
    (hw : h.abbrevWidth.toNat ≤ maxAbbrevWidth) (seen : List Item) (s : State)
    (hs : s.cursor.Within) : IsSafe (items child hc h seen) s fun _ _ ↦ True := by
  -- along the rounds of the loop
  fun_induction items child hc h seen s with
  | case1 seen s e t hm =>
    obtain ⟨e, rfl, ht⟩ := (safe_marker hw hs).error_of_error hm
    exact .of_error (items_of_noMarker hm) ht
  | case2 seen s t hm =>
    exact .of_ok (items_of_end hm) ((safe_marker hw hs).within_of_ok hm) trivial
  | case3 seen s id t hm hid e u hi =>
    have ht := (safe_marker hw hs).within_of_ok hm
    obtain ⟨e, rfl, hu⟩ := (safe_item hsafe id ht).error_of_error hi
    exact .of_error (items_of_error hm hid hi) hu
  | case4 seen s id t hm hid i u hi _ ih =>
    have ht := (safe_marker hw hs).within_of_ok hm
    have hu := (safe_item hsafe id ht).within_of_ok hi
    exact .of_eq (items_of_item hm hid hi) (ih hu)

theorem safe_blockWith {child : Decode Item} {hc : IsSteady child}
    (hsafe : ∀ t, t.cursor.Within → IsSafe child t fun _ _ ↦ True) {s : State}
    (hs : s.cursor.Within) : IsSafe (blockWith child hc) s fun _ _ ↦ True := by
  refine .bind (safe_header hs) ?_
  intro r s₁ hs₁ hr
  obtain ⟨h, bodyStart⟩ := r
  obtain ⟨hw, hstart⟩ := hr
  have hitems := (safe_items hc hsafe hw [] s₁ hs₁).remember (steady_items hc h [])
  refine .bind hitems ?_
  intro all s₂ hs₂ hreach
  refine .bind (safe_close hs₂ (Nat.le_trans hstart hreach.1.pos_le)) ?_
  intro _ s₃ hs₃ _
  exact .pure hs₃ trivial

theorem safe_block (levels : Nat) (s : State) (hs : s.cursor.Within) :
    IsSafe (block levels).val s fun _ _ ↦ True := by
  induction levels generalizing s with
  | zero => exact .throw hs
  | succ levels ih =>
    exact safe_blockWith (fun t ht ↦ .map _ (ih t ht) fun _ _ _ ↦ trivial) hs

theorem safe_topLevel {s : State} (hs : s.cursor.Within) :
    IsSafe topLevel s fun _ _ ↦ True :=
  .bind (safe_read (Read.safe_field (by decide) hs)) fun _ _ hs₁ _ ↦
    .bind (safe_require hs₁) fun _ s₂ hs₂ _ ↦ safe_block maxDepth s₂ hs₂

theorem safe_blocks (seen : List Block) (s : State) (hs : s.cursor.Within) :
    IsSafe (blocks seen) s fun _ _ ↦ True := by
  fun_induction blocks seen s with
  | case1 seen s hend => exact .of_ok (by rw [blocks, if_pos hend]) hs trivial
  | case2 seen s hend e t he =>
    obtain ⟨e, rfl, ht⟩ := (safe_topLevel hs).error_of_error he
    exact .of_error (blocks_of_error (by simpa using hend) he) ht
  | case3 seen s hend b t hb _ ih =>
    have ht := (safe_topLevel hs).within_of_ok hb
    exact .of_eq (blocks_of_topLevel (by simpa using hend) hb) (ih ht)

end Nesting

section Counts

/-- Wherever a declared number of values exceeds the bits that are left, reading them ends with one
error, the same for all such numbers. -/
def StopsInside {α : Type} (x : Decode α) : Prop :=
  ∀ (s : State) (seen : List α), s.cursor.Within →
    ∃ e t, t.cursor.Within ∧
      ∀ count, s.cursor.left < count → repeated x count seen s = .error (.error e) t

theorem stopsInside_of_recognizes {α : Type} {x : Decode α} {P : α → List Bool → Prop}
    (hsafe : ∀ s, s.cursor.Within → IsSafe x s fun _ _ ↦ True) (hx : Recognizes x fun _ ↦ P)
    (hP : ∀ a, ¬ P a []) : StopsInside x := by
  -- on the bits that are left, of which each value takes one at least
  intro s
  induction hn : s.cursor.left using Nat.strongRecOn generalizing s with
  | ind n ih =>
    subst hn
    intro seen hs
    have hcount {count : Nat} (h : s.cursor.left < count) : ∃ k, count = k + 1 :=
      Nat.exists_eq_succ_of_ne_zero (by omega)
    rcases (hsafe s hs).ends with ⟨a, t, hok, ht, -⟩ | ⟨e, t, he, ht⟩
    · obtain ⟨bits, hbits, htake⟩ := hx.sound hs hok
      have hlt : t.cursor.left < s.cursor.left := by
        have hpos : 0 < bits.length := List.length_pos_of_ne_nil fun hnil ↦ hP a (hnil ▸ hbits)
        have hin := htake.inside
        simp only [Cursor.left, Cursor.bitLen, htake.bytes_eq, htake.pos_eq] at hin ⊢
        omega
      obtain ⟨e, u, hu, hstop⟩ := ih _ hlt t rfl (a :: seen) ht
      refine ⟨e, u, hu, ?_⟩
      intro count h
      obtain ⟨k, rfl⟩ := hcount h
      exact (bind_of_ok hok).trans (hstop k (by omega))
    · refine ⟨e, t, ht, ?_⟩
      intro count h
      obtain ⟨k, rfl⟩ := hcount h
      exact bind_of_error he

theorem not_isVbr_nil {width value : Nat} (hw : 0 < width) : ¬ IsVbr width value [] := by
  rintro ⟨-, chunks, hchain, -, -, hnil⟩
  obtain ⟨chunk, rest, rfl⟩ := List.exists_cons_of_ne_nil hchain.ne_nil
  have hlen := congrArg List.length hnil
  rw [List.flatMap_cons, List.length_append, length_bitsOf, List.length_nil] at hlen
  omega

theorem stopsInside_operand : StopsInside operand :=
  stopsInside_of_recognizes (fun _ ↦ safe_operand) recognizes_operand fun _ h ↦ by cases h

theorem stopsInside_recordValue : StopsInside (read (Read.vbr recordChunk)) :=
  stopsInside_of_recognizes (fun _ ↦ safe_vbr (by decide)) recognizes_recordNumber
    fun _ ↦ not_isVbr_nil (by decide)

end Counts

/-- Decoding ends on all bytes with a stream or an error of its own, never with a broken contract.
No number of values that the bytes declare leads a loop out of them. -/
theorem decode_safe (bytes : ByteArray) :
    ((∃ S, Stream.decode bytes = .ok S) ∨ ∃ e, Stream.decode bytes = .error (.error e)) ∧
      StopsInside operand ∧ StopsInside (read (Read.vbr recordChunk)) := by
  refine ⟨?_, stopsInside_operand, stopsInside_recordValue⟩
  by_cases hmagic : hasMagic bytes = true
  · obtain ⟨body, rfl⟩ := hasMagic_iff.mp hmagic
    rw [decode_magic_append]
    rcases (safe_blocks [] ⟨⟨body, 0⟩, #[]⟩ (Nat.zero_le _)).ends with
      ⟨bs, t, hok, -⟩ | ⟨e, t, he, -⟩
    · exact .inl ⟨⟨bs⟩, by rw [hok]⟩
    · exact .inr ⟨e, by rw [he]⟩
  · exact .inr ⟨_, decode_of_not_hasMagic hmagic⟩

end BlockStream.Decode
