import BlockStream.Decode.Steady
import BlockStream.Proofs.Cursor.Takes

namespace BlockStream.Decode

open Format Wire

/-- A computation succeeds with this value and at this cursor, whatever it logs. -/
def Yields {α : Type} (x : Decode α) (s : State) (a : α) (d : Cursor) : Prop :=
  ∃ log, x s = .ok a ⟨d, log⟩

/-- A computation reads exactly the values that bits at its position are written as. -/
structure Recognizes {α : Type} (x : Decode α) (P : (pos : Nat) → α → List Bool → Prop) : Prop where
  sound : ∀ {s t : State} {a : α}, s.cursor.pos ≤ s.cursor.bitLen → x s = .ok a t →
    ∃ bits, P s.cursor.pos a bits ∧ s.cursor.Takes bits t.cursor
  complete : ∀ {s : State} {a : α} {bits : List Bool} {d : Cursor}, P s.cursor.pos a bits →
    s.cursor.Takes bits d → Yields x s a d

section Computations

variable {α β : Type} {x : Decode α} {s t : State} {a : α} {c d : Cursor}

theorem Yields.bind {f : α → Decode β} {b : β} (hx : Yields x s a c)
    (hf : ∀ log, Yields (f a) ⟨c, log⟩ b d) : Yields (x >>= f) s b d := by
  obtain ⟨log, hx⟩ := hx
  obtain ⟨log', hf⟩ := hf log
  exact ⟨log', (bind_of_ok hx).trans hf⟩

theorem Yields.map (g : α → β) (hx : Yields x s a c) : Yields (g <$> x) s (g a) c :=
  hx.imp fun _ h ↦ map_of_ok h

theorem ok_of_map {g : α → β} {b : β} (h : (g <$> x) s = .ok b t) :
    ∃ a, x s = .ok a t ∧ b = g a := by
  cases hx : x s with
  | ok a u =>
    cases (map_of_ok hx).symm.trans h
    exact ⟨a, rfl, rfl⟩
  | error e u => cases (map_of_error hx).symm.trans h

theorem yields_pure (a : α) : Yields (pure a) s a s.cursor := ⟨s.log, rfl⟩

theorem yields_require {p : Prop} [Decidable p] {e : DecodeError} (hp : p) :
    Yields (require p e) s () s.cursor := ⟨s.log, by rw [require, if_pos hp]; rfl⟩

theorem yields_note (e : Event) : Yields (note e) s () s.cursor := ⟨s.log.push e, rfl⟩

theorem yields_read {x : Read α} (h : x s.cursor = .ok a d) : Yields (read x) s a d :=
  ⟨s.log, by simp only [read, h]⟩

theorem yields_readOr {x : Read α} {e : DecodeError} (h : x s.cursor = .ok a d) :
    Yields (readOr e x) s a d := ⟨s.log, by simp only [readOr, h]⟩

end Computations

theorem recognizes_vbr {width : Nat} (hw : 2 ≤ width ∧ width ≤ 64) :
    Recognizes (read (Read.vbr width)) fun _ v bits ↦ IsVbr width v.toNat bits where
  sound _ h := Read.takes_of_vbr (ok_of_read h)
  complete hv htake := yields_read (by
    rw [Read.vbr_of_takes hw hv htake, Read.toUInt64_toNat])

theorem takes_of_repeated {α : Type} {x : Decode α} {P : α → List Bool → Prop}
    (hx : Recognizes x fun _ ↦ P) (count : Nat) (seen : List α) {s t : State} {all : List α}
    (hs : s.cursor.pos ≤ s.cursor.bitLen) (h : repeated x count seen s = .ok all t) :
    ∃ xs bits, all = seen.reverse ++ xs ∧ xs.length = count ∧ IsList P xs bits ∧
      s.cursor.Takes bits t.cursor := by
  induction count generalizing seen s with
  | zero =>
    cases h
    exact ⟨[], [], by simp, rfl, isList_nil.mpr rfl, .refl hs⟩
  | succ count ih =>
    obtain ⟨a, u, ha, h⟩ := ok_of_bind h
    obtain ⟨front, hfront, htake⟩ := hx.sound hs ha
    obtain ⟨xs, back, rfl, hlen, hlist, htake'⟩ := ih (a :: seen) htake.pos_le h
    exact ⟨a :: xs, front ++ back, by simp, by rw [List.length_cons, hlen],
      isList_cons.mpr ⟨_, _, hfront, hlist, rfl⟩, htake.trans htake'⟩

theorem yields_repeated {α : Type} {x : Decode α} {P : α → List Bool → Prop}
    (hx : Recognizes x fun _ ↦ P) (xs seen : List α) {s : State} {bits : List Bool} {d : Cursor}
    (hlist : IsList P xs bits) (htake : s.cursor.Takes bits d) :
    Yields (repeated x xs.length seen) s (seen.reverse ++ xs) d := by
  induction xs generalizing seen s bits with
  | nil =>
    rw [isList_nil.mp hlist] at htake
    obtain ⟨rfl, -, -⟩ := htake
    simpa [repeated] using yields_pure seen.reverse
  | cons a xs ih =>
    obtain ⟨front, back, hfront, hback, rfl⟩ := isList_cons.mp hlist
    obtain ⟨c, hc, hd⟩ := htake.split
    apply (hx.complete hfront hc).bind
    intro log
    simpa using ih (a :: seen) hback hd

theorem recognizes_operandWidth :
    Recognizes operandWidth fun _ w bits ↦ IsVbr operandWidthChunk w.toNat bits where
  sound hs h := by
    obtain ⟨v, u, hv, h₁⟩ := ok_of_bind h
    obtain ⟨bits, hbits, htake⟩ := (recognizes_vbr (by decide)).sound hs hv
    obtain ⟨_, _, hr, h₂⟩ := ok_of_bind h₁
    obtain ⟨hlt, rfl⟩ := ok_of_require hr
    cases h₂
    refine ⟨bits, ?_, htake⟩
    rwa [Read.toNat_toUInt32 hlt]
  complete {s w bits d} hw htake := by
    refine ((recognizes_vbr (by decide)).complete (a := w.toUInt64) (by simpa using hw)
      htake).bind fun log ↦ ?_
    apply (yields_require (by simpa using w.toNat_lt)).bind
    intro log'
    simpa using yields_pure (s := ⟨d, log'⟩) w.toUInt64.toUInt32

theorem tag_of_ofTag? {tag : UInt64} {e : Encoding} (h : Encoding.ofTag? tag = some e) :
    tag.toNat = e.tag := by
  have := List.find?_some h
  exact (beq_iff_eq.mp this).symm

theorem recognizes_encoded : Recognizes encoded fun _ op bits ↦ IsOperand op (false :: bits) where
  sound hs h := by
    obtain ⟨tag, u, htag, h⟩ := ok_of_bind h
    obtain ⟨-, htake⟩ := Read.takes_of_field (ok_of_read htag)
    cases hmeans : Encoding.ofTag? tag with
    | none =>
      rw [hmeans] at h
      cases h
    | some e =>
      rw [hmeans] at h
      rw [tag_of_ofTag? hmeans] at htake
      cases e with
      | fixed =>
        obtain ⟨w, hw, rfl⟩ := ok_of_map h
        obtain ⟨bits, hbits, htake'⟩ := recognizes_operandWidth.sound htake.pos_le hw
        exact ⟨_, .fixed hbits, htake.trans htake'⟩
      | vbr =>
        obtain ⟨w, hw, rfl⟩ := ok_of_map h
        obtain ⟨bits, hbits, htake'⟩ := recognizes_operandWidth.sound htake.pos_le hw
        exact ⟨_, .vbr hbits, htake.trans htake'⟩
      | array =>
        cases h
        exact ⟨_, .array, htake⟩
      | char6 =>
        cases h
        exact ⟨_, .char6, htake⟩
      | blob =>
        cases h
        exact ⟨_, .blob, htake⟩
  complete h htake := by
    cases h with
    | fixed hw =>
      obtain ⟨c, hc, hd⟩ := htake.split
      exact (yields_read (Read.field_of_takes hc (by decide) (by decide))).bind fun log ↦
        (recognizes_operandWidth.complete hw hd).map Operand.fixed
    | vbr hw =>
      obtain ⟨c, hc, hd⟩ := htake.split
      exact (yields_read (Read.field_of_takes hc (by decide) (by decide))).bind fun log ↦
        (recognizes_operandWidth.complete hw hd).map Operand.vbr
    | array | char6 | blob =>
      exact (yields_read (Read.field_of_takes htake (by decide) (by decide))).bind fun log ↦
        yields_pure _

theorem recognizes_bool : Recognizes (read Read.bool) fun _ b bits ↦ bits = [b] where
  sound hs h := by
    obtain ⟨v, u, hv, h⟩ := ok_of_bind (ok_of_read h)
    cases h
    obtain ⟨hlt, htake⟩ := Read.takes_of_field hv
    refine ⟨_, ?_, htake⟩
    have hcases : v = 0 ∨ v = 1 := by
      rw [← UInt64.toNat_inj, ← UInt64.toNat_inj, UInt64.toNat_zero, UInt64.toNat_one]
      omega
    rcases hcases with rfl | rfl <;> rfl
  complete h htake := yields_read (Read.bool_of_takes (h ▸ htake))

theorem recognizes_operand : Recognizes operand fun _ ↦ IsOperand where
  sound hs h := by
    obtain ⟨b, u, hb, h⟩ := ok_of_bind h
    obtain ⟨_, rfl, htake⟩ := recognizes_bool.sound hs hb
    cases b with
    | true =>
      obtain ⟨v, hv, rfl⟩ := ok_of_map h
      obtain ⟨bits, hbits, htake'⟩ := (recognizes_vbr (by decide)).sound htake.pos_le hv
      exact ⟨_, .literal hbits, htake.trans htake'⟩
    | false =>
      obtain ⟨bits, hbits, htake'⟩ := recognizes_encoded.sound htake.pos_le h
      exact ⟨_, hbits, htake.trans htake'⟩
  complete {s op bits d} h htake := by
    obtain ⟨b, rest, rfl⟩ : ∃ b rest, bits = b :: rest := by cases h <;> exact ⟨_, _, rfl⟩
    obtain ⟨c, hc, hd⟩ := (show s.cursor.Takes ([b] ++ rest) d from htake).split
    apply (recognizes_bool.complete rfl hc).bind
    intro log
    cases b with
    | true =>
      cases h with
      | literal hv => exact ((recognizes_vbr (by decide)).complete hv hd).map Operand.literal
    | false => exact recognizes_encoded.complete h hd

theorem recognizes_definition :
    Recognizes definition fun _ item bits ↦
      ∃ layout, item = .definition layout ∧ IsDefinition layout bits where
  sound hs h := by
    obtain ⟨count, u, hcount, h⟩ := ok_of_bind h
    obtain ⟨front, hfront, htake⟩ := (recognizes_vbr (by decide)).sound hs hcount
    obtain ⟨layout, v, hlayout, h⟩ := ok_of_bind h
    obtain ⟨xs, back, rfl, hlen, hlist, htake'⟩ :=
      takes_of_repeated recognizes_operand _ _ htake.pos_le hlayout
    cases h
    exact ⟨_, ⟨_, rfl, front, back, hlen.symm ▸ hfront, hlist, rfl⟩, htake.trans htake'⟩
  complete {s item bits d} h htake := by
    obtain ⟨layout, rfl, front, back, hfront, hlist, rfl⟩ := h
    obtain ⟨c, hc, hd⟩ := htake.split
    have hlen := Read.toNat_toUInt64 hfront.1
    apply ((recognizes_vbr (by decide)).complete (by rwa [hlen]) hc).bind
    intro log
    rw [hlen]
    exact (yields_repeated recognizes_operand layout [] hlist hd).bind fun log' ↦ yields_pure _

theorem recognizes_recordNumber :
    Recognizes (read (Read.vbr recordChunk)) fun _ v bits ↦ IsVbr recordChunk v.toNat bits :=
  recognizes_vbr (by decide)

theorem recognizes_record :
    Recognizes record fun _ item bits ↦
      ∃ code operands, item = .record code operands ∧ IsRecord code operands bits where
  sound hs h := by
    obtain ⟨code, u, hcode, h⟩ := ok_of_bind h
    obtain ⟨number, hnumber, htake⟩ := recognizes_recordNumber.sound hs hcode
    obtain ⟨count, u', hcount, h⟩ := ok_of_bind h
    obtain ⟨front, hfront, htake'⟩ := recognizes_recordNumber.sound htake.pos_le hcount
    obtain ⟨operands, v, hoperands, h⟩ := ok_of_bind h
    obtain ⟨xs, back, rfl, hlen, hlist, htake''⟩ :=
      takes_of_repeated recognizes_recordNumber _ _ htake'.pos_le hoperands
    cases h
    exact ⟨_, ⟨_, _, rfl, number, front, back, hnumber, hlen.symm ▸ hfront, hlist, rfl⟩,
      (htake.trans htake').trans htake''⟩
  complete {s item bits d} h htake := by
    obtain ⟨code, operands, rfl, number, front, back, hnumber, hfront, hlist, rfl⟩ := h
    obtain ⟨c', hc', hd⟩ := htake.split
    obtain ⟨c, hc, hc'⟩ := hc'.split
    have hlen := Read.toNat_toUInt64 hfront.1
    apply (recognizes_recordNumber.complete hnumber hc).bind
    intro log
    apply (recognizes_recordNumber.complete (by rwa [hlen]) hc').bind
    intro log'
    rw [hlen]
    exact (yields_repeated recognizes_recordNumber operands [] hlist hd).bind fun log'' ↦
      yields_pure _

theorem ok_of_byteOffset {c d : Cursor} {n : Nat} (h : Read.byteOffset c = .ok n d) :
    n = c.pos / 8 ∧ d = c := by
  rw [Read.byteOffset] at h
  split at h <;> cases h
  exact ⟨rfl, rfl⟩

theorem ok_of_difference {a b n : Nat} {s t : State}
    (h : (difference a b : Decode Nat) s = .ok n t) : b ≤ a ∧ n = a - b ∧ t = s := by
  unfold difference at h
  split at h <;> cases h
  exact ⟨by assumption, rfl, rfl⟩

theorem recognizes_header :
    Recognizes header fun pos (r : Header × Nat) bits ↦
      IsHeader pos r.1 bits ∧ r.2 = (pos + bits.length) / 8 where
  sound {s t r} hs h := by
    obtain ⟨id, s₁, hid, h₁⟩ := ok_of_bind h
    obtain ⟨idBits, hidBits, htake₁⟩ := (recognizes_vbr (by decide)).sound hs hid
    obtain ⟨_, _, hr₁, h₂⟩ := ok_of_bind h₁
    obtain ⟨hidLt, rfl⟩ := ok_of_require hr₁
    obtain ⟨width, s₂, hwidth, h₃⟩ := ok_of_bind h₂
    obtain ⟨widthBits, hwidthBits, htake₂⟩ :=
      (recognizes_vbr (by decide)).sound htake₁.pos_le hwidth
    obtain ⟨_, _, hr₂, h₄⟩ := ok_of_bind h₃
    obtain ⟨⟨hpos, hle⟩, rfl⟩ := ok_of_require hr₂
    obtain ⟨_, s₃, halign, h₅⟩ := ok_of_bind h₄
    obtain ⟨padding, hpadding, htake₃⟩ := Read.takes_of_align32 (ok_of_read halign)
    obtain ⟨words, s₄, hwords, h₆⟩ := ok_of_bind h₅
    obtain ⟨hwordsLt, htake₄⟩ := Read.takes_of_field (ok_of_read hwords)
    obtain ⟨start, s₅, hstart, h₇⟩ := ok_of_bind h₆
    obtain ⟨rfl, hstay⟩ := ok_of_byteOffset (ok_of_read hstart)
    obtain ⟨_, _, hnote, h₈⟩ := ok_of_bind h₇
    cases hnote
    cases h₈
    have htake := ((htake₁.trans htake₂).trans htake₃).trans htake₄
    have hidWord := Read.toNat_toUInt32 hidLt
    have hwidthWord := Read.toNat_toUInt32 (Nat.lt_of_le_of_lt hle (by decide))
    have hwordsWord := Read.toNat_toUInt32 hwordsLt
    refine ⟨_, ⟨⟨idBits, widthBits, padding, ?_, ?_, ?_, ?_, ?_, ?_⟩, ?_⟩, hstay ▸ htake⟩
    · rwa [hidWord]
    · rwa [hwidthWord]
    · rwa [hwidthWord]
    · rwa [hwidthWord]
    · rwa [← htake₁.pos_eq, ← htake₂.pos_eq]
    · rw [hwordsWord]
    · rw [← htake.pos_eq]
  complete {s r bits d} h htake := by
    obtain ⟨⟨id, width, words⟩, start⟩ := r
    obtain ⟨⟨idBits, widthBits, padding, hid, hwidth, hpos, hle, hpadding, rfl⟩, hstart⟩ := h
    dsimp only at hid hwidth hpos hle hpadding hstart htake ⊢
    obtain ⟨c₃, hc₃, hc₄⟩ := htake.split
    obtain ⟨c₂, hc₂, hc₃⟩ := hc₃.split
    obtain ⟨c₁, hc₁, hc₂⟩ := hc₂.split
    refine ((recognizes_vbr (by decide)).complete (a := id.toUInt64) (by simpa using hid)
      hc₁).bind fun log₁ ↦ ?_
    apply (yields_require (by simpa using id.toNat_lt)).bind
    intro log₂
    refine ((recognizes_vbr (by decide)).complete (a := width.toUInt64) (by simpa using hwidth)
      hc₂).bind fun log₃ ↦ ?_
    apply (yields_require (by simpa using ⟨hpos, hle⟩)).bind
    intro log₄
    refine (yields_read (Read.align32_of_takes (by rwa [← hc₁.pos_eq, ← hc₂.pos_eq] at hpadding)
      hc₃)).bind fun log₅ ↦ ?_
    refine (yields_read (Read.field_of_takes hc₄ (by decide) (by simpa using words.toNat_lt))).bind
      fun log₆ ↦ ?_
    have haligned : d.pos % 8 = 0 := by
      have hend := hpadding.2
      rw [htake.pos_eq]
      simp only [List.length_append, length_bitsOf] at hend ⊢
      omega
    apply (yields_read (Read.byteOffset_of_aligned haligned)).bind
    intro log₇
    apply (yields_note _).bind
    intro log₈
    rw [hstart, ← htake.pos_eq]
    simpa using yields_pure (s := ⟨d, log₈⟩) ((⟨id, width, words⟩ : Header), d.pos / 8)

theorem recognizes_marker {h : Header} (hpos : 0 < h.abbrevWidth.toNat)
    (hle : h.abbrevWidth.toNat ≤ maxAbbrevWidth) :
    Recognizes (marker h) fun _ id bits ↦ IsField h.abbrevWidth.toNat id.toNat bits where
  sound hs hm := by
    obtain ⟨_, _, hg, h₁⟩ := ok_of_bind hm
    cases hg
    obtain ⟨_, _, hr, h₂⟩ := ok_of_bind h₁
    obtain ⟨-, rfl⟩ := ok_of_require hr
    obtain ⟨hlt, htake⟩ := Read.takes_of_field (ok_of_readOr h₂)
    exact ⟨_, ⟨hlt, rfl⟩, htake⟩
  complete {s id bits d} hid htake := by
    obtain ⟨hlt, rfl⟩ := hid
    have hinside := htake.inside
    rw [length_bitsOf] at hinside
    have hend : s.cursor.atEnd = false := by
      rw [Cursor.atEnd, decide_eq_false_iff_not]
      omega
    have hle64 : h.abbrevWidth.toNat ≤ 64 := Nat.le_trans hle (by decide)
    refine Yields.bind (a := s) (c := s.cursor) ⟨s.log, rfl⟩ ?_
    intro log
    apply (yields_require hend).bind
    intro log'
    have hf := Read.field_of_takes htake hle64 hlt
    rw [Read.toUInt64_toNat] at hf
    exact yields_readOr hf

theorem recognizes_close (h : Header) (start : Nat) :
    Recognizes (close h start) fun pos _ bits ↦ IsPadding pos bits ∧
      start ≤ (pos + bits.length) / 8 ∧
      ((pos + bits.length) / 8 - start) / 4 = h.lengthWords.toNat where
  sound hs hc := by
    obtain ⟨_, s₁, halign, h₁⟩ := ok_of_bind hc
    obtain ⟨padding, hpadding, htake⟩ := Read.takes_of_align32 (ok_of_readOr halign)
    obtain ⟨stop, s₂, hstop, h₂⟩ := ok_of_bind h₁
    obtain ⟨rfl, hstay⟩ := ok_of_byteOffset (ok_of_read hstop)
    obtain ⟨n, s₃, hdiff, h₃⟩ := ok_of_bind h₂
    obtain ⟨hle, rfl, rfl⟩ := ok_of_difference hdiff
    obtain ⟨hlength, rfl⟩ := ok_of_require h₃
    exact ⟨padding, ⟨hpadding, by rwa [← htake.pos_eq], by rwa [← htake.pos_eq]⟩, hstay ▸ htake⟩
  complete {s _ bits d} hc htake := by
    obtain ⟨hpadding, hle, hlength⟩ := hc
    rw [← htake.pos_eq] at hle hlength
    apply (yields_readOr (Read.align32_of_takes hpadding htake)).bind
    intro log₁
    have haligned : d.pos % 8 = 0 := by
      have hend := hpadding.2
      rw [← htake.pos_eq] at hend
      omega
    apply (yields_read (Read.byteOffset_of_aligned haligned)).bind
    intro log₂
    refine Yields.bind (a := d.pos / 8 - start) (c := d)
      ⟨log₂, by rw [difference, if_pos hle]; rfl⟩ fun log₃ ↦ ?_
    exact yields_require hlength

end BlockStream.Decode
