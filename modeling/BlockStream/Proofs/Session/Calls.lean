import BlockStream.Proofs.Session.Framing

namespace BlockStream.Session

/-- The calls that a run is made of. A block around a body is an opening call, the calls of the body
and a closing call. The buffer may be appended to directly in any way. -/
inductive Call
  | openBlock (id : UInt32)
  | closeBlock (scope : Scope)
  | record (code : UInt32) (operands : List UInt64)
  | define (layout : Layout) (types : UInt32)
  | append (step : { step : Buffer.Step // step.isAppend = true })
  | note (event : Event)

def next (s : Session) : Call → Session
  | .openBlock id => finalState (Emit.beginBlock id s)
  | .closeBlock scope => finalState (Emit.endBlock scope s)
  | .record code operands => finalState (Emit.record code operands s)
  | .define layout types => finalState (Emit.define layout types s)
  | .append step => finalState (Emit.onBuffer step.val.run s)
  | .note event => finalState (Emit.note event s)

def after (s : Session) (calls : List Call) : Session := calls.foldl next s

@[simp] theorem after_nil (s : Session) : s.after [] = s := rfl

@[simp] theorem after_cons (s : Session) (call : Call) (calls : List Call) :
    s.after (call :: calls) = (s.next call).after calls := rfl

@[simp] theorem after_append (s : Session) (xs ys : List Call) :
    s.after (xs ++ ys) = (s.after xs).after ys := List.foldl_append

namespace Call

def Opens (call : Call) (s : Session) (scope : Scope) : Prop :=
  ∃ id t, call = .openBlock id ∧ Emit.beginBlock id s = .ok scope t

def Closes (call : Call) (s : Session) (scope : Scope) : Prop :=
  ∃ t, call = .closeBlock scope ∧ Emit.endBlock scope s = .ok () t

end Call

/-- The open blocks of a session: their length words are aligned, clear, and apart from one another,
the inner ones behind the outer ones. -/
structure Sound (s : Session) : Prop where
  tidy : s.out.Tidy
  aligned : ∀ f ∈ s.frames, f.lengthOffset % 4 = 0
  inside : ∀ f ∈ s.frames, 8 * (f.lengthOffset + 4) ≤ s.out.bitLen
  clear : ∀ f ∈ s.frames, s.out.HasWord f.lengthOffset 0
  apart : s.frames.Pairwise fun inner outer ↦ outer.lengthOffset + 4 ≤ inner.lengthOffset

theorem sound_start (existing : ByteArray) : (start existing).Sound where
  tidy := (Buffer.adds_pushBytes (Buffer.tidy_ofBytes existing) Format.magic).tidy
  aligned _ h := absurd h List.not_mem_nil
  inside _ h := absurd h List.not_mem_nil
  clear _ h := absurd h List.not_mem_nil
  apart := .nil

/-- All that a call can do. -/
inductive Moves (s : Session) (call : Call) (t : Session) : Prop
  | stays {xs : List Bool} (adds : s.out.Adds xs t.out) (frames : t.frames = s.frames)
      (opens : ∀ scope, ¬ call.Opens s scope) (closes : ∀ scope, ¬ call.Closes s scope)
  | opens {kind : BlockKind} {offset : Nat} {xs : List Bool}
      (opened : ∀ scope, call.Opens s scope ↔ scope = ⟨⟨kind, offset⟩, s.depth + 1⟩)
      (closes : ∀ scope, ¬ call.Closes s scope)
      (adds : s.out.Adds (xs ++ bitsOf 32 0) t.out) (behind : 8 * offset = s.out.bitLen + xs.length)
      (aligned : offset % 4 = 0) (frames : t.frames = ⟨kind, offset⟩ :: s.frames)
  | closes {scope : Scope} {xs : List Bool} {out : Buffer} {words : UInt32}
      (opens : ∀ scope, ¬ call.Opens s scope)
      (closed : ∀ other, call.Closes s other ↔ other = scope)
      (frames : s.frames = scope.frame :: t.frames) (depth : scope.depth = s.depth)
      (adds : s.out.Adds xs out)
      (length : 8 * (scope.frame.lengthOffset + 4) + 32 * words.toNat = out.bitLen)
      (nonempty : words ≠ 0)
      (overwrites : t.out = out.overwrite scope.frame.lengthOffset words)

section Steps

variable {s : Session} (hs : s.Sound)
include hs

theorem moves_openBlock (id : UInt32) : s.Moves (.openBlock id) (s.next (.openBlock id)) := by
  have hcloses (scope : Scope) : ¬ (Call.openBlock id).Closes s scope := by
    rintro ⟨_, ⟨⟩, _⟩
  cases hk : BlockKind.ofId? id with
  | none =>
    have hrun := Emit.beginBlock_of_unknown (s := s) hk
    rw [next, finalState_of_error hrun]
    refine .stays (.refl hs.tidy) rfl ?_ hcloses
    rintro scope ⟨_, t, ⟨⟩, hok⟩
    cases hrun.symm.trans hok
  | some kind =>
    obtain ⟨out, offset, log, hrun, hadds, hbehind⟩ := Emit.beginBlock_of_kind hs.tidy hk
    have haligned := Wire.opening_aligned s.out.bitLen s.width id kind.abbrevWidth
    rw [next, finalState_of_ok hrun]
    refine .opens (fun scope ↦ ⟨?_, ?_⟩) hcloses hadds hbehind (by omega) rfl
    · rintro ⟨_, t, ⟨⟩, hok⟩
      cases hrun.symm.trans hok
      rfl
    · rintro rfl
      exact ⟨id, _, rfl, hrun⟩

theorem moves_closeBlock (scope : Scope) :
    s.Moves (.closeBlock scope) (s.next (.closeBlock scope)) := by
  have hopens (other : Scope) : ¬ (Call.closeBlock scope).Opens s other := by
    rintro ⟨_, _, ⟨⟩, _⟩
  have hrefused {e : Fault EncodeError} {t : Session} (he : Emit.endBlock scope s = .error e t)
      (other : Scope) : ¬ (Call.closeBlock scope).Closes s other := by
    rintro ⟨u, ⟨⟩, hok⟩
    cases he.symm.trans hok
  by_cases hmatch : s.frames.head? = some scope.frame ∧ scope.depth = s.depth
  · obtain ⟨hhead, hdepth⟩ := hmatch
    obtain ⟨rest, hframes⟩ := List.head?_eq_some_iff.mp hhead
    have hmem : scope.frame ∈ s.frames := hframes ▸ List.mem_cons_self
    have hword := hs.aligned _ hmem
    have hin := hs.inside _ hmem
    obtain ⟨out, hadds, hfits, hlarge⟩ :=
      Emit.endBlock_of_match hs.tidy scope hframes hdepth hword hin
    have hlen := hadds.bitLen_eq
    have hend := Wire.closing_aligned s.out.bitLen s.width
    have hpos := Wire.length_closing_pos s.out.bitLen s.width_pos
    rcases Nat.lt_or_ge ((out.bitLen - 8 * (scope.frame.lengthOffset + 4)) / 32) UInt32.size with
      hlt | hge
    · obtain ⟨words, hwords⟩ : ∃ words : UInt32,
          8 * (scope.frame.lengthOffset + 4) + 32 * words.toNat = out.bitLen := by
        refine ⟨((out.bitLen - 8 * (scope.frame.lengthOffset + 4)) / 32).toUInt32, ?_⟩
        rw [Nat.toUInt32_eq, UInt32.toNat_ofNat_of_lt' hlt]
        omega
      have hnonempty : words ≠ 0 := by
        rintro rfl
        rw [UInt32.toNat_zero] at hwords
        omega
      have hrun := hfits words hwords
      rw [next, finalState_of_ok hrun]
      refine .closes hopens (fun other ↦ ⟨?_, ?_⟩) hframes hdepth hadds hwords hnonempty rfl
      · rintro ⟨_, ⟨⟩, -⟩
        rfl
      · rintro rfl
        exact ⟨_, rfl, hrun⟩
    · obtain ⟨e, hrun⟩ := hlarge (by omega)
      rw [next, finalState_of_error hrun]
      exact .stays hadds rfl hopens (hrefused hrun)
  · have hrun := Emit.endBlock_of_mismatch hmatch
    rw [next, finalState_of_error hrun]
    exact .stays (.refl hs.tidy) rfl hopens (hrefused hrun)

omit hs in
theorem moves_of_adds {call : Call} {t : Session} {xs : List Bool} (hadds : s.out.Adds xs t.out)
    (hframes : t.frames = s.frames) (hopen : ∀ id, call ≠ .openBlock id)
    (hclose : ∀ scope, call ≠ .closeBlock scope) : s.Moves call t :=
  .stays hadds hframes (fun _ ⟨id, _, h, _⟩ ↦ hopen id h) fun scope ⟨_, h, _⟩ ↦ hclose scope h

theorem moves_next (call : Call) : s.Moves call (s.next call) := by
  cases call with
  | openBlock id => exact moves_openBlock hs id
  | closeBlock scope => exact moves_closeBlock hs scope
  | record code operands =>
    exact moves_of_adds (Buffer.adds_pushAll hs.tidy _) rfl (by simp) (by simp)
  | define layout types =>
    by_cases ht : types = 0
    · rw [next, finalState_of_error (Emit.define_of_zero ht s)]
      exact moves_of_adds (.refl hs.tidy) rfl (by simp) (by simp)
    · rw [next, finalState_of_ok (Emit.define_of_ne_zero ht s)]
      exact moves_of_adds (Buffer.adds_pushAll hs.tidy _) rfl (by simp) (by simp)
  | append step =>
    obtain ⟨xs, hadds⟩ := Buffer.adds_of_isAppend hs.tidy step.property
    rw [next, Emit.finalState_onBuffer]
    exact moves_of_adds hadds rfl (by simp) (by simp)
  | note event => exact moves_of_adds (.refl hs.tidy) rfl (by simp) (by simp)

end Steps

namespace Moves

variable {s t : Session} {call : Call} (h : s.Moves call t)
include h

theorem bitLen_le : s.out.bitLen ≤ t.out.bitLen := by
  cases h with
  | stays adds => exact adds.bitLen_eq ▸ Nat.le_add_right ..
  | opens opened closes adds => exact adds.bitLen_eq ▸ Nat.le_add_right ..
  | @closes scope xs out words opens closed frames depth adds length nonempty overwrites =>
    have hlen : t.out.bitLen = out.bitLen := by rw [overwrites]; rfl
    exact hlen ▸ adds.bitLen_eq ▸ Nat.le_add_right ..

theorem tidy : t.out.Tidy := by
  cases h with
  | stays adds => exact adds.tidy
  | opens opened closes adds => exact adds.tidy
  | @closes scope xs out words opens closed frames depth adds length nonempty overwrites =>
    have hin : 8 * (scope.frame.lengthOffset + 4) ≤ out.bitLen := by omega
    rw [overwrites]
    exact Buffer.tidy_overwrite (adds.tidy.word_inside hin) words adds.tidy hin

theorem bitAt_eq {i : Nat} (hi : i < s.out.bitLen)
    (hout : ∀ scope, call.Closes s scope →
      ¬ (8 * scope.frame.lengthOffset ≤ i ∧ i < 8 * (scope.frame.lengthOffset + 4))) :
    bitAt t.out.bytes i = bitAt s.out.bytes i := by
  cases h with
  | stays adds => exact adds.bitAt_eq hi
  | opens opened closes adds => exact adds.bitAt_eq hi
  | @closes scope xs out words opens closed frames depth adds length nonempty overwrites =>
    have hin : scope.frame.lengthOffset + 4 ≤ out.bytes.size :=
      adds.tidy.word_inside (by omega)
    rw [overwrites, Buffer.bitAt_overwrite hin, if_neg (hout scope ((closed scope).mpr rfl))]
    exact adds.bitAt_eq hi

theorem byte_eq (hs : s.out.Tidy) {n : Nat} (hn : 8 * (n + 1) ≤ s.out.bitLen)
    (hout : ∀ scope, call.Closes s scope →
      ¬ (scope.frame.lengthOffset ≤ n ∧ n < scope.frame.lengthOffset + 4)) :
    t.out.bytes.data[n]? = s.out.bytes.data[n]? := by
  have hsize := hs.size_eq
  have hsize' := h.tidy.size_eq
  have hlen := h.bitLen_le
  refine getElem?_eq_of_bitAt (by omega) (by omega) fun i hlow hhigh ↦ ?_
  refine h.bitAt_eq (by omega) ?_
  intro scope hscope
  have := hout scope hscope
  omega

theorem hasWord_iff (hs : s.out.Tidy) {offset : Nat} (hin : 8 * (offset + 4) ≤ s.out.bitLen)
    (hout : ∀ scope, call.Closes s scope →
      offset + 4 ≤ scope.frame.lengthOffset ∨ scope.frame.lengthOffset + 4 ≤ offset)
    (word : UInt32) : t.out.HasWord offset word ↔ s.out.HasWord offset word := by
  have hlen := h.bitLen_le
  rw [Buffer.hasWord_iff (h.tidy.word_inside (by omega)), Buffer.hasWord_iff (hs.word_inside hin)]
  apply forall₂_congr
  intro i hi
  rw [h.bitAt_eq (by omega) fun scope hscope ↦ by have := hout scope hscope; omega]

theorem frames_of_closes {scope : Scope} (hscope : call.Closes s scope) :
    s.frames = scope.frame :: t.frames := by
  cases h with
  | stays adds frames opens closes => exact absurd hscope (closes scope)
  | opens opened closes => exact absurd hscope (closes scope)
  | closes opens closed frames =>
    rw [(closed scope).mp hscope]
    exact frames

theorem frame_cases {f : Frame} (hf : f ∈ t.frames) :
    f ∈ s.frames ∨ s.out.bitLen ≤ 8 * f.lengthOffset ∧ 8 * (f.lengthOffset + 4) = t.out.bitLen ∧
      f.lengthOffset % 4 = 0 ∧ t.out.HasWord f.lengthOffset 0 := by
  cases h with
  | stays adds frames => exact .inl (frames ▸ hf)
  | @opens kind offset xs opened closes adds behind aligned frames =>
    rw [frames, List.mem_cons] at hf
    rcases hf with rfl | hf
    · have hlen := adds.bitLen_eq
      rw [List.length_append, length_bitsOf] at hlen
      refine .inr ⟨?_, ?_, aligned, adds.hasWord_zero behind⟩
      · dsimp only
        omega
      · dsimp only
        omega
    · exact .inl hf
  | closes opens closed frames => exact .inl (frames ▸ List.mem_cons_of_mem _ hf)

theorem word_of_opens {scope : Scope} (hscope : call.Opens s scope) :
    t.out.bitLen % 32 = 0 ∧ t.out.bitLen = 8 * (scope.frame.lengthOffset + 4) ∧
      t.out.HasWord scope.frame.lengthOffset 0 := by
  cases h with
  | stays adds frames opens => exact absurd hscope (opens scope)
  | @opens kind offset xs opened closes adds behind aligned frames =>
    obtain rfl := (opened scope).mp hscope
    have hlen := adds.bitLen_eq
    rw [List.length_append, length_bitsOf] at hlen
    refine ⟨?_, ?_, adds.hasWord_zero behind⟩
    · omega
    · dsimp only
      omega
  | closes opens => exact absurd hscope (opens scope)

theorem word_of_closes (hs : s.Sound) {scope : Scope} (hscope : call.Closes s scope) :
    t.out.bitLen % 32 = 0 ∧ ∃ words : UInt32, words ≠ 0 ∧
      8 * (scope.frame.lengthOffset + 4) + 32 * words.toNat = t.out.bitLen ∧
      t.out.HasWord scope.frame.lengthOffset words := by
  have haligned := hs.aligned scope.frame (h.frames_of_closes hscope ▸ List.mem_cons_self)
  cases h with
  | stays adds frames opens closes => exact absurd hscope (closes scope)
  | opens opened closes => exact absurd hscope (closes scope)
  | @closes other xs out words opens closed frames depth adds length nonempty overwrites =>
    obtain rfl := (closed scope).mp hscope
    have hlen : t.out.bitLen = out.bitLen := by rw [overwrites]; rfl
    refine ⟨by omega, words, nonempty, length.trans hlen.symm, ?_⟩
    rw [overwrites]
    exact Buffer.hasWord_overwrite (adds.tidy.word_inside (by omega)) words

theorem depth_of_closes {scope : Scope} (hscope : call.Closes s scope) : scope.depth = s.depth := by
  cases h with
  | stays adds frames opens closes => exact absurd hscope (closes scope)
  | opens opened closes => exact absurd hscope (closes scope)
  | closes opens closed frames depth =>
    rw [(closed scope).mp hscope]
    exact depth

theorem sound (hs : s.Sound) : t.Sound := by
  have hlen := h.bitLen_le
  have hinside (f : Frame) (hf : f ∈ t.frames) : 8 * (f.lengthOffset + 4) ≤ t.out.bitLen := by
    rcases h.frame_cases hf with hold | ⟨-, hend, -⟩
    · exact Nat.le_trans (hs.inside f hold) hlen
    · exact Nat.le_of_eq hend
  refine ⟨h.tidy, fun f hf ↦ ?_, hinside, fun f hf ↦ ?_, ?_⟩
  · rcases h.frame_cases hf with hold | ⟨-, -, haligned, -⟩
    · exact hs.aligned f hold
    · exact haligned
  · rcases h.frame_cases hf with hold | ⟨-, -, -, hzero⟩
    · refine (h.hasWord_iff hs.tidy (hs.inside f hold) (fun scope hscope ↦ .inl ?_) 0).mpr
        (hs.clear f hold)
      have hapart := hs.apart
      rw [h.frames_of_closes hscope, List.pairwise_cons] at hapart
      exact hapart.1 f hf
    · exact hzero
  · cases h with
    | stays adds frames => exact frames ▸ hs.apart
    | @opens kind offset xs opened closes adds behind aligned frames =>
      rw [frames]
      refine .cons (fun f hf ↦ ?_) hs.apart
      have := hs.inside f hf
      dsimp only
      omega
    | closes opens closed frames =>
      have hapart := hs.apart
      rw [frames, List.pairwise_cons] at hapart
      exact hapart.2

end Moves

section Runs

variable {s : Session} (hs : s.Sound)
include hs

theorem sound_after (calls : List Call) : (s.after calls).Sound := by
  induction calls generalizing s with
  | nil => exact hs
  | cons call calls ih => exact ih ((moves_next hs call).sound hs)

theorem hasWord_after_iff (calls : List Call) {offset : Nat} (hin : 8 * (offset + 4) ≤ s.out.bitLen)
    (hout : ∀ f ∈ s.frames, offset + 4 ≤ f.lengthOffset ∨ f.lengthOffset + 4 ≤ offset)
    (word : UInt32) : (s.after calls).out.HasWord offset word ↔ s.out.HasWord offset word := by
  induction calls generalizing s with
  | nil => rfl
  | cons call calls ih =>
    have h := moves_next hs call
    have hlen := h.bitLen_le
    refine (ih (h.sound hs) (Nat.le_trans hin hlen) fun f hf ↦ ?_).trans
      (h.hasWord_iff hs.tidy hin (fun scope hscope ↦ ?_) word)
    · rcases h.frame_cases hf with hold | ⟨hbehind, -⟩
      · exact hout f hold
      · omega
    · exact hout _ (h.frames_of_closes hscope ▸ List.mem_cons_self)

end Runs

end BlockStream.Session
