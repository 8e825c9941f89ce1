import BlockStream.Proofs.Session.Emits
import BlockStream.Proofs.Session.Script

namespace BlockStream.Session

def Call.isFraming : Call → Bool
  | .append _ => false
  | _ => true

/-- The session `t` comes from `s` by writing items and opening blocks. -/
inductive Nests (s : Session) : Session → Prop
  | base {t : Session} {items : List Item} (emits : s.Emits t items) : Nests s t
  | inner {t u v : Session} {id : UInt32} {kind : BlockKind} {scope : Scope} {items : List Item}
      (nests : Nests s t) (known : BlockKind.ofId? id = some kind)
      (opened : Emit.beginBlock id t = .ok scope u) (emits : u.Emits v items) : Nests s v

namespace Nests

variable {s t u : Session}

theorem tidy (h : Nests s t) : t.out.Tidy := by
  cases h with
  | base emits => exact emits.adds.tidy
  | inner _ _ _ emits => exact emits.adds.tidy

theorem add {items : List Item} (h : Nests s t) (hemits : t.Emits u items) : Nests s u := by
  cases h with
  | base emits => exact .base (emits.trans hemits)
  | inner nests known opened emits => exact .inner nests known opened (emits.trans hemits)

end Nests

/-- A block is open that has become too long for its length word. -/
def Overlong (s : Session) : Prop :=
  ∃ f ∈ s.frames, 8 * (f.lengthOffset + 4) + 32 * UInt32.size ≤ s.out.bitLen

theorem Moves.overlong {s t : Session} {call : Call} (h : s.Moves call t) (hs : s.Overlong) :
    t.Overlong := by
  obtain ⟨f, hf, hlong⟩ := hs
  have hlen := h.bitLen_le
  refine ⟨f, ?_, Nat.le_trans hlong hlen⟩
  cases h with
  | stays adds frames => exact frames ▸ hf
  | opens opened closes adds behind aligned frames =>
    exact frames ▸ List.mem_cons_of_mem _ hf
  | @closes scope xs out words opens closed frames depth adds length nonempty overwrites =>
    -- the block that is closed has a length that fits
    have hend : t.out.bitLen = out.bitLen := by rw [overwrites]; rfl
    have hfits := words.toNat_lt
    rw [frames, List.mem_cons] at hf
    rcases hf with rfl | hf
    · rw [hend] at hlen
      have hsize : UInt32.size = 2 ^ 32 := rfl
      omega
    · exact hf

/-- Each call of a run is one that `P` admits in the session it is made in. -/
def Along (P : Session → Call → Prop) : Session → List Call → Prop
  | _, [] => True
  | s, call :: rest => P s call ∧ Along P (s.next call) rest

def decidableAlong {P : Session → Call → Prop} [∀ s call, Decidable (P s call)] :
    (s : Session) → (calls : List Call) → Decidable (Along P s calls)
  | _, [] => .isTrue trivial
  | s, call :: rest =>
    have := decidableAlong (P := P) (s.next call) rest
    inferInstanceAs (Decidable (P s call ∧ Along P (s.next call) rest))

instance {P : Session → Call → Prop} [∀ s call, Decidable (P s call)] (s : Session)
    (calls : List Call) : Decidable (Along P s calls) := decidableAlong s calls

theorem along_of_all {p : Call → Bool} (s : Session) {calls : List Call}
    (h : calls.all p = true) : Along (fun _ call ↦ p call = true) s calls := by
  induction calls generalizing s with
  | nil => trivial
  | cons call calls ih =>
    rw [List.all_cons, Bool.and_eq_true] at h
    exact ⟨h.1, ih _ h.2⟩

theorem after_of_along {P : Session → Call → Prop} {Q : Session → Prop}
    (hnext : ∀ {t call}, P t call → Q t → Q (t.next call) ∨ (t.next call).Overlong) {s : Session}
    (hs : s.Sound) {calls : List Call} (hcalls : Along P s calls) (h : Q s ∨ s.Overlong) :
    Q (s.after calls) ∨ (s.after calls).Overlong := by
  induction calls generalizing s with
  | nil => exact h
  | cons call calls ih =>
    have hmoves := moves_next hs call
    refine ih (hmoves.sound hs) hcalls.2 ?_
    rcases h with h | h
    · exact hnext hcalls.1 h
    · exact .inr (hmoves.overlong h)

/-- Whether a call writes an item that is no block. -/
def Call.isLeaf : Call → Bool
  | .record .. | .define .. => true
  | _ => false

/-- All that a call can do that closes no block and leaves the buffer to the session. -/
inductive Writes (s : Session) (call : Call) : Prop
  | nothing (emits : s.Emits (s.next call) [])
  | leaf {item : Item} (emits : s.Emits (s.next call) [item]) (flat : item.isBlock = false)
      (called : call.isLeaf = true)
  | opens {id : UInt32} {kind : BlockKind} {scope : Scope} (called : call = .openBlock id)
      (known : BlockKind.ofId? id = some kind)
      (opened : Emit.beginBlock id s = .ok scope (s.next call)) (tidy : (s.next call).out.Tidy)

section Calls

variable {s t u v : Session}

theorem writes_next (hs : s.out.Tidy) {call : Call} (hcall : call.isFraming = true)
    (hopen : ∀ scope, call ≠ .closeBlock scope) : s.Writes call := by
  have hquiet {t : Session} (hframes : t.frames = s.frames) (hout : t.out = s.out) :
      s.Emits t [] := ⟨hframes, by rw [hout]; exact .refl hs, trivial⟩
  cases call with
  | openBlock id =>
    cases hk : BlockKind.ofId? id with
    | none =>
      refine .nothing ?_
      rw [next, finalState_of_error (Emit.beginBlock_of_unknown hk)]
      exact hquiet rfl rfl
    | some kind =>
      obtain ⟨scope, t, hrun, ht⟩ := Emit.exists_beginBlock hs hk
      have hnext : s.next (.openBlock id) = t := finalState_of_ok hrun
      exact .opens rfl hk (hnext ▸ hrun) (hnext ▸ ht)
  | closeBlock scope => exact absurd rfl (hopen scope)
  | record code operands =>
    obtain ⟨t, hrun, hemits⟩ := emits_record hs code operands
    refine .leaf ?_ (rfl : (Item.record code.toUInt64 operands).isBlock = false) rfl
    rwa [next, finalState_of_ok hrun]
  | define layout types =>
    by_cases ht : types = 0
    · refine .nothing ?_
      rw [next, finalState_of_error (Emit.define_of_zero ht s)]
      exact hquiet rfl rfl
    · obtain ⟨t, hrun, hemits⟩ := emits_define hs layout ht
      refine .leaf ?_ (rfl : (Item.definition (layout.resolve types)).isBlock = false) rfl
      rwa [next, finalState_of_ok hrun]
  | append step => cases hcall
  | note event => exact .nothing (hquiet rfl rfl)

theorem closeBlock_of_outermost (hs : s.frames = []) (scope : Scope) :
    s.next (.closeBlock scope) = s := by
  have hmismatch : ¬ (s.frames.head? = some scope.frame ∧ scope.depth = s.depth) := by simp [hs]
  rw [next, finalState_of_error (Emit.endBlock_of_mismatch hmismatch)]

/-- What closing a block does, with whatever scope, behind a block that has taken items. -/
theorem closeBlock_cases (ht : t.out.Tidy) {id : UInt32} {kind : BlockKind} {scope : Scope}
    {items : List Item} (known : BlockKind.ofId? id = some kind)
    (opened : Emit.beginBlock id t = .ok scope u) (emits : u.Emits v items) (other : Scope) :
    v.next (.closeBlock other) = v ∨
      (∃ block, kind.blockOf? items = some block ∧
        Emit.endBlock scope v = .ok () (v.next (.closeBlock other)) ∧
        t.Emits (v.next (.closeBlock other)) [block]) ∨
      (v.next (.closeBlock other)).Overlong := by
  by_cases hmatch : v.frames.head? = some other.frame ∧ other.depth = v.depth
  · obtain ⟨hhead, hdepth⟩ := hmatch
    have hmem : other.frame ∈ v.frames := List.mem_of_head? hhead
    have hscope : other = scope := by
      obtain ⟨out, offset, log, hrun, -⟩ := Emit.beginBlock_of_kind ht known
      cases hrun.symm.trans opened
      obtain ⟨frame, level⟩ := other
      rw [depth, emits.frames] at hdepth
      rw [emits.frames] at hhead
      cases hhead
      cases hdepth
      rfl
    subst hscope
    obtain ⟨out, hadds, hcount, hfits, hlarge⟩ := endBlock_of_emits ht known opened emits
    rcases Nat.lt_or_ge (Wire.bodyWords kind.abbrevWidth.toNat items) UInt32.size with hlt | hge
    · have hblock := BlockKind.blockOf?_of_lt hlt
      obtain ⟨w, hclose, hemits⟩ := emits_of_endBlock ht known opened emits hblock
      rw [next, finalState_of_ok hclose]
      exact .inr (.inl ⟨_, hblock, hclose, hemits⟩)
    · obtain ⟨e, hrun⟩ := hlarge hge
      rw [next, finalState_of_error hrun]
      exact .inr (.inr ⟨other.frame, hmem, by dsimp only; omega⟩)
  · exact .inl (by rw [next, finalState_of_error (Emit.endBlock_of_mismatch hmatch)])

theorem nests_next (hs : s.frames = []) (h : Nests s t) {call : Call}
    (hcall : call.isFraming = true) : Nests s (t.next call) ∨ (t.next call).Overlong := by
  by_cases hclose : ∃ scope, call = .closeBlock scope
  · obtain ⟨scope, rfl⟩ := hclose
    cases h with
    | base emits =>
      rw [closeBlock_of_outermost (emits.frames.trans hs)]
      exact .inl (.base emits)
    | inner nests known opened emits =>
      rcases closeBlock_cases nests.tidy known opened emits scope with
        hsame | ⟨block, -, -, hemits⟩ | hlong
      · rw [hsame]
        exact .inl (.inner nests known opened emits)
      · exact .inl (nests.add hemits)
      · exact .inr hlong
  · refine .inl ?_
    cases writes_next h.tidy hcall (not_exists.mp hclose) with
    | nothing emits => exact h.add emits
    | leaf emits flat called => exact h.add emits
    | opens called known opened tidy =>
      subst called
      exact .inner h known opened (.refl tidy)

end Calls

theorem nests_after {s t : Session} (hs : s.frames = []) (hsound : t.Sound) (calls : List Call)
    (hcalls : calls.all Call.isFraming = true) (h : Nests s t ∨ t.Overlong) :
    Nests s (t.after calls) ∨ (t.after calls).Overlong :=
  after_of_along (Q := Nests s) (fun hcall h ↦ nests_next hs h hcall) hsound
    (along_of_all (p := Call.isFraming) t hcalls) h

theorem emits_of_finish {calls : List Call} (hcalls : calls.all Call.isFraming = true)
    {bytes : ByteArray} (h : ((start .empty).after calls).finish = .ok bytes) :
    ∃ items, (start .empty).Emits ((start .empty).after calls) items := by
  have hsound := sound_start .empty
  have hclosed : ((start .empty).after calls).frames = [] := by
    rw [finish, innermost] at h
    split at h
    · cases h
    · rename_i hnone
      simpa using hnone
  rcases nests_after rfl hsound calls hcalls (.inl (.base (.refl hsound.tidy))) with h | h
  · generalize (start .empty).after calls = t at h hclosed
    cases h with
    | base emits => exact ⟨_, emits⟩
    | inner nests known opened emits =>
      obtain ⟨out, offset, log, hrun, -⟩ := Emit.beginBlock_of_kind nests.tidy known
      cases hrun.symm.trans opened
      rw [emits.frames] at hclosed
      cases hclosed
  · obtain ⟨f, hf, -⟩ := h
    rw [hclosed] at hf
    cases hf

section Scripts

mutual

/-- Whether a step, and each in its body, leaves the buffer to the session. -/
def Step.isFraming : Step → Bool
  | .buffer _ => false
  | .block _ body => allFraming body
  | _ => true
termination_by structural step => step

def allFraming : List Step → Bool
  | [] => true
  | step :: rest => step.isFraming && allFraming rest
termination_by structural steps => steps

end

mutual

theorem appends_of_isFraming : (step : Step) → step.isFraming = true → step.appends = true
  | .block _ body, h => allAppend_of_allFraming body h
  | .buffer _, h => by cases h
  | .openBlock _, _ | .closeBlock _, _ | .blockInfo _, _ | .define .., _ | .defineStandard .., _
  | .record .., _ | .content, _ => rfl
termination_by structural step => step

theorem allAppend_of_allFraming : (steps : List Step) → allFraming steps = true →
    allAppend steps = true
  | [], _ => rfl
  | step :: rest, h => by
    rw [allFraming, Bool.and_eq_true] at h
    rw [allAppend, appends_of_isFraming step h.1, allAppend_of_allFraming rest h.2]
    rfl
termination_by structural steps => steps

end

/-- Whether a call leaves the buffer to the session, and notes nothing but that abbreviations are
being registered. -/
def Call.isScripted : Call → Bool
  | .append _ => false
  | .note (.registering _) => true
  | .note _ => false
  | _ => true

theorem Call.isFraming_of_isScripted {call : Call} (h : call.isScripted = true) :
    call.isFraming = true := by
  cases call with
  | append => cases h
  | _ => rfl

theorem all_isScripted_declarations (types : UInt32) :
    (declarations types).all Call.isScripted = true := by
  rw [declarations, List.all_flatMap, List.all_eq_true]
  intro kind _
  rw [List.all_cons, List.all_map, Bool.and_eq_true, List.all_eq_true]
  exact ⟨rfl, fun _ _ ↦ rfl⟩

mutual

theorem all_isScripted_calls (b : Bench) : (step : Step) → step.isFraming = true →
    (step.calls b).all Call.isScripted = true
  | .openBlock _, _ | .define .., _ | .record .., _ | .content, _ => rfl
  | .closeBlock slot, _ => by
    rw [Step.calls]
    cases b.slots[slot]?.join <;> rfl
  | .block id body, h => by
    rw [Step.calls]
    split
    · rfl
    · rename_i scope c _
      have hbody := all_isScripted_bodyCalls c body h
      rw [List.all_append, List.all_cons, hbody]
      split <;> rfl
  | .blockInfo types, _ => by
    rw [Step.calls]
    split
    · rfl
    · dsimp only
      split
      · rw [List.all_cons, List.all_cons, List.all_append, all_isScripted_declarations]
        rfl
      · rfl
  | .defineStandard id index types, _ => by
    rw [Step.calls]
    cases (BlockKind.ofId? id).bind (·.abbrevs[index]?) <;> rfl
  | .buffer _, h => by cases h
termination_by structural step => step

theorem all_isScripted_bodyCalls (b : Bench) : (steps : List Step) → allFraming steps = true →
    (bodyCalls b steps).all Call.isScripted = true
  | [], _ => rfl
  | step :: rest, h => by
    rw [allFraming, Bool.and_eq_true] at h
    rw [bodyCalls, List.all_append, all_isScripted_calls b step h.1]
    split
    · rfl
    · exact all_isScripted_bodyCalls _ rest h.2
termination_by structural steps => steps

end

theorem all_isScripted_allCalls (b : Bench) (steps : List Step) (h : allFraming steps = true) :
    (b.allCalls steps).all Call.isScripted = true := by
  induction steps generalizing b with
  | nil => rfl
  | cons step rest ih =>
    rw [allFraming, Bool.and_eq_true] at h
    rw [Bench.allCalls, List.all_append, all_isScripted_calls b step h.1, ih _ h.2]
    rfl

theorem all_isFraming_allCalls (b : Bench) (steps : List Step) (h : allFraming steps = true) :
    (b.allCalls steps).all Call.isFraming = true := by
  have hscripted := List.all_eq_true.mp (all_isScripted_allCalls b steps h)
  exact List.all_eq_true.mpr fun call hcall ↦ Call.isFraming_of_isScripted (hscripted call hcall)

end Scripts

end BlockStream.Session
