import BlockStream.Proofs.Session.Nests
import BlockStream.Proofs.Session.Unlogged

namespace BlockStream

namespace Buffer

/-- What stops a step on a buffer. -/
def Step.fault? (b : Buffer) : Step → Option (Fault EncodeError)
  | .field width _ => if width ≤ 64 then none else some (.violation (.fieldWidth width))
  | .vbr width _ | .signedVbr width _ =>
    if 2 ≤ width ∧ width ≤ 64 then none else some (.violation (.chunkWidth width))
  | .char6 c => if c ∈ Char6.alphabet then none else some (.error (.invalidChar6 c))
  | .patch offset _ =>
    if offset + 4 ≤ b.bytes.size then none
    else some (.violation (.patchRange offset b.bytes.size))
  | .byteOffset =>
    if b.bitLen % 8 = 0 then none else some (.violation (.unalignedOffset b.bitLen))
  | .bool _ | .byte _ | .bytes _ | .align32 | .blob _ | .isAligned32 | .content => none

/-- A step that is stopped leaves the buffer it met; any other goes through. -/
inductive Step.Ends (b : Buffer) (step : Step) : Prop
  | stopped {e : Fault EncodeError} (fault : step.fault? b = some e)
      (run : step.run b = .error e b)
  | done {a : Answer} {c : Buffer} (fault : step.fault? b = none) (run : step.run b = .ok a c)

theorem ends_of_ite {α : Type} {b c : Buffer} {step : Step} {g : α → Answer} {x : Write α}
    {p : Prop} [Decidable p] {e : Fault EncodeError} {a : α}
    (hfault : step.fault? b = if p then none else some e) (hrun : step.run = g <$> x)
    (hx : x b = if p then .ok a c else .error e b) : step.Ends b := by
  by_cases hp : p
  · rw [if_pos hp] at hfault hx
    exact .done hfault (hrun ▸ map_of_ok hx)
  · rw [if_neg hp] at hfault hx
    exact .stopped hfault (hrun ▸ map_of_error hx)

theorem exists_char6 (c : Char) (b : Buffer) :
    ∃ d, Write.char6 c b =
      if c ∈ Char6.alphabet then .ok () d else .error (.error (.invalidChar6 c)) b := by
  cases hc : Char6.encode? c with
  | none =>
    have hout : c ∉ Char6.alphabet := by simpa [Char6.encode?] using hc
    refine ⟨b, ?_⟩
    rw [if_neg hout, Write.char6, hc]
    rfl
  | some code =>
    have hin : c ∈ Char6.alphabet := by
      by_contra hout
      rw [Char6.encode?, List.idxOf?_eq_none_iff.mpr hout] at hc
      cases hc
    refine ⟨b.push ⟨6, code.val⟩, ?_⟩
    rw [if_pos hin, Write.char6, hc]
    rfl

theorem step_ends (b : Buffer) (step : Step) : step.Ends b := by
  cases step with
  | field width value => exact ends_of_ite rfl rfl (ite_apply ..)
  | vbr width value => exact ends_of_ite rfl rfl (ite_apply ..)
  | signedVbr width value => exact ends_of_ite rfl rfl (ite_apply ..)
  | char6 c =>
    obtain ⟨d, hd⟩ := exists_char6 c b
    exact ends_of_ite rfl rfl hd
  | patch offset word => exact ends_of_ite (g := Answer.ofUnit) rfl rfl rfl
  | byteOffset => exact ends_of_ite (g := Answer.number) rfl rfl rfl
  | bool | byte | bytes | align32 | blob | isAligned32 | content => exact .done rfl rfl

end Buffer

namespace Session

def Refusal.isEarly : Refusal → Bool
  | .session (.error (.unknownBlock _)) | .session (.error (.mismatchedEndBlock ..))
  | .session (.error .emptyTypeTable) | .buffer _ => true
  | _ => false

/-- The early refusal that a report tells of a step that has entered no body. -/
def Report.refusal? : Report → Option Refusal
  | .mk (.error r) _ none => if r.isEarly then some r else none
  | _ => none

theorem Report.refusal?_of_body (outcome : Except Refusal Answer) (after : Status)
    (reports : List Report) : (Report.mk outcome after (some reports)).refusal? = none := by
  cases outcome <;> rfl

def Step.refusal? (b : Bench) : Step → Option Refusal
  | .openBlock id | .block id _ =>
    if (BlockKind.ofId? id).isSome then none else some (.session (.error (.unknownBlock id)))
  | .closeBlock slot =>
    b.slots[slot]?.join.bind fun scope ↦
      if b.session.frames.head? = some scope.frame ∧ scope.depth = b.session.depth then none
      else some (.session (.error
        (.mismatchedEndBlock b.session.innermost scope.frame.kind)))
  | .blockInfo types | .define _ types =>
    if types ≠ 0 then none else some (.session (.error .emptyTypeTable))
  | .defineStandard id index types =>
    ((BlockKind.ofId? id).bind (·.abbrevs[index]?)).bind fun _ ↦
      if types ≠ 0 then none else some (.session (.error .emptyTypeTable))
  | .buffer step => (step.fault? b.session.out).map .buffer
  | .record .. | .content => none

theorem frames_after_of_isLeaf (s : Session) {calls : List Call}
    (h : calls.all Call.isLeaf = true) : (s.after calls).frames = s.frames := by
  induction calls generalizing s with
  | nil => rfl
  | cons call calls ih =>
    rw [List.all_cons, Bool.and_eq_true] at h
    rw [after_cons, ih _ h.2]
    cases call with
    | record code operands => rfl
    | define layout types =>
      by_cases ht : types = 0
      · rw [next, finalState_of_error (Emit.define_of_zero ht s)]
      · rw [next, finalState_of_ok (Emit.define_of_ne_zero ht s)]
    | openBlock | closeBlock | append | note => cases h.1

theorem frames_after_declarations (s : Session) (types : UInt32) :
    (s.after (declarations types)).frames = s.frames := by
  refine frames_after_of_isLeaf s ?_
  rw [declarations, List.all_flatMap, List.all_eq_true]
  intro kind _
  simp [Call.isLeaf]

end Session

namespace Emit

def FailsLate {α : Type} (x : Emit α) : Prop :=
  ∀ s e t, x s = .error e t → (Session.Refusal.session e).isEarly = false

namespace FailsLate

variable {α β : Type}

theorem of_ok {x : Emit α} (h : ∀ s, ∃ a t, x s = .ok a t) : FailsLate x := by
  intro s e t hx
  obtain ⟨a, u, hok⟩ := h s
  cases hok.symm.trans hx

theorem bind {x : Emit α} {f : α → Emit β} (hx : FailsLate x) (hf : ∀ a, FailsLate (f a)) :
    FailsLate (x >>= f) := by
  intro s e t h
  cases hs : x s with
  | ok a u => exact hf a u e t ((bind_of_ok hs).symm.trans h)
  | error f u =>
    cases (bind_of_error hs).symm.trans h
    exact hx s e t hs

theorem modify (f : Session → Session) : FailsLate (modify f) := of_ok fun _ ↦ ⟨_, _, rfl⟩

theorem require {p : Prop} [Decidable p] {e : EncodeError}
    (he : (Session.Refusal.session (.error e)).isEarly = false) :
    FailsLate (Emit.require p e) := by
  intro s f t h
  by_cases hp : p
  · cases (require_of_pos hp).symm.trans h
  · cases (require_of_neg hp).symm.trans h
    exact he

theorem difference (minuend subtrahend : Nat) :
    FailsLate (difference minuend subtrahend : Emit Nat) := by
  intro s e t h
  unfold BlockStream.difference at h
  split at h
  · cases h
  · cases h
    rfl

theorem onBuffer {x : Write α}
    (hx : ∀ b e c, x b = .error e c → ∃ v, e = .violation v) : FailsLate (onBuffer x) := by
  intro s e t h
  cases hs : x s.out with
  | ok a b => cases (onBuffer_of_ok hs).symm.trans h
  | error f b =>
    obtain ⟨v, rfl⟩ := hx _ _ _ hs
    cases (onBuffer_of_error hs).symm.trans h
    rfl

end FailsLate

theorem isEarly_of_match {s t : Session} {scope : Scope} {e : Fault EncodeError}
    (hmatch : s.frames.head? = some scope.frame ∧ scope.depth = s.depth)
    (h : endBlock scope s = .error e t) : (Session.Refusal.session e).isEarly = false := by
  obtain ⟨⟨kind, start⟩, depth⟩ := scope
  have hoffset : FailsLate (onBuffer Write.byteOffset) := .onBuffer fun b e c hb ↦ by
    unfold Write.byteOffset at hb
    split at hb
    · cases hb
    · cases hb
      exact ⟨_, rfl⟩
  have hpatch (offset : Nat) (word : UInt32) : FailsLate (onBuffer (Write.patch offset word)) :=
    .onBuffer fun b e c hb ↦ by
      unfold Write.patch at hb
      split at hb
      · cases hb
      · cases hb
        exact ⟨_, rfl⟩
  have hrest := (h.symm.trans (bind_of_ok rfl)).trans (bind_of_ok (require_of_pos hmatch))
  refine FailsLate.bind (.modify _) (fun _ ↦ ?_) s e t hrest.symm
  refine .bind (.modify _) fun _ ↦ .bind hoffset fun offset ↦ ?_
  refine .bind (.difference _ _) fun bytes ↦ .bind (.require rfl) fun _ ↦ ?_
  exact .bind (hpatch _ _) fun _ ↦ .bind (.modify _) fun _ ↦ .modify _

theorem failsLate_blockInfo {types : UInt32} (ht : types ≠ 0) : FailsLate (blockInfo types) := by
  intro s e t h
  rw [blockInfo_of_ne_zero ht] at h
  have hopen := beginBlock_eq (BlockKind.ofId?_id .blockInfo)
    { s with log := s.log.push (.registering types) }
  have hbody := Session.declareAll_of_ne_zero ht
  refine isEarly_of_match ?_ (((bind_of_ok hopen).trans (bind_of_ok (hbody _))).symm.trans h)
  simp only [Session.depth, Session.frames_after_declarations]
  exact ⟨rfl, rfl⟩

end Emit

namespace Session

/-- The step reports that it is refused. The bench stays as it was, but for the scope that a refused
closing has used up and for what has been logged. -/
structure Step.Refused (b : Bench) (step : Step) (r : Refusal) : Prop where
  early : r.isEarly = true
  report : (step.run b).1 = .mk (.error r) b.session.status none
  session : b.session.Agrees (step.run b).2.session
  size : (step.run b).2.slots.size = b.slots.size
  slots : ∀ slot, step ≠ .closeBlock slot → (step.run b).2.slots[slot]? = b.slots[slot]?

/-- A step either is refused or goes on to its work. -/
inductive Step.Met (b : Bench) (step : Step) : Prop
  | refused {r : Refusal} (why : step.refusal? b = some r) (refused : step.Refused b r)
  | taken (why : step.refusal? b = none) (report : (step.run b).1.refusal? = none)

section Meeting

variable {b : Bench} {step : Step}

theorem Bench.call_of_error {x : Emit Unit} {e : Fault EncodeError} {t : Session}
    (h : x b.session = .error e t) :
    b.call x = Bench.report ⟨t, b.slots⟩ (.error (.session e)) := by
  rw [call, perform_of_error h]
  rfl

theorem Bench.refusal?_call (b : Bench) {x : Emit Unit}
    (h : ∀ e t, x b.session = .error e t → (Refusal.session e).isEarly = false) :
    (b.call x).1.refusal? = none := by
  cases hx : x b.session with
  | ok a t =>
    rw [call, perform_of_ok hx]
    rfl
  | error e t =>
    rw [call_of_error hx]
    exact if_neg (h e t hx ▸ Bool.false_ne_true)

theorem refused_of_report {t : Session} {r : Refusal} (hearly : r.isEarly = true)
    (hrun : step.run b = Bench.report ⟨t, b.slots⟩ (.error r)) (h : b.session.Agrees t) :
    step.Refused b r := by
  refine ⟨hearly, ?_, ?_, ?_, fun _ _ ↦ ?_⟩
  · rw [hrun, Bench.report, h.status_eq]
  all_goals rw [hrun, Bench.report]
  exact h

theorem refused_of_unknown {id : UInt32} (hk : BlockKind.ofId? id = none)
    (hrun : ∀ e t, Emit.beginBlock id b.session = .error e t →
      step.run b = Bench.report ⟨t, b.slots⟩ (.error (.session e))) :
    step.Refused b (.session (.error (.unknownBlock id))) :=
  refused_of_report rfl (hrun _ _ (Emit.beginBlock_of_unknown hk)) ⟨rfl, rfl⟩

theorem met_of_define {layout : Layout} {types : UInt32}
    (hrun : step.run b = b.call (Emit.define layout types))
    (hwhy : step.refusal? b =
      if types ≠ 0 then none else some (.session (.error .emptyTypeTable))) : step.Met b := by
  by_cases ht : types ≠ 0
  · refine .taken (hwhy.trans (if_pos ht)) (hrun ▸ b.refusal?_call fun e t herr ↦ ?_)
    cases (Emit.define_of_ne_zero ht b.session).symm.trans herr
  · refine .refused (hwhy.trans (if_neg ht)) (refused_of_report rfl ?_ (.refl _))
    rw [hrun, Bench.call_of_error (Emit.define_of_zero (not_not.mp ht) b.session)]

theorem met_closeBlock (slot : Nat) : (Step.closeBlock slot).Met b := by
  cases hslot : b.slots[slot]?.join with
  | none =>
    refine .taken (by rw [Step.refusal?, hslot]; rfl) ?_
    rw [Step.run, Bench.closeBlock, hslot]
    rfl
  | some scope =>
    let c : Bench := { b with slots := b.slots.setIfInBounds slot none }
    have hrun : (Step.closeBlock slot).run b = c.call (Emit.endBlock scope) := by
      rw [Step.run, Bench.closeBlock, hslot]
    by_cases hmatch : b.session.frames.head? = some scope.frame ∧ scope.depth = b.session.depth
    · refine .taken ?_ (hrun ▸ c.refusal?_call fun e t ↦ Emit.isEarly_of_match hmatch)
      rw [Step.refusal?, hslot, Option.bind_some, if_pos hmatch]
    · refine .refused (r := .session (.error
        (.mismatchedEndBlock b.session.innermost scope.frame.kind))) ?_ ?_
      · rw [Step.refusal?, hslot, Option.bind_some, if_neg hmatch]
      · rw [Bench.call_of_error (b := c) (Emit.endBlock_of_mismatch hmatch)] at hrun
        refine ⟨rfl, ?_, ?_, ?_, fun other hne ↦ ?_⟩
        all_goals rw [hrun, Bench.report]
        · exact .refl _
        · exact Array.size_setIfInBounds
        · exact Array.getElem?_setIfInBounds_ne fun heq ↦ hne (congrArg _ heq)

theorem met_blockInfo (types : UInt32) : (Step.blockInfo types).Met b := by
  by_cases ht : types ≠ 0
  · exact .taken (if_pos ht) (b.refusal?_call (Emit.failsLate_blockInfo ht b.session))
  · have hzero := Emit.blockInfo_of_zero (not_not.mp ht) b.session
    refine .refused (if_neg ht) (refused_of_report rfl ?_ (.refl _))
    rw [Step.run, Bench.call_of_error hzero]

theorem met_block (id : UInt32) (body : List Step) : (Step.block id body).Met b := by
  cases hk : BlockKind.ofId? id with
  | none =>
    refine .refused (by rw [Step.refusal?, hk]; rfl) (refused_of_unknown hk fun e t hopen ↦ ?_)
    rw [Step.run, Bench.perform_of_error hopen]
  | some kind =>
    refine .taken (by rw [Step.refusal?, hk]; rfl) ?_
    rw [Step.run, Bench.perform_of_ok (Emit.beginBlock_eq hk b.session)]
    dsimp only
    split
    · rfl
    · exact Report.refusal?_of_body ..

theorem step_met (b : Bench) (step : Step) : step.Met b := by
  cases step with
  | openBlock id =>
    cases hk : BlockKind.ofId? id with
    | none =>
      refine .refused (by rw [Step.refusal?, hk]; rfl) (refused_of_unknown hk fun e t hopen ↦ ?_)
      rw [Step.run, Bench.openBlock, Bench.perform_of_error hopen]
    | some kind =>
      refine .taken (by rw [Step.refusal?, hk]; rfl) ?_
      rw [Step.run, Bench.openBlock, Bench.perform_of_ok (Emit.beginBlock_eq hk b.session)]
      rfl
  | closeBlock slot => exact met_closeBlock slot
  | block id body => exact met_block id body
  | blockInfo types => exact met_blockInfo types
  | define layout types => exact met_of_define rfl rfl
  | defineStandard id index types =>
    cases ha : (BlockKind.ofId? id).bind (·.abbrevs[index]?) with
    | none =>
      refine .taken (by rw [Step.refusal?, ha]; rfl) ?_
      rw [Step.run, ha]
      rfl
    | some a =>
      exact met_of_define (by rw [Step.run, ha]) (by rw [Step.refusal?, ha]; rfl)
  | record code operands => exact .taken rfl rfl
  | buffer step =>
    cases Buffer.step_ends b.session.out step with
    | stopped fault run =>
      refine .refused (by rw [Step.refusal?, fault]; rfl) (refused_of_report rfl ?_ (.refl _))
      rw [Step.run, Bench.onBuffer, Bench.perform_of_error (Emit.onBuffer_of_error run)]
      rfl
    | done fault run =>
      refine .taken (by rw [Step.refusal?, fault]; rfl) ?_
      rw [Step.run, Bench.onBuffer, Bench.perform_of_ok (Emit.onBuffer_of_ok run)]
      rfl
  | content => exact .taken rfl rfl

end Meeting

end Session

end BlockStream
