import BlockStream.Proofs.Session.Ledger

namespace BlockStream.Session

namespace Ledger

def afterBoth (l r : Ledger) : List (Act ⊕ Act) → Ledger × Ledger
  | [] => (l, r)
  | .inl a :: acts => afterBoth (l.act a) r acts
  | .inr a :: acts => afterBoth l (r.act a) acts

theorem balanced_afterBoth {l r : Ledger} (hl : l.Balanced) (hr : r.Balanced)
    (acts : List (Act ⊕ Act)) :
    (afterBoth l r acts).1.Balanced ∧ (afterBoth l r acts).2.Balanced := by
  induction acts generalizing l r with
  | nil => exact ⟨hl, hr⟩
  | cons a acts ih =>
    cases a with
    | inl a => exact ih (hl.act a) hr
    | inr a => exact ih hl (hr.act a)

theorem Balanced.last_iff_match {l : Ledger} (h : l.Balanced) (scope : Scope) :
    l.pending.getLast? = some scope ↔
      l.session.frames.head? = some scope.frame ∧ scope.depth = l.session.depth := by
  constructor
  · intro hlast
    obtain ⟨rest, hframes, hdepth⟩ := h.frames_of_getLast? hlast
    exact ⟨by rw [hframes, List.head?_cons], hdepth⟩
  · intro hmatch
    obtain ⟨rest, hframes⟩ := List.head?_eq_some_iff.mp hmatch.1
    rw [h.pending_of_frames hframes hmatch.2, List.getLast?_concat]

end Ledger

/-- A session refuses the scope of another one, and nothing changes, unless it has issued an equal
scope for the block that is now its innermost; with that it closes its own block. -/
theorem endBlock_foreign (existing other : ByteArray) (acts : List (Act ⊕ Act)) :
    let both := (Ledger.start existing).afterBoth (Ledger.start other) acts
    ∀ scope ∈ both.2.issued,
      (both.1.pending.getLast? ≠ some scope →
        Emit.endBlock scope both.1.session = .error (.error
          (.mismatchedEndBlock both.1.session.innermost scope.frame.kind)) both.1.session) ∧
      (both.1.pending.getLast? = some scope →
        Emit.bodyBytes both.1.session scope.frame.lengthOffset / 4 < 2 ^ 32 →
        scope ∈ both.1.issued ∧ ∃ t, Emit.endBlock scope both.1.session = .ok () t ∧
          both.1.session.frames = scope.frame :: t.frames) := by
  intro both scope _
  have hleft : both.1.Balanced := (Ledger.balanced_afterBoth (Ledger.balanced_start existing)
    (Ledger.balanced_start other) acts).1
  constructor
  · intro hother
    exact Emit.endBlock_of_mismatch (mt (hleft.last_iff_match scope).mpr hother)
  · intro hlast hfits
    exact ⟨List.mem_of_mem_filter (List.mem_of_getLast? hlast),
      hleft.framed.closes scope hlast hfits⟩

theorem endBlock_foreign_kinds :
    let l := (Ledger.start .empty).act (.call (.openBlock 8))
    Emit.endBlock ⟨⟨.paramAttr, 8⟩, 1⟩ l.session =
      .error (.error (.mismatchedEndBlock (some .module) .paramAttr)) l.session ∧
    ∃ t, Emit.endBlock ⟨⟨.module, 8⟩, 1⟩ l.session = .ok () t ∧ t.frames = [] := by
  intro l
  have hopen : l.session.frames = [⟨.module, 8⟩] := by decide +kernel
  have hrefused := endBlock_foreign .empty .empty
    [.inl (.call (.openBlock 8)), .inr (.call (.openBlock 9))] ⟨⟨.paramAttr, 8⟩, 1⟩
    (by decide +kernel)
  have htaken := endBlock_foreign .empty .empty
    [.inl (.call (.openBlock 8)), .inr (.call (.openBlock 8))] ⟨⟨.module, 8⟩, 1⟩ (by decide +kernel)
  have hinnermost : l.session.innermost = some .module := by
    rw [innermost, hopen]
    rfl
  refine ⟨hinnermost ▸ hrefused.1 (by decide +kernel), ?_⟩
  obtain ⟨-, t, hrun, hframes⟩ := htaken.2 (by decide +kernel) (by decide +kernel)
  have hrest : l.session.frames = ⟨.module, 8⟩ :: t.frames := hframes
  rw [hopen] at hrest
  exact ⟨t, hrun, (List.cons.inj hrest).2.symm⟩

/-- Two sessions that start alike and open a block of one kind issue equal scopes. -/
theorem not_endBlock_foreign_refused :
    ¬ ∀ (existing other : ByteArray) (acts : List (Act ⊕ Act)),
      let both := (Ledger.start existing).afterBoth (Ledger.start other) acts
      ∀ scope ∈ both.2.issued, Emit.endBlock scope both.1.session = .error (.error
        (.mismatchedEndBlock both.1.session.innermost scope.frame.kind)) both.1.session := by
  intro hall
  let l := (Ledger.start .empty).act (.call (.openBlock 8))
  have hopen : l.session.frames = [⟨.module, 8⟩] := by decide +kernel
  have hissued : ⟨⟨.module, 8⟩, 1⟩ ∈ l.issued := by decide +kernel
  have hclosed : (finalState (Emit.endBlock ⟨⟨.module, 8⟩, 1⟩ l.session)).frames = [] := by
    decide +kernel
  have hrefused := hall .empty .empty [.inl (.call (.openBlock 8)), .inr (.call (.openBlock 8))]
    ⟨⟨.module, 8⟩, 1⟩ hissued
  have hkept : l.session.frames = [] :=
    (congrArg frames (finalState_of_error hrefused)).symm.trans hclosed
  cases hopen.symm.trans hkept

end BlockStream.Session
