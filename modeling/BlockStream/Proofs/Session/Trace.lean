import BlockStream.Proofs.Decode.Trace
import BlockStream.Proofs.Session.Outermost

namespace BlockStream.Session

/-- What the log of a session tells of blocks, from its last event back: the blocks that are entered
in it, each as reading tells it if the end that belongs to it follows, and the ends of blocks that
were entered before. An end belongs to the last block that has been entered and has no end yet. -/
def told : List Event → List (Option Event) × List (BlockKind × UInt32)
  | [] => ([], [])
  | .entered kind offset :: rest =>
    let (blocks, ends) := told rest
    let block := ends.head?.bind fun (ended, words) ↦
      if ended = kind then some (.opened kind.id offset words) else none
    (block :: blocks, ends.tail)
  | .exited kind words :: rest =>
    let (blocks, ends) := told rest
    (blocks, (kind, words) :: ends)
  | _ :: rest => told rest

theorem told_block {events : List Event} {blocks : List (Option Event)}
    (h : ∀ rest, told (events ++ rest) = (blocks ++ (told rest).1, (told rest).2))
    (kind : BlockKind) (offset : Nat) (words : UInt32) (rest : List Event) :
    told (.entered kind offset :: (events ++ .exited kind words :: rest)) =
      (some (.opened kind.id offset words) :: blocks ++ (told rest).1, (told rest).2) := by
  rw [told, h]
  simp [told]

theorem entered_of_beginBlock {s t : Session} (hs : s.out.Tidy) {id : UInt32} {kind : BlockKind}
    (hk : BlockKind.ofId? id = some kind) {scope : Scope}
    (hopen : Emit.beginBlock id s = .ok scope t) :
    ∃ offset, t.log = s.log.push (.entered kind offset) ∧ ∀ words body,
      (Item.block ⟨id, kind.abbrevWidth, words⟩ body).openings s.width s.out.bitLen =
        .opened id offset words :: Item.openingsAll t.width t.out.bitLen body := by
  obtain ⟨out, offset, log, hrun, hadds, hbehind⟩ := Emit.beginBlock_of_kind hs hk
  have hlen := hadds.bitLen_eq
  rw [List.length_append, length_bitsOf, ← Nat.add_assoc] at hlen
  cases hrun.symm.trans hopen
  cases (Emit.beginBlock_eq hk s).symm.trans hrun
  refine ⟨_, rfl, fun words body ↦ ?_⟩
  rw [Item.openings, ← hbehind, Nat.mul_div_cancel_left _ (by decide), hlen, ← hbehind]
  rfl

/-- The session `t` is `s` with these items behind its output, and its log tells the blocks in
them. -/
structure Reports (s t : Session) (items : List Item) : Prop where
  emits : s.Emits t items
  told_log : ∃ events, t.log = s.log ++ events.toArray ∧ ∀ rest,
    told (events ++ rest) =
      ((Item.openingsAll s.width s.out.bitLen items).map some ++ (told rest).1, (told rest).2)

namespace Reports

variable {s t u v : Session} {xs ys : List Item}

theorem refl (hs : s.out.Tidy) : s.Reports s [] := ⟨.refl hs, [], by simp, fun _ ↦ rfl⟩

theorem trans (h : s.Reports t xs) (k : t.Reports u ys) : s.Reports u (xs ++ ys) := by
  obtain ⟨hxs, front, hfront, htold⟩ := h
  obtain ⟨hys, back, hback, htold'⟩ := k
  refine ⟨hxs.trans hys, front ++ back, by rw [hback, hfront]; simp, fun rest ↦ ?_⟩
  rw [width_congr hxs.frames, hxs.adds.bitLen_eq] at htold'
  rw [List.append_assoc, htold, htold', Item.openingsAll_append]
  simp

theorem block (hs : s.out.Tidy) {id : UInt32} {kind : BlockKind}
    (hk : BlockKind.ofId? id = some kind) {scope : Scope}
    (hopen : Emit.beginBlock id s = .ok scope t) (hbody : t.Reports u xs) {block : Item}
    (hblock : kind.blockOf? xs = some block) (hclose : Emit.endBlock scope u = .ok () v) :
    s.Reports v [block] := by
  obtain ⟨hemits, events, hlog, htold⟩ := hbody
  obtain ⟨words, hwords, rfl⟩ := blockOf?_eq_some hblock
  obtain ⟨w, hclose', hwhole⟩ := emits_of_endBlock hs hk hopen hemits hblock
  cases hclose.symm.trans hclose'
  obtain ⟨out', -, -, hfits, -⟩ := endBlock_of_emits hs hk hopen hemits
  cases hclose.symm.trans (hfits words hwords)
  obtain ⟨offset, hentered, hopenings⟩ := entered_of_beginBlock hs hk hopen
  obtain rfl := BlockKind.id_of_ofId? hk
  refine ⟨hwhole, .entered kind offset :: (events ++ [.exited kind words]), ?_, fun rest ↦ ?_⟩
  · rw [hlog, hentered]
    simp
  · rw [List.cons_append, List.append_assoc, List.singleton_append, told_block htold,
      Item.openingsAll_singleton, hopenings]
    rfl

end Reports

/-- The session `t` comes from `s` by writing items and opening blocks, and tells the blocks that
have been closed since. -/
inductive Recounts (s : Session) : Session → Prop
  | base {t : Session} {items : List Item} (reports : s.Reports t items) : Recounts s t
  | inner {t u v : Session} {id : UInt32} {kind : BlockKind} {scope : Scope} {items : List Item}
      (recounts : Recounts s t) (known : BlockKind.ofId? id = some kind)
      (opened : Emit.beginBlock id t = .ok scope u) (reports : u.Reports v items) : Recounts s v

namespace Recounts

variable {s t u : Session}

theorem tidy (h : Recounts s t) : t.out.Tidy := by
  cases h with
  | base reports => exact reports.emits.adds.tidy
  | inner _ _ _ reports => exact reports.emits.adds.tidy

theorem add {items : List Item} (h : Recounts s t) (hreports : t.Reports u items) :
    Recounts s u := by
  cases h with
  | base reports => exact .base (reports.trans hreports)
  | inner recounts known opened reports =>
    exact .inner recounts known opened (reports.trans hreports)

end Recounts

section Calls

variable {s t : Session}

theorem told_of_frames {call : Call} (hcall : call.isScripted = true)
    (hclose : ∀ scope, call ≠ .closeBlock scope) (hframes : (s.next call).frames = s.frames) :
    ∃ events, (s.next call).log = s.log ++ events.toArray ∧
      ∀ rest, told (events ++ rest) = told rest := by
  have hsame (h : (s.next call).log = s.log) : ∃ events,
      (s.next call).log = s.log ++ events.toArray ∧ ∀ rest, told (events ++ rest) = told rest :=
    ⟨[], by simp [h], fun _ ↦ rfl⟩
  cases call with
  | openBlock id =>
    cases hk : BlockKind.ofId? id with
    | none =>
      rw [next, finalState_of_error (Emit.beginBlock_of_unknown hk)]
      exact ⟨[.unknownBlock id], rfl, fun _ ↦ rfl⟩
    | some kind =>
      rw [next, finalState_of_ok (Emit.beginBlock_eq hk s)] at hframes
      exact absurd hframes (List.cons_ne_self _ _)
  | closeBlock scope => exact absurd rfl (hclose scope)
  | record code operands => exact hsame rfl
  | define layout types =>
    by_cases ht : types = 0
    · exact hsame (by rw [next, finalState_of_error (Emit.define_of_zero ht s)])
    · exact hsame (by rw [next, finalState_of_ok (Emit.define_of_ne_zero ht s)])
  | append step => cases hcall
  | note event =>
    cases event with
    | registering types => exact ⟨[.registering types], rfl, fun _ ↦ rfl⟩
    | _ => cases hcall

theorem reports_of_flat {call : Call} (hcall : call.isScripted = true)
    (hclose : ∀ scope, call ≠ .closeBlock scope) {items : List Item}
    (hemits : s.Emits (s.next call) items) (hflat : ∀ item ∈ items, item.isBlock = false) :
    s.Reports (s.next call) items := by
  obtain ⟨events, hlog, htold⟩ := told_of_frames hcall hclose hemits.frames
  refine ⟨hemits, events, hlog, fun rest ↦ ?_⟩
  rw [htold, Item.openingsAll_of_flat hflat]
  rfl

theorem recounts_next (hs : s.frames = []) (h : Recounts s t) {call : Call}
    (hcall : call.isScripted = true) : Recounts s (t.next call) ∨ (t.next call).Overlong := by
  by_cases hclose : ∃ scope, call = .closeBlock scope
  · obtain ⟨scope, rfl⟩ := hclose
    cases h with
    | base reports =>
      rw [closeBlock_of_outermost (reports.emits.frames.trans hs)]
      exact .inl (.base reports)
    | inner recounts known opened reports =>
      rcases closeBlock_cases recounts.tidy known opened reports.emits scope with
        hsame | ⟨block, hblock, hrun, -⟩ | hlong
      · rw [hsame]
        exact .inl (.inner recounts known opened reports)
      · exact .inl (recounts.add (.block recounts.tidy known opened reports hblock hrun))
      · exact .inr hlong
  · refine .inl ?_
    have hcloses := not_exists.mp hclose
    cases writes_next h.tidy (Call.isFraming_of_isScripted hcall) hcloses with
    | nothing emits => exact h.add (reports_of_flat hcall hcloses emits (by simp))
    | leaf emits flat called => exact h.add (reports_of_flat hcall hcloses emits (by simpa))
    | opens called known opened tidy =>
      subst called
      exact .inner h known opened (.refl tidy)

theorem reports_of_closed (hs : s.frames = []) (hsound : s.Sound) {calls : List Call}
    (hcalls : calls.all Call.isScripted = true) (hclosed : (s.after calls).frames = []) :
    ∃ items, s.Reports (s.after calls) items := by
  rcases after_of_along (Q := Recounts s) (fun hcall h ↦ recounts_next hs h hcall) hsound
    (along_of_all s hcalls) (.inl (.base (.refl hsound.tidy))) with h | ⟨f, hf, -⟩
  · generalize s.after calls = t at h hclosed
    cases h with
    | base reports => exact ⟨_, reports⟩
    | inner recounts known opened reports =>
      cases (Emit.beginBlock_eq known _).symm.trans opened
      rw [reports.emits.frames] at hclosed
      cases hclosed
  · rw [hclosed] at hf
    cases hf

end Calls

/-- If a session writes blocks, records in them and definitions in them, nests them no deeper than a
decoder allows and closes all of them, then it can be finished, and reading what it has written
tells the same blocks as its own log, in the order they were entered: each with its id, the offset
told where it was entered and the number of words told where it was left. -/
theorem run_tells_log (steps : List Step) (hsteps : allFraming steps = true)
    (hplace : Along (Call.InPlace fun _ ↦ True) (start .empty)
      (Bench.allCalls ⟨start .empty, #[]⟩ steps))
    (hclosed : (Bench.afterAll ⟨start .empty, #[]⟩ steps).session.frames = []) :
    ∃ bytes S log, (Bench.afterAll ⟨start .empty, #[]⟩ steps).session.finish = .ok bytes ∧
      Decode.run bytes = (.ok S, log) ∧
      told (Bench.afterAll ⟨start .empty, #[]⟩ steps).session.log.toList =
        (log.toList.map some, []) := by
  rw [← after_allCalls _ steps (allAppend_of_allFraming steps hsteps)] at hclosed ⊢
  have hsound := sound_start .empty
  obtain ⟨items, hitems, hstand⟩ := emits_of_closed rfl hsound hplace hclosed
  obtain ⟨bytes, S, hfinish, hdecode, -⟩ := decode_of_stands hitems hstand
  obtain ⟨reported, hemits, events, hlog, htold⟩ := reports_of_closed rfl hsound
    (all_isScripted_allCalls ⟨start .empty, #[]⟩ steps hsteps) hclosed
  obtain ⟨body, hfinish', hbody⟩ := finish_of_emits hemits
  cases hfinish.symm.trans hfinish'
  obtain ⟨rfl, hbits⟩ := Decode.items_eq_of_decode hemits.regular hbody hdecode
  have hdepth := (Decode.isWritten_of_decode hdecode).1
  refine ⟨_, S, _, hfinish, Decode.run_of_ofItems hemits.regular hdepth hbits, ?_⟩
  have hwidth : (start .empty).width = Format.topLevelWidth := rfl
  have hlen : (start .empty).out.bitLen = 32 := by decide
  have hstart : (start .empty).log = #[] := rfl
  have hall := htold []
  rw [List.append_nil, hwidth, hlen, told, List.append_nil] at hall
  rw [hlog, hstart]
  simpa using hall

theorem run_tells_log_nested :
    let steps : List Step := [.openBlock 8, .block 17 [.record 1 [7]], .closeBlock 0, .block 0 [],
      .openBlock 99]
    ∃ bytes S log, (Bench.afterAll ⟨start .empty, #[]⟩ steps).session.finish = .ok bytes ∧
      Decode.run bytes = (.ok S, log) ∧
      log = #[.opened 8 8 4, .opened 17 16 1, .opened 0 32 1] := by
  intro steps
  obtain ⟨bytes, S, log, hfinish, hrun, htold⟩ :=
    run_tells_log steps (by decide) (by decide +kernel) (by decide +kernel)
  have hblocks : log.toList.map some =
      [.opened 8 8 4, .opened 17 16 1, .opened 0 32 1].map some :=
    (congrArg Prod.fst htold).symm.trans (by decide +kernel)
  refine ⟨bytes, S, log, hfinish, hrun, Array.ext' ?_⟩
  exact List.map_injective_iff.mpr (Option.some_injective _) hblocks

end BlockStream.Session
