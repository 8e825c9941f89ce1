import BlockStream.Proofs.Session.Acts
import Mathlib.Data.List.Nodup

namespace BlockStream.Session

/-- A session, the scopes it has issued and those its blocks have been closed with, in order. -/
structure Ledger where
  session : Session
  issued : List Scope := []
  used : List Scope := []

namespace Ledger

def start (existing : ByteArray) : Ledger := { session := Session.start existing }

def act (l : Ledger) (a : Act) : Ledger where
  session := l.session.act a
  issued := l.issued ++ (a.issued? l.session).toList
  used := l.used ++ (a.used? l.session).toList

def after (l : Ledger) (acts : List Act) : Ledger := acts.foldl act l

/-- The scopes of the open blocks, the innermost last. -/
def pending (l : Ledger) : List Scope := l.issued.filter fun scope ↦ scope ∉ l.used

theorem pending_issue {l : Ledger} {scope : Scope} (h : scope ∉ l.used) (s : Session) :
    pending ⟨s, l.issued ++ [scope], l.used⟩ = l.pending ++ [scope] := by
  simp [pending, h]

theorem pending_use (l : Ledger) (s : Session) (scope : Scope) :
    pending ⟨s, l.issued, l.used ++ [scope]⟩ = l.pending.filter (· ≠ scope) := by
  rw [pending, pending, List.filter_filter]
  apply List.filter_congr
  intro other _
  simp [and_comm]

theorem session_after (l : Ledger) (acts : List Act) :
    (l.after acts).session = l.session.afterActs acts := by
  induction acts generalizing l with
  | nil => rfl
  | cons a acts ih => exact ih (l.act a)

end Ledger

/-- The scopes of open blocks, the innermost first. -/
def scopes : List Frame → List Scope
  | [] => []
  | frame :: rest => ⟨frame, rest.length + 1⟩ :: scopes rest

theorem map_frame_scopes (frames : List Frame) : (scopes frames).map (·.frame) = frames := by
  induction frames with
  | nil => rfl
  | cons frame rest ih => rw [scopes, List.map_cons, ih]

/-- The books are right: the scopes that are not used are those of the open blocks, in their order.
Length words are aligned, and follow one another in the order in which their blocks were opened. -/
structure Ledger.Balanced (l : Ledger) : Prop where
  sized : l.session.out.Sized
  aligned : ∀ scope ∈ l.issued, scope.frame.lengthOffset % 4 = 0
  inside : ∀ scope ∈ l.issued, 8 * (scope.frame.lengthOffset + 4) ≤ l.session.out.bitLen
  ascending : l.issued.Pairwise fun earlier later ↦
    earlier.frame.lengthOffset + 4 ≤ later.frame.lengthOffset
  used_issued : ∀ scope ∈ l.used, scope ∈ l.issued
  scopes_eq : scopes l.session.frames = l.pending.reverse

namespace Ledger.Balanced

variable {l : Ledger} (h : l.Balanced)
include h

theorem mem_issued {frame : Frame} (hf : frame ∈ l.session.frames) :
    ∃ scope ∈ l.issued, scope.frame = frame := by
  rw [← map_frame_scopes l.session.frames, h.scopes_eq] at hf
  obtain ⟨scope, hscope, hframe⟩ := List.mem_map.mp hf
  exact ⟨scope, List.mem_of_mem_filter (List.mem_reverse.mp hscope), hframe⟩

theorem frame_inside {frame : Frame} (hf : frame ∈ l.session.frames) :
    8 * (frame.lengthOffset + 4) ≤ l.session.out.bitLen := by
  obtain ⟨scope, hscope, rfl⟩ := h.mem_issued hf
  exact h.inside scope hscope

theorem nodup_lengthOffset : (l.issued.map (·.frame.lengthOffset)).Nodup := by
  refine List.pairwise_map.mpr (h.ascending.imp ?_)
  intro a b hab heq
  omega

/-- Within a session the place of its length word tells a block. -/
theorem eq_of_lengthOffset {a b : Scope} (ha : a ∈ l.issued) (hb : b ∈ l.issued)
    (hab : a.frame.lengthOffset = b.frame.lengthOffset) : a = b :=
  List.inj_on_of_nodup_map h.nodup_lengthOffset ha hb hab

theorem nodup_pending : l.pending.Nodup := (List.Nodup.of_map _ h.nodup_lengthOffset).filter _

theorem pending_of_frames {scope : Scope} {rest : List Frame}
    (hframes : l.session.frames = scope.frame :: rest) (hdepth : scope.depth = l.session.depth) :
    l.pending = (scopes rest).reverse ++ [scope] := by
  have hscope : scope = ⟨scope.frame, rest.length + 1⟩ := by
    rw [depth, hframes, List.length_cons] at hdepth
    rw [← hdepth]
  have hall := h.scopes_eq
  rw [hframes, scopes, ← hscope] at hall
  rw [← List.reverse_reverse l.pending, ← hall, List.reverse_cons]

theorem act (a : Act) : (l.act a).Balanced := by
  have heffect := effect_act h.sized (fun _ ↦ h.frame_inside) a
  cases heffect with
  | stays grows frames issued used =>
    have hle := grows.bitLen_le
    rw [Ledger.act, issued, used, Option.toList_none, List.append_nil, List.append_nil]
    refine ⟨grows.sized h.sized, h.aligned, ?_, h.ascending, h.used_issued, ?_⟩
    · intro scope hscope
      exact Nat.le_trans (h.inside scope hscope) hle
    · rw [frames]
      exact h.scopes_eq
  | @opens frame grows frames behind aligned inside issued used =>
    have hle := grows.bitLen_le
    have hbefore (scope : Scope) (hscope : scope ∈ l.issued) :
        scope.frame.lengthOffset + 4 ≤ frame.lengthOffset := by
      have := h.inside scope hscope
      omega
    have hnew : (⟨frame, l.session.depth + 1⟩ : Scope) ∉ l.used := by
      intro hmem
      have := hbefore _ (h.used_issued _ hmem)
      dsimp only at this
      omega
    rw [Ledger.act, issued, used, Option.toList_none, Option.toList_some, List.append_nil]
    refine ⟨grows.sized h.sized, ?_, ?_, ?_, ?_, ?_⟩
    · intro scope hscope
      rcases List.mem_append.mp hscope with hold | hnew
      · exact h.aligned scope hold
      · rw [List.mem_singleton.mp hnew]
        exact aligned
    · intro scope hscope
      rcases List.mem_append.mp hscope with hold | hnew
      · exact Nat.le_trans (h.inside scope hold) hle
      · rw [List.mem_singleton.mp hnew]
        exact inside
    · refine List.pairwise_append.mpr ⟨h.ascending, List.pairwise_singleton _ _, ?_⟩
      intro scope hscope other hother
      rw [List.mem_singleton.mp hother]
      exact hbefore scope hscope
    · intro scope hscope
      exact List.mem_append_left _ (h.used_issued scope hscope)
    · rw [pending_issue hnew, List.reverse_append, ← h.scopes_eq, frames]
      rfl
  | @closes scope grows frames depth issued used =>
    have hle := grows.bitLen_le
    have hpending := h.pending_of_frames frames depth
    have hnodup := h.nodup_pending
    rw [Ledger.act, issued, used, Option.toList_none, Option.toList_some, List.append_nil]
    refine ⟨grows.sized h.sized, h.aligned, ?_, h.ascending, ?_, ?_⟩
    · intro scope hscope
      exact Nat.le_trans (h.inside scope hscope) hle
    · intro other hother
      rcases List.mem_append.mp hother with hold | hnew
      · exact h.used_issued other hold
      · have hmem : scope ∈ l.pending := by
          rw [hpending]
          exact List.mem_append_right _ (List.mem_singleton_self scope)
        rw [List.mem_singleton.mp hnew]
        exact List.mem_of_mem_filter hmem
    · rw [hpending, List.nodup_append] at hnodup
      have hother (other : Scope) (hmem : other ∈ (scopes (l.session.act a).frames).reverse) :
          other ≠ scope := hnodup.2.2 other hmem scope (List.mem_singleton_self scope)
      rw [pending_use, hpending, List.filter_append,
        List.filter_eq_self.mpr (by simpa using hother)]
      simp

end Ledger.Balanced

theorem Ledger.balanced_start (existing : ByteArray) : (Ledger.start existing).Balanced where
  sized := (Buffer.grows_pushBytes _ _).sized (Buffer.tidy_ofBytes existing).sized
  aligned _ h := absurd h List.not_mem_nil
  inside _ h := absurd h List.not_mem_nil
  ascending := .nil
  used_issued _ h := absurd h List.not_mem_nil
  scopes_eq := rfl

theorem Ledger.balanced_after {l : Ledger} (h : l.Balanced) (acts : List Act) :
    (l.after acts).Balanced := by
  induction acts generalizing l with
  | nil => exact h
  | cons a acts ih => exact ih (h.act a)

/-- What is promised of a session and its own scopes. -/
structure Framed (l : Ledger) : Prop where
  /-- Length words stand behind one another, those of inner blocks last. -/
  ascending : l.session.frames.Pairwise fun inner outer ↦ outer.lengthOffset < inner.lengthOffset
  placed : ∀ f ∈ l.session.frames,
    f.lengthOffset % 4 = 0 ∧ f.lengthOffset + 4 ≤ l.session.out.bitLen / 8
  /-- The open blocks are those that have been opened and not been closed. -/
  frames_eq : l.session.frames = l.pending.reverse.map (·.frame)
  innermost_eq : l.session.innermost = l.pending.getLast?.map (·.frame.kind)
  width_eq : l.session.width = match l.pending.getLast? with
    | some scope => scope.frame.kind.abbrevWidth.toNat
    | none => 2
  /-- The scope of the innermost block closes it and no other, unless its body is too long. -/
  closes : ∀ scope, l.pending.getLast? = some scope →
    Emit.bodyBytes l.session scope.frame.lengthOffset / 4 < 2 ^ 32 →
    ∃ t, Emit.endBlock scope l.session = .ok () t ∧ l.session.frames = scope.frame :: t.frames
  tooLarge : ∀ scope, l.pending.getLast? = some scope →
    2 ^ 32 ≤ Emit.bodyBytes l.session scope.frame.lengthOffset / 4 →
    ∃ t, Emit.endBlock scope l.session = .error (.error (.blockTooLarge scope.frame.kind
      (Emit.bodyBytes l.session scope.frame.lengthOffset))) t ∧ t.frames = l.session.frames
  /-- Every other scope that the session has issued is refused, and nothing changes. -/
  refuses : ∀ scope ∈ l.issued, l.pending.getLast? ≠ some scope →
    Emit.endBlock scope l.session = .error (.error
      (.mismatchedEndBlock l.session.innermost scope.frame.kind)) l.session
  /-- No scope, of whatever origin, makes closing break a contract. -/
  keepsContract : ∀ scope v t, Emit.endBlock scope l.session ≠ .error (.violation v) t

namespace Ledger.Balanced

variable {l : Ledger} (h : l.Balanced)
include h

theorem frames_eq : l.session.frames = l.pending.reverse.map (·.frame) := by
  rw [← h.scopes_eq, map_frame_scopes]

theorem getLast?_pending : l.pending.getLast? = (scopes l.session.frames).head? := by
  rw [h.scopes_eq, List.head?_reverse]

theorem frames_of_getLast? {scope : Scope} (hlast : l.pending.getLast? = some scope) :
    ∃ rest, l.session.frames = scope.frame :: rest ∧ scope.depth = l.session.depth := by
  rw [h.getLast?_pending] at hlast
  cases hframes : l.session.frames with
  | nil =>
    rw [hframes] at hlast
    cases hlast
  | cons frame rest =>
    rw [hframes] at hlast
    cases hlast
    refine ⟨rest, rfl, ?_⟩
    rw [depth, hframes, List.length_cons]

theorem endBlock_of_last {scope : Scope} (hlast : l.pending.getLast? = some scope) :
    ∃ rest, l.session.frames = scope.frame :: rest ∧
      Emit.endBlock scope l.session =
        let bytes := Emit.bodyBytes l.session scope.frame.lengthOffset
        if bytes / 4 < UInt32.size then
          .ok () ⟨(Emit.ended l.session).overwrite scope.frame.lengthOffset (bytes / 4).toUInt32,
            rest, l.session.log.push (.exited scope.frame.kind (bytes / 4).toUInt32)⟩
        else .error (.error (.blockTooLarge scope.frame.kind bytes))
          { l.session with out := Emit.ended l.session } := by
  obtain ⟨rest, hframes, hdepth⟩ := h.frames_of_getLast? hlast
  have hin := h.frame_inside (hframes ▸ List.mem_cons_self)
  exact ⟨rest, hframes, Emit.endBlock_eq h.sized scope hframes hdepth hin⟩

theorem last_of_match {scope : Scope} (hissued : scope ∈ l.issued)
    (hhead : l.session.frames.head? = some scope.frame) : l.pending.getLast? = some scope := by
  obtain ⟨rest, hframes⟩ := List.head?_eq_some_iff.mp hhead
  have hlast := h.getLast?_pending
  rw [hframes, scopes, List.head?_cons] at hlast
  have hmem := List.mem_of_mem_filter (List.mem_of_getLast? hlast)
  rw [hlast, h.eq_of_lengthOffset hissued hmem rfl]

theorem framed : Framed l where
  ascending := by
    have hpending : l.pending.Pairwise fun earlier later ↦
        earlier.frame.lengthOffset + 4 ≤ later.frame.lengthOffset := h.ascending.filter _
    rw [h.frames_eq, List.pairwise_map, List.pairwise_reverse]
    refine hpending.imp ?_
    intro earlier later hle
    omega
  placed f hf := by
    obtain ⟨scope, hscope, rfl⟩ := h.mem_issued hf
    have hin := h.inside scope hscope
    exact ⟨h.aligned scope hscope, by omega⟩
  frames_eq := h.frames_eq
  innermost_eq := by
    rw [innermost, h.frames_eq, List.head?_map, List.head?_reverse, Option.map_map]
    rfl
  width_eq := by
    rw [width, innermost, h.frames_eq, List.head?_map, List.head?_reverse]
    cases l.pending.getLast? <;> rfl
  closes scope hlast hfits := by
    obtain ⟨rest, hframes, hrun⟩ := h.endBlock_of_last hlast
    exact ⟨_, hrun.trans (if_pos hfits), hframes⟩
  tooLarge scope hlast hlarge := by
    obtain ⟨rest, hframes, hrun⟩ := h.endBlock_of_last hlast
    exact ⟨_, hrun.trans (if_neg (Nat.not_lt.mpr hlarge)), rfl⟩
  refuses scope hissued hother := by
    apply Emit.endBlock_of_mismatch
    intro hmatch
    exact hother (h.last_of_match hissued hmatch.1)
  keepsContract scope v t hrun := by
    by_cases hmatch : l.session.frames.head? = some scope.frame ∧ scope.depth = l.session.depth
    · obtain ⟨hhead, hdepth⟩ := hmatch
      obtain ⟨rest, hframes⟩ := List.head?_eq_some_iff.mp hhead
      have hin := h.frame_inside (hframes ▸ List.mem_cons_self)
      have heq := (Emit.endBlock_eq h.sized scope hframes hdepth hin).symm.trans hrun
      dsimp only at heq
      split at heq <;> cases heq
    · cases (Emit.endBlock_of_mismatch hmatch).symm.trans hrun

end Ledger.Balanced

/-- Whatever is done to a session, with whatever scopes and patches: its open blocks are those that
have been opened and not closed, its own scopes close just the block they belong to, and only while
that is the innermost, and no closing breaks a contract. Every script is such a run. -/
theorem framed_after (existing : ByteArray) :
    (∀ acts, Framed ((Ledger.start existing).after acts)) ∧
      ∀ (slots : Array (Option Scope)) (steps : List Step),
        ((Ledger.start existing).after
            (Bench.allActs ⟨Session.start existing, slots⟩ steps)).session =
          (Bench.afterAll ⟨Session.start existing, slots⟩ steps).session := by
  refine ⟨fun acts ↦ (Ledger.balanced_after (Ledger.balanced_start existing) acts).framed, ?_⟩
  intro slots steps
  rw [Ledger.session_after]
  exact afterActs_allActs ⟨_, slots⟩ steps

theorem framed_after_nested :
    ∃ l, l = (Ledger.start .empty).after
        [.call (.openBlock 8), .buffer (.field 3 5), .call (.openBlock 17),
          .call (.closeBlock ⟨⟨.type, 16⟩, 2⟩), .call (.openBlock 12), .buffer (.patch 0 7)] ∧
      l.issued = [⟨⟨.module, 8⟩, 1⟩, ⟨⟨.type, 16⟩, 2⟩, ⟨⟨.function, 28⟩, 2⟩] ∧
      l.used = [⟨⟨.type, 16⟩, 2⟩] ∧
      (∃ t, Emit.endBlock ⟨⟨.function, 28⟩, 2⟩ l.session = .ok () t ∧
        t.frames = [⟨.module, 8⟩]) ∧
      Emit.endBlock ⟨⟨.type, 16⟩, 2⟩ l.session =
        .error (.error (.mismatchedEndBlock (some .function) .type)) l.session ∧
      Emit.endBlock ⟨⟨.module, 8⟩, 1⟩ l.session =
        .error (.error (.mismatchedEndBlock (some .function) .module)) l.session := by
  obtain ⟨hall, -⟩ := framed_after .empty
  have hframed := hall
    [.call (.openBlock 8), .buffer (.field 3 5), .call (.openBlock 17),
      .call (.closeBlock ⟨⟨.type, 16⟩, 2⟩), .call (.openBlock 12), .buffer (.patch 0 7)]
  generalize hl : (Ledger.start .empty).after
    [.call (.openBlock 8), .buffer (.field 3 5), .call (.openBlock 17),
      .call (.closeBlock ⟨⟨.type, 16⟩, 2⟩), .call (.openBlock 12), .buffer (.patch 0 7)] = l
    at hframed
  have hissued : l.issued = [⟨⟨.module, 8⟩, 1⟩, ⟨⟨.type, 16⟩, 2⟩, ⟨⟨.function, 28⟩, 2⟩] := by
    rw [← hl]
    decide +kernel
  have hused : l.used = [⟨⟨.type, 16⟩, 2⟩] := by
    rw [← hl]
    decide +kernel
  have hpending : l.pending = [⟨⟨.module, 8⟩, 1⟩, ⟨⟨.function, 28⟩, 2⟩] := by
    rw [Ledger.pending, hissued, hused]
    decide
  have hlast : l.pending.getLast? = some ⟨⟨.function, 28⟩, 2⟩ := by rw [hpending]; rfl
  have hinnermost : l.session.innermost = some .function := by
    rw [hframed.innermost_eq, hlast]
    rfl
  have hrefuses (scope : Scope) (hscope : scope ∈ l.issued)
      (hother : scope ≠ ⟨⟨.function, 28⟩, 2⟩) : Emit.endBlock scope l.session =
        .error (.error (.mismatchedEndBlock (some .function) scope.frame.kind)) l.session := by
    rw [hframed.refuses scope hscope fun h ↦ hother (Option.some.inj (h.symm.trans hlast)),
      hinnermost]
  have hsmall : Emit.bodyBytes l.session 28 / 4 < 2 ^ 32 := by
    rw [← hl]
    decide +kernel
  obtain ⟨t, hrun, hframes⟩ := hframed.closes _ hlast hsmall
  rw [hframed.frames_eq, hpending] at hframes
  refine ⟨l, rfl, hissued, hused, ⟨t, hrun, (List.cons.inj hframes).2.symm⟩, ?_, ?_⟩
  · exact hrefuses _ (by simp [hissued]) (by decide)
  · exact hrefuses _ (by simp [hissued]) (by decide)

end BlockStream.Session
