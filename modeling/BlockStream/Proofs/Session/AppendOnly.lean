import BlockStream.Proofs.Session.Script
import Mathlib.Data.List.Induction

namespace BlockStream.Session

def Opened (existing : ByteArray) (calls : List Call) (scope : Scope) : Prop :=
  ∃ before id between, calls = before ++ .openBlock id :: between ∧
    (Call.openBlock id).Opens ((start existing).after before) scope

theorem Opened.mono {existing : ByteArray} {calls : List Call} {scope : Scope}
    (h : Opened existing calls scope) (call : Call) : Opened existing (calls ++ [call]) scope := by
  obtain ⟨before, id, between, rfl, hopens⟩ := h
  exact ⟨before, id, between ++ [call], by simp, hopens⟩

theorem opened_of_frames (existing : ByteArray) (calls : List Call) (inner : List Frame)
    (frame : Frame) (rest : List Frame)
    (h : ((start existing).after calls).frames = inner ++ frame :: rest) :
    Opened existing calls ⟨frame, rest.length + 1⟩ := by
  -- on the last call, which has opened the block or has found it open
  induction calls using List.reverseRecOn generalizing inner with
  | nil => cases inner <;> cases h
  | append_singleton calls call ih =>
    have hmoves := moves_next (sound_after (sound_start existing) calls) call
    rw [after_append, after_cons, after_nil] at h
    cases hmoves with
    | stays adds frames => exact (ih inner (frames ▸ h)).mono call
    | @opens kind offset xs opened closes adds behind aligned frames =>
      rw [frames] at h
      cases inner with
      | nil =>
        injection h with hframe hrest
        subst hframe hrest
        obtain ⟨id, t, rfl, hok⟩ := (opened _).mpr rfl
        exact ⟨calls, id, [], rfl, id, t, rfl, hok⟩
      | cons f inner =>
        injection h with _ hrest
        exact (ih inner hrest).mono call
    | closes opens closed frames =>
      rw [h] at frames
      exact (ih (_ :: inner) frames).mono call

/-- What is promised of a call that follows the given ones. -/
structure Lawful (existing : ByteArray) (calls : List Call) (s : Session) (call : Call) : Prop where
  /-- The end of what is written never moves back. -/
  forward : s.out.bitLen ≤ (s.next call).out.bitLen
  /-- A byte that is written in full changes only in the length word of a block that is closed. -/
  kept : ∀ n, 8 * (n + 1) ≤ s.out.bitLen →
    (s.next call).out.bytes.data[n]? ≠ s.out.bytes.data[n]? →
    ∃ scope, call.Closes s scope ∧ scope.frame.lengthOffset ≤ n ∧ n < scope.frame.lengthOffset + 4
  /-- A block that is opened ends its header in a clear length word. -/
  opened : ∀ scope, call.Opens s scope →
    (s.next call).out.bitLen % 32 = 0 ∧
    (s.next call).out.bitLen = 8 * (scope.frame.lengthOffset + 4) ∧
    (s.next call).out.HasWord scope.frame.lengthOffset 0
  /-- A block that is closed has been opened, its length word is still clear, takes the number of
  words behind it, which is not zero, and keeps that for good. -/
  closed : ∀ scope, call.Closes s scope →
    Opened existing calls scope ∧ s.out.HasWord scope.frame.lengthOffset 0 ∧
    (s.next call).out.bitLen % 32 = 0 ∧
    ∃ words : UInt32, words ≠ 0 ∧
      8 * (scope.frame.lengthOffset + 4) + 32 * words.toNat = (s.next call).out.bitLen ∧
      ∀ later, ((s.next call).after later).out.HasWord scope.frame.lengthOffset words

theorem final_of_closes {s : Session} (hs : s.Sound) {call : Call} {scope : Scope}
    (hscope : call.Closes s scope) {words : UInt32}
    (hword : (s.next call).out.HasWord scope.frame.lengthOffset words) (later : List Call) :
    ((s.next call).after later).out.HasWord scope.frame.lengthOffset words := by
  have hmoves := moves_next hs call
  have hframes := hmoves.frames_of_closes hscope
  have hin := hs.inside scope.frame (hframes ▸ List.mem_cons_self)
  have hapart := hs.apart
  rw [hframes, List.pairwise_cons] at hapart
  refine (hasWord_after_iff (hmoves.sound hs) later ?_ (fun f hf ↦ .inr ?_) words).mpr hword
  · exact Nat.le_trans hin hmoves.bitLen_le
  · exact hapart.1 f hf

/-- Whatever has been called before, a call moves the end of the output forward, opens and closes
blocks on word boundaries, and changes no byte that is written in full but those of the length word
it fills in. Every script that patches nothing is such a run. -/
theorem lawful_after (existing : ByteArray) :
    (∀ calls call, Lawful existing calls ((start existing).after calls) call) ∧
      ∀ (slots : Array (Option Scope)) (steps : List Step), allAppend steps = true →
        (start existing).after (Bench.allCalls ⟨start existing, slots⟩ steps) =
          (Bench.afterAll ⟨start existing, slots⟩ steps).session := by
  refine ⟨fun calls call ↦ ?_, fun slots steps h ↦ after_allCalls ⟨_, slots⟩ steps h⟩
  have hs := sound_after (sound_start existing) calls
  have hmoves := moves_next hs call
  refine ⟨hmoves.bitLen_le, fun n hn hne ↦ ?_, fun scope ↦ hmoves.word_of_opens,
    fun scope hscope ↦ ?_⟩
  · by_contra hnone
    exact hne (hmoves.byte_eq hs.tidy hn fun scope hscope hin ↦ hnone ⟨scope, hscope, hin⟩)
  · have hframes := hmoves.frames_of_closes hscope
    have hopened := opened_of_frames existing calls [] _ _ hframes
    have hdepth := hmoves.depth_of_closes hscope
    rw [depth, hframes, List.length_cons] at hdepth
    rw [← hdepth] at hopened
    obtain ⟨haligned, words, hnonempty, hlength, hword⟩ := hmoves.word_of_closes hs hscope
    exact ⟨hopened, hs.clear _ (hframes ▸ List.mem_cons_self), haligned, words, hnonempty, hlength,
      final_of_closes hs hscope hword⟩

theorem lawful_after_nested :
    ∃ s t, s = (start .empty).after [.openBlock 8, .append ⟨.field 3 5, rfl⟩, .openBlock 17] ∧
      t = s.next (.closeBlock ⟨⟨.type, 16⟩, 2⟩) ∧ s.out.bitLen = 160 ∧ s.out.HasWord 16 0 ∧
      t.out.bitLen = 192 ∧ (∀ n < 16, t.out.bytes.data[n]? = s.out.bytes.data[n]?) ∧
      ∀ later, (t.after later).out.HasWord 16 1 := by
  obtain ⟨hlawful, -⟩ := lawful_after .empty
  have hopens := hlawful [.openBlock 8, .append ⟨.field 3 5, rfl⟩] (.openBlock 17)
  have hcloses := hlawful [.openBlock 8, .append ⟨.field 3 5, rfl⟩, .openBlock 17]
    (.closeBlock ⟨⟨.type, 16⟩, 2⟩)
  have hopen : (Call.openBlock 17).Opens
      ((start .empty).after [.openBlock 8, .append ⟨.field 3 5, rfl⟩]) ⟨⟨.type, 16⟩, 2⟩ := by
    have hkind : BlockKind.ofId? 17 = some .type := rfl
    generalize hs : (start .empty).after [.openBlock 8, .append ⟨.field 3 5, rfl⟩] = s
    have hoffset : (Emit.headed s 17 .type).bitLen / 8 = 16 := by
      rw [← hs]
      decide +kernel
    have hdepth : s.depth = 1 := by
      rw [← hs]
      decide +kernel
    have hrun := Emit.beginBlock_eq hkind s
    rw [hoffset, hdepth] at hrun
    exact ⟨17, _, rfl, hrun⟩
  obtain ⟨-, hstart, hclear⟩ := hopens.opened _ hopen
  have hsound := sound_after (sound_start .empty)
    [.openBlock 8, .append ⟨.field 3 5, rfl⟩, .openBlock 17]
  have hframes : ((start .empty).after [.openBlock 8, .append ⟨.field 3 5, rfl⟩,
      .openBlock 17]).frames = [⟨.type, 16⟩, ⟨.module, 8⟩] := by decide +kernel
  have hclose : (Call.closeBlock ⟨⟨.type, 16⟩, 2⟩).Closes ((start .empty).after
      [.openBlock 8, .append ⟨.field 3 5, rfl⟩, .openBlock 17]) ⟨⟨.type, 16⟩, 2⟩ := by
    have hrun := Emit.endBlock_eq hsound.tidy.sized ⟨⟨.type, 16⟩, 2⟩ hframes
      (by rw [depth, hframes]; rfl) (hsound.inside _ (hframes ▸ List.mem_cons_self))
    exact ⟨_, rfl, hrun.trans (if_pos (by decide +kernel))⟩
  obtain ⟨-, -, -, words, -, hlength, hfinal⟩ := hcloses.closed _ hclose
  generalize hs : (start .empty).after [.openBlock 8, .append ⟨.field 3 5, rfl⟩, .openBlock 17] = s
    at hcloses hlength hfinal
  have hend : (s.next (.closeBlock ⟨⟨.type, 16⟩, 2⟩)).out.bitLen = 192 := by
    rw [← hs]
    decide +kernel
  have hwords : words = 1 := by
    rw [← UInt32.toNat_inj, UInt32.toNat_one]
    dsimp only at hlength
    omega
  have hstart : s.out.bitLen = 160 := hs ▸ hstart
  refine ⟨s, _, rfl, rfl, hstart, hs ▸ hclear, hend, fun n hn ↦ ?_, hwords ▸ hfinal⟩
  by_contra hne
  obtain ⟨scope, hscope, hfrom, -⟩ := hcloses.kept n (by omega) hne
  obtain ⟨-, ⟨⟩, -⟩ := hscope
  dsimp only at hfrom
  omega

end BlockStream.Session
