import BlockStream.Proofs.Decode.Canonical
import BlockStream.Proofs.Decode.Shift

namespace BlockStream.Decode

open Format Wire

theorem takes_allBits_append (x y : ByteArray) :
    Cursor.Takes ⟨x ++ y, 0⟩ (allBits x) ⟨x ++ y, 8 * x.size⟩ := by
  have hlen : (allBits x).length = 8 * x.size := length_bitsAt ..
  refine ⟨by rw [hlen, Nat.zero_add], ?_, ?_⟩
  · rw [hlen]
    refine bitsAt_congr fun i hi ↦ ?_
    rw [Nat.zero_add]
    exact bitAt_append_left y hi
  · simp only [hlen, Cursor.bitLen, ByteArray.size_append]
    omega

/-- Decoding comes from the start of a stream to what stands behind it. -/
theorem blocks_append {A : Stream} {x : ByteArray} (y : ByteArray)
    (h : IsItems topLevelWidth 0 A.items (allBits x)) (hdepth : A.depth ≤ maxDepth) :
    ∃ log, blocks [] { cursor := ⟨x ++ y, 0⟩ } =
      blocks A.blocks.reverse ⟨⟨x ++ y, 8 * x.size⟩, log⟩ := by
  obtain ⟨log, hrun⟩ := (blocks_of_isItems A.blocks [] ⟨⟨x ++ y, 0⟩, #[]⟩ h
    (takes_allBits_append x y)).1 hdepth
  rw [List.append_nil] at hrun
  exact ⟨log, hrun⟩

/-- Behind a stream, other bytes are decoded as behind the magic bytes: to the same blocks, which
follow those of the stream, or to the same error, with its position moved on by the stream. -/
theorem decode_append {x : ByteArray} {A : Stream} (h : Stream.decode (magic ++ x) = .ok A)
    (y : ByteArray) :
    (∀ B, Stream.decode (magic ++ y) = .ok B →
      Stream.decode (magic ++ x ++ y) = .ok ⟨A.blocks ++ B.blocks⟩) ∧
    (∀ e, Stream.decode (magic ++ y) = .error (.error e) →
      Stream.decode (magic ++ x ++ y) = .error (.error (e.moved (8 * x.size)))) := by
  obtain ⟨hdepth, body, hbody, hitems⟩ := isWritten_of_decode h
  obtain rfl := append_left_cancel hbody
  have hfront : 8 * x.size % 32 = 0 := by
    have hend := hitems.aligned (fun _ ↦ A.isBlock_of_mem_items) (Nat.zero_mod 32)
    rwa [Nat.zero_add, allBits, length_bitsAt] at hend
  obtain ⟨log, hrun⟩ := blocks_append y hitems hdepth
  have halike := alike_blocks hfront A.blocks.reverse [] ⟨⟨y, 0⟩, #[]⟩
    ⟨⟨x ++ y, 8 * x.size⟩, log⟩ rfl
  rw [List.nil_append, ← hrun] at halike
  rw [ByteArray.append_assoc, decode_magic_append, decode_magic_append]
  generalize blocks [] { cursor := ⟨y, 0⟩ } = alone at halike
  generalize blocks [] { cursor := ⟨x ++ y, 0⟩ } = behind at halike
  cases halike with
  | ok value =>
    subst value
    refine ⟨fun B hB ↦ ?_, fun e he ↦ ?_⟩
    · cases hB
      rw [List.reverse_reverse]
    · cases he
  | error moved =>
    subst moved
    refine ⟨fun B hB ↦ ?_, fun e he ↦ ?_⟩
    · cases hB
    · cases he
      rfl
  | violation =>
    refine ⟨fun B hB ↦ ?_, fun e he ↦ ?_⟩
    · cases hB
    · cases he

theorem decode_append_whole_and_cut :
    Stream.decode (magic ++ ⟨#[33, 12, 0, 0, 1, 0, 0, 0, 11, 2, 1, 0]⟩ ++
      ⟨#[33, 12, 0, 0, 1, 0, 0, 0, 11, 2, 1, 0]⟩) =
      .ok ⟨[⟨⟨8, 3, 1⟩, [.record 1 [2]]⟩, ⟨⟨8, 3, 1⟩, [.record 1 [2]]⟩]⟩ ∧
    Stream.decode (magic ++ ⟨#[33, 12, 0, 0, 1, 0, 0, 0, 11, 2, 1, 0]⟩ ++ ⟨#[1]⟩) =
      .error (.error (.unexpectedEnd 98)) := by
  have hone : Stream.decode (magic ++ ⟨#[33, 12, 0, 0, 1, 0, 0, 0, 11, 2, 1, 0]⟩) =
      .ok ⟨[⟨⟨8, 3, 1⟩, [.record 1 [2]]⟩]⟩ := by
    have hbits : allBits ⟨#[33, 12, 0, 0, 1, 0, 0, 0, 11, 2, 1, 0]⟩ =
        ofItems topLevelWidth 0 [.block ⟨8, 3, 1⟩ [.record 1 [2]]] := by decide +kernel
    refine (decode_of_ofItems (S := ⟨[⟨⟨8, 3, 1⟩, [.record 1 [2]]⟩]⟩) ?_ hbits).trans
      (if_pos (by decide))
    exact ⟨⟨by decide, by decide, by decide +kernel, trivial, trivial⟩, trivial⟩
  have hcut : Stream.decode (magic ++ ⟨#[1]⟩) = .error (.error (.unexpectedEnd 2)) := by
    have htop : topLevel { cursor := ⟨⟨#[1]⟩, 0⟩ } =
        .error (.error (.unexpectedEnd 2)) { cursor := ⟨⟨#[1]⟩, 2⟩ } := by with_unfolding_all rfl
    rw [decode_magic_append, blocks_of_error (by decide) htop]
  exact ⟨(decode_append hone _).1 _ hone, (decode_append hone _).2 _ hcut⟩

end BlockStream.Decode
