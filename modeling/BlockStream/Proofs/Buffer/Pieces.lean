import BlockStream.Proofs.Buffer.Sized

namespace BlockStream.Buffer

theorem Tidy.eq_of_bits {b c : Buffer} (hb : b.Tidy) (hc : c.Tidy) (h : b.bits = c.bits) :
    b = c := by
  have hlen : b.bitLen = c.bitLen := by simpa using congrArg List.length h
  refine hb.sized.eq_of_bitAt hc.sized hlen fun i ↦ ?_
  rcases Nat.lt_or_ge i b.bitLen with hi | hi
  · have hget := List.getElem_of_eq h (i := i) (by simpa using hi)
    simpa [bits, getElem_bitsAt] using hget
  · rw [hb.clear i hi, hc.clear i (hlen ▸ hi)]

theorem Adds.unique {b c d : Buffer} {xs : List Bool} (h : b.Adds xs c) (k : b.Adds xs d) :
    c = d := h.tidy.eq_of_bits k.tidy (h.bits_eq.trans k.bits_eq.symm)

section Pieces

variable {b : Buffer} (h : b.Sized)
include h

theorem Sized.tidy_of_aligned (haligned : b.bitLen % 8 = 0) : b.Tidy := by
  have hsize : b.bytes.size = (b.bitLen + 7) / 8 := h
  exact tidy_of_whole (by omega)

theorem pushBytes_eq_each (bytes : ByteArray) :
    b.pushBytes bytes = bytes.data.toList.foldl pushByte b := by
  by_cases haligned : b.bitLen % 8 = 0
  · have htidy := h.tidy_of_aligned haligned
    have heach := adds_pushEach htidy bytes.data.toList
    rw [← allBits_eq_flatMap] at heach
    exact (adds_pushBytes htidy bytes).unique heach
  · rw [pushBytes, if_neg haligned, ← Array.foldl_toList]

theorem foldl_pushBytes (pieces : List ByteArray) :
    pieces.foldl pushBytes b = (pieces.flatMap fun x ↦ x.data.toList).foldl pushByte b := by
  induction pieces generalizing b with
  | nil => rfl
  | cons piece pieces ih =>
    have hpiece := (grows_pushBytes b piece).sized h
    rw [List.foldl_cons, ih hpiece, List.flatMap_cons, List.foldl_append, pushBytes_eq_each h]

/-- Bytes that are pushed together give the same buffer as one by one and as in any pieces, whether
it ends with a byte or within one, and even if bits are set behind its end. If none are, the bits of
these bytes come behind its own. -/
theorem pushBytes_pieces (bytes : ByteArray) :
    b.pushBytes bytes = bytes.data.foldl pushByte b ∧
      (∀ pieces : List ByteArray, (pieces.flatMap fun x ↦ x.data.toList) = bytes.data.toList →
        pieces.foldl pushBytes b = b.pushBytes bytes) ∧
      (b.Tidy → b.Adds (allBits bytes) (b.pushBytes bytes)) := by
  have heach := pushBytes_eq_each h bytes
  refine ⟨heach.trans (Array.foldl_toList ..), fun pieces hpieces ↦ ?_,
    fun htidy ↦ adds_pushBytes htidy bytes⟩
  rw [foldl_pushBytes h, hpieces, heach]

end Pieces

theorem pushBytes_pieces_within :
    Tidy ⟨⟨#[0xff, 0x07]⟩, 11⟩ ∧
      pushBytes ⟨⟨#[0xff, 0x07]⟩, 11⟩ ⟨#[1, 2, 3]⟩ =
        pushByte (pushByte (pushByte ⟨⟨#[0xff, 0x07]⟩, 11⟩ 1) 2) 3 ∧
      pushBytes (pushBytes (pushBytes ⟨⟨#[0xff, 0x07]⟩, 11⟩ ⟨#[1]⟩) .empty) ⟨#[2, 3]⟩ =
        pushBytes ⟨⟨#[0xff, 0x07]⟩, 11⟩ ⟨#[1, 2, 3]⟩ := by
  have htidy : Tidy ⟨⟨#[0xff, 0x07]⟩, 11⟩ := by
    have hadds := adds_push (tidy_ofBytes ⟨#[0xff]⟩) ⟨3, 7⟩
    have hpush : (ofBytes ⟨#[0xff]⟩).push ⟨3, 7⟩ = ⟨⟨#[0xff, 0x07]⟩, 11⟩ := rfl
    exact hpush ▸ hadds.tidy
  obtain ⟨heach, hpieces, -⟩ := pushBytes_pieces htidy.sized ⟨#[1, 2, 3]⟩
  exact ⟨htidy, heach, hpieces [⟨#[1]⟩, .empty, ⟨#[2, 3]⟩] rfl⟩

end BlockStream.Buffer
