import BlockStream.Proofs.Buffer.ReadBack
import BlockStream.Proofs.Buffer.Sized
import Mathlib.Algebra.Order.Floor.Div
import Mathlib.Data.Nat.Size

namespace BlockStream

theorem Vbr.length_chunks {payload : Nat} (hp : 0 < payload) (value : Nat) :
    (chunks payload value).length = max 1 (value.size ⌈/⌉ payload) := by
  refine eq_of_forall_ge_iff fun n ↦ ?_
  rw [length_chunks_le_iff hp, max_le_iff, ceilDiv_le_iff_le_mul hp, Nat.size_le,
    Nat.mul_comm payload]
  rfl

namespace Buffer

/-- A number is written as one list of chunks, whatever the buffer holds: as many as its digits
need, and all but the last with the top bit set. A reader takes them for the number, and no other
chunks that it takes for it are as few. -/
theorem vbr_shortest {width : Nat} (hw : 2 ≤ width ∧ width ≤ 64) (value : UInt64) :
    ∃ written : List Nat,
      (∀ b : Buffer, ∃ c, Write.vbr width value b = .ok () c ∧
        c.bitLen = b.bitLen + written.length * width ∧
        (b.Tidy → b.Adds (written.flatMap (bitsOf width)) c)) ∧
      written.length = max 1 (value.toNat.size ⌈/⌉ (width - 1)) ∧
      (∀ chunk ∈ written, chunk < 2 ^ width) ∧
      (∀ i (h : i < written.length),
        written[i].testBit (width - 1) = decide (i + 1 < written.length)) ∧
      (∀ {c d : Cursor}, c.Takes (written.flatMap (bitsOf width)) d →
        Read.vbr width c = .ok value d) ∧
      ∀ {chunks : List Nat} {c d : Cursor}, (∀ chunk ∈ chunks, chunk < 2 ^ width) →
        c.Takes (chunks.flatMap (bitsOf width)) d → Read.vbr width c = .ok value d →
        written.length ≤ chunks.length ∧ (chunks.length = written.length → chunks = written) := by
  have hp : 0 < width - 1 := by omega
  have hwidth : width - 1 + 1 = width := by omega
  have hchain := Vbr.chain_chunks hp value.toNat
  have hlt {chain : List Nat} (h : Vbr.Chain (width - 1) chain) :
      ∀ chunk ∈ chain, chunk < 2 ^ width := by
    have := h.lt
    rwa [hwidth] at this
  have hbits := Vbr.flatMap_fields width value.toNat
  refine ⟨Vbr.chunks (width - 1) value.toNat, fun b ↦ ?_, Vbr.length_chunks hp value.toNat,
    hlt hchain, hchain.testBit_getElem, fun htake ↦ ?_, fun hchunks htake hread ↦ ?_⟩
  · refine ⟨b.pushAll (Vbr.fields width value.toNat), vbr_eq hw value, ?_, ?_⟩
    · rw [bitLen_pushAll, hbits, length_flatMap_bitsOf]
    · intro hb
      rw [← hbits]
      exact adds_pushAll hb _
  · exact Read.vbr_of_fields hw (hbits ▸ htake)
  · obtain ⟨bits, ⟨-, chain, hother, -, hvalue, rfl⟩, htake'⟩ := Read.takes_of_vbr hread
    obtain rfl := eq_of_flatMap_bitsOf (by omega) hchunks (hlt hother) (htake.unique htake')
    have hfewest := Vbr.length_chunks_le hp hother
    rw [hvalue] at hfewest
    refine ⟨hfewest, fun hlen ↦ hother.eq_of_length hchain hlen ?_⟩
    rw [hvalue, Vbr.ofChunks_chunks hp]

theorem vbr_shortest_two_chunks :
    ∃ written : List Nat, written.length = 2 ∧
      (∀ b : Buffer, b.Tidy → ∃ c, Write.vbr 6 63 b = .ok () c ∧
        b.Adds (written.flatMap (bitsOf 6)) c) ∧
      (Read.vbr 6 ⟨⟨#[0x7f, 0x08, 0x00]⟩, 0⟩ = .ok 63 ⟨⟨#[0x7f, 0x08, 0x00]⟩, 18⟩ →
        written.length ≤ 3) := by
  obtain ⟨written, hwrite, hlen, -, -, -, hfewest⟩ :=
    vbr_shortest (show 2 ≤ 6 ∧ 6 ≤ 64 by decide) 63
  have htake : Cursor.Takes ⟨⟨#[0x7f, 0x08, 0x00]⟩, 0⟩ ([63, 33, 0].flatMap (bitsOf 6))
      ⟨⟨#[0x7f, 0x08, 0x00]⟩, 18⟩ := ⟨by rfl, by decide, by decide⟩
  refine ⟨written, hlen.trans (by decide +kernel), fun b hb ↦ ?_, fun hread ↦
    (hfewest (by decide) htake hread).1⟩
  obtain ⟨c, hrun, -, hadds⟩ := hwrite b
  exact ⟨c, hrun, hadds hb⟩

end Buffer

end BlockStream
