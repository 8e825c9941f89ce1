import BlockStream.Proofs.Cursor.Takes
import Mathlib.Algebra.BigOperators.Group.Finset.Basic
import Mathlib.Algebra.Order.BigOperators.Group.Finset

namespace BlockStream

namespace Cursor

section Chunks

variable (c : Cursor) (width i : Nat)

/-- The `i`th field of so many bits from the cursor on. -/
def chunkAt : Nat := fieldAt c.bytes (c.pos + i * width) width

/-- The cursor at the start of that field. -/
def toChunk : Cursor := { c with pos := c.pos + i * width }

def HasChunk : Prop := c.pos + (i + 1) * width ≤ c.bitLen

def MoreAt : Prop := (c.chunkAt width i).testBit (width - 1) = true

/-- Whether a chunk begins behind the 64 digits of a word, or has a digit set that stands there. -/
def SpillsAt : Prop :=
  64 ≤ i * (width - 1) ∨
    ∃ j < width - 1, (c.chunkAt width i).testBit j = true ∧ 64 ≤ i * (width - 1) + j

def payloadAt : Nat := c.chunkAt width i % 2 ^ (width - 1)

def payloadSum (n : Nat) : Nat := ∑ i ∈ Finset.range n, c.payloadAt width i * 2 ^ (i * (width - 1))

/-- Whether a reading goes on behind a chunk. -/
structure GoesOn : Prop where
  has : c.HasChunk width i
  fits : ¬ c.SpillsAt width i
  more : c.MoreAt width i

instance decidableHasChunk : Decidable (c.HasChunk width i) :=
  inferInstanceAs (Decidable (c.pos + (i + 1) * width ≤ c.bitLen))

instance decidableMoreAt : Decidable (c.MoreAt width i) :=
  inferInstanceAs (Decidable ((c.chunkAt width i).testBit (width - 1) = true))

end Chunks

section Payload

variable (c : Cursor) (width : Nat)

theorem chunkAt_lt (i : Nat) : c.chunkAt width i < 2 ^ width := fieldAt_lt ..

theorem payloadAt_lt (i : Nat) : c.payloadAt width i < 2 ^ (width - 1) :=
  Nat.mod_lt _ (Nat.two_pow_pos _)

theorem testBit_payloadAt (i : Nat) {j : Nat} (h : j < width - 1) :
    (c.payloadAt width i).testBit j = (c.chunkAt width i).testBit j := by
  rw [payloadAt, Nat.testBit_mod_two_pow, decide_eq_true h, Bool.true_and]

theorem payloadSum_succ (n : Nat) : c.payloadSum width (n + 1) =
    c.payloadSum width n + c.payloadAt width n <<< (n * (width - 1)) := by
  rw [payloadSum, Finset.sum_range_succ, ← payloadSum, Nat.shiftLeft_eq]

theorem payloadSum_lt (n : Nat) : c.payloadSum width n < 2 ^ (n * (width - 1)) := by
  induction n with
  | zero => simp [payloadSum]
  | succ n ih =>
    rw [payloadSum_succ, Nat.succ_mul]
    exact Read.sum_lt_next ih (c.payloadAt_lt width n)

theorem testBit_payloadSum {n i j : Nat} (hi : i < n) (hj : j < width - 1) :
    (c.payloadSum width n).testBit (i * (width - 1) + j) = (c.chunkAt width i).testBit j := by
  induction n with
  | zero => exact absurd hi (Nat.not_lt_zero i)
  | succ n ih =>
    rw [payloadSum_succ, Nat.add_comm, Nat.shiftLeft_eq, Nat.mul_comm,
      Nat.testBit_two_pow_mul_add _ (c.payloadSum_lt width n)]
    rcases Nat.lt_or_eq_of_le (Nat.le_of_lt_succ hi) with hlt | rfl
    · have hbelow : i * (width - 1) + j < n * (width - 1) :=
        calc i * (width - 1) + j < (i + 1) * (width - 1) := by rw [Nat.succ_mul]; omega
          _ ≤ n * (width - 1) := Nat.mul_le_mul_right _ hlt
      rw [if_pos hbelow, ih hlt]
    · rw [if_neg (by omega), Nat.add_sub_cancel_left, testBit_payloadAt c width i hj]

theorem moreAt_iff {width : Nat} (hw : 0 < width) (i : Nat) :
    c.MoreAt width i ↔ Vbr.flag (width - 1) ≤ c.chunkAt width i := by
  have hlt : c.chunkAt width i < 2 ^ (width - 1 + 1) := by
    rw [Nat.sub_add_cancel hw]
    exact c.chunkAt_lt width i
  rw [MoreAt, Vbr.testBit_chunk hlt, decide_eq_true_eq]

theorem spillsAt_iff (i : Nat) : c.SpillsAt width i ↔
    64 ≤ i * (width - 1) ∨ 2 ^ 64 ≤ c.payloadAt width i <<< (i * (width - 1)) := by
  refine or_congr_right' fun hs ↦ ?_
  rw [← Nat.not_lt, Read.shiftLeft_lt_iff (Nat.not_le.mp hs), Nat.not_lt]
  constructor
  · rintro ⟨j, hj, hbit, hout⟩
    rw [← testBit_payloadAt c width i hj] at hbit
    exact Nat.le_trans (Nat.pow_le_pow_right Nat.two_pos (by omega))
      (Nat.ge_two_pow_of_testBit hbit)
  · intro hle
    obtain ⟨j, hj, hbit⟩ := Nat.exists_ge_and_testBit_of_ge_two_pow hle
    have hin : j < width - 1 := by
      by_contra hout
      have hpow := Nat.lt_of_lt_of_le (c.payloadAt_lt width i)
        (Nat.pow_le_pow_right Nat.two_pos (Nat.not_lt.mp hout))
      exact absurd hbit (by simp [Nat.testBit_lt_two_pow hpow])
    exact ⟨j, hin, by rwa [← testBit_payloadAt c width i hin], by omega⟩

theorem payloadSum_lt_word {n : Nat} (h : ∀ i < n, ¬ c.SpillsAt width i) :
    c.payloadSum width n < 2 ^ 64 := by
  cases n with
  | zero => simp [payloadSum]
  | succ n =>
    obtain ⟨hs, hfit⟩ := not_or.mp (mt (c.spillsAt_iff width n).mpr (h n (Nat.lt_succ_self n)))
    rw [payloadSum_succ]
    exact Read.sum_lt (Nat.not_le.mp hs) (c.payloadSum_lt width n) (Nat.not_le.mp hfit)

theorem not_spillsAt {k i : Nat} (hk : k * (width - 1) < 64)
    (hsum : c.payloadSum width (k + 1) < 2 ^ 64) (hi : i ≤ k) : ¬ c.SpillsAt width i := by
  have hstart := Nat.mul_le_mul_right (width - 1) hi
  have hpart : c.payloadAt width i <<< (i * (width - 1)) ≤ c.payloadSum width (k + 1) := by
    rw [Nat.shiftLeft_eq]
    exact Finset.single_le_sum (f := fun i ↦ c.payloadAt width i * 2 ^ (i * (width - 1)))
      (fun _ _ ↦ Nat.zero_le _) (Finset.mem_range.mpr (Nat.lt_succ_of_le hi))
  rw [spillsAt_iff]
  omega

end Payload

theorem exists_stop (c : Cursor) {width : Nat} (hw : 2 ≤ width) :
    ∃ k, (∀ i < k, c.GoesOn width i) ∧ ¬ c.GoesOn width k := by
  classical
  have hstop : ∃ k, ¬ c.GoesOn width k :=
    ⟨64, fun h ↦ h.fits (.inl (Nat.le_mul_of_pos_right 64 (by omega)))⟩
  exact ⟨Nat.find hstop, fun i hi ↦ not_not.mp (Nat.find_min hstop hi), Nat.find_spec hstop⟩

end Cursor

namespace Read

/-- A reading before its `k`th chunk, with the payload of those in front in the sum. -/
def fromChunk (c : Cursor) (payload k : Nat) : EStateM.Result (Fault DecodeError) Cursor UInt64 :=
  chunksFrom payload c.pos (k * (payload + 1)) (c.payloadSum (payload + 2) k).toUInt64
    (c.toChunk (payload + 2) k)

section Chunks

variable {c : Cursor} {payload : Nat} (hp : payload + 2 ≤ 64)
include hp

theorem field_toChunk {k : Nat} (h : c.HasChunk (payload + 2) k) :
    field (payload + 2) (c.toChunk (payload + 2) k) =
      .ok (c.chunkAt (payload + 2) k).toUInt64 (c.toChunk (payload + 2) (k + 1)) := by
  have hend : c.pos + k * (payload + 2) + (payload + 2) = c.pos + (k + 1) * (payload + 2) := by
    rw [Nat.succ_mul, Nat.add_assoc]
  rw [field_eq, if_neg (Nat.not_lt.mpr hp), Cursor.toChunk, if_pos (by rw [hend]; exact h), hend]
  rfl

theorem field_toChunk_of_not {k : Nat} (h : ¬ c.HasChunk (payload + 2) k) :
    field (payload + 2) (c.toChunk (payload + 2) k) =
      .error (.error (.unexpectedEnd (c.pos + k * (payload + 2)))) (c.toChunk (payload + 2) k) := by
  have hend : c.pos + k * (payload + 2) + (payload + 2) = c.pos + (k + 1) * (payload + 2) := by
    rw [Nat.succ_mul, Nat.add_assoc]
  rw [field_eq, if_neg (Nat.not_lt.mpr hp), Cursor.toChunk, if_neg (by rw [hend]; exact h)]

theorem fromChunk_eq {k : Nat} (hsum : c.payloadSum (payload + 2) k < 2 ^ 64)
    (h : c.HasChunk (payload + 2) k) :
    fromChunk c payload k =
      if 64 ≤ k * (payload + 1) ∨ 2 ^ 64 ≤ c.payloadAt (payload + 2) k <<< (k * (payload + 1)) then
        .error (.error (.vbrOverflow c.pos)) (c.toChunk (payload + 2) (k + 1))
      else if c.chunkAt (payload + 2) k < Vbr.flag (payload + 1) then
        .ok (c.payloadSum (payload + 2) (k + 1)).toUInt64 (c.toChunk (payload + 2) (k + 1))
      else fromChunk c payload (k + 1) := by
  have hlow := c.payloadSum_lt (payload + 2) k
  have hchunk : (c.chunkAt (payload + 2) k).toUInt64.toNat = c.chunkAt (payload + 2) k :=
    toNat_toUInt64 (Nat.lt_of_lt_of_le (c.chunkAt_lt _ k) (Nat.pow_le_pow_right Nat.two_pos hp))
  have hdigits : c.chunkAt (payload + 2) k % Vbr.flag (payload + 1) =
      c.payloadAt (payload + 2) k := by rw [Vbr.flag_eq]; rfl
  rw [fromChunk, chunksFrom_of_field hp (by rwa [toNat_toUInt64 hsum]) (field_toChunk hp h), hchunk,
    toNat_toUInt64 hsum, fromChunk, Nat.succ_mul, c.payloadSum_succ]
  dsimp only
  rw [hdigits]
  rfl

theorem fromChunk_of_not_has {k : Nat} (h : ¬ c.HasChunk (payload + 2) k) :
    fromChunk c payload k =
      .error (.error (.unexpectedEnd (c.pos + k * (payload + 2)))) (c.toChunk (payload + 2) k) := by
  rw [fromChunk, chunksFrom]
  exact bind_of_error (field_toChunk_of_not hp h)

theorem vbr_eq_fromChunk {k : Nat} (h : ∀ i < k, c.GoesOn (payload + 2) i) :
    vbr (payload + 2) c = fromChunk c payload k := by
  induction k with
  | zero =>
    rw [vbr, if_pos hp, fromChunk, Cursor.toChunk, Nat.zero_mul, Nat.zero_mul]
    exact bind_of_ok rfl
  | succ k ih =>
    have hk := h k (Nat.lt_succ_self k)
    have hfront (i : Nat) (hi : i < k) := h i (Nat.lt_succ_of_lt hi)
    have hsum := c.payloadSum_lt_word (payload + 2) fun i hi ↦ (hfront i hi).fits
    have hfits := mt (c.spillsAt_iff (payload + 2) k).mpr hk.fits
    have hmore := (c.moreAt_iff (Nat.succ_pos _) k).mp hk.more
    rw [ih hfront, fromChunk_eq hp hsum hk.has]
    exact (if_neg hfits).trans (if_neg (Nat.not_lt.mpr hmore))

section Stopping

variable {k : Nat} (hfront : ∀ i < k, c.GoesOn (payload + 2) i)
include hfront

theorem vbr_of_not_has (h : ¬ c.HasChunk (payload + 2) k) :
    vbr (payload + 2) c =
      .error (.error (.unexpectedEnd (c.pos + k * (payload + 2)))) (c.toChunk (payload + 2) k) := by
  rw [vbr_eq_fromChunk hp hfront, fromChunk_of_not_has hp h]

theorem vbr_of_spills (h : c.HasChunk (payload + 2) k) (hspill : c.SpillsAt (payload + 2) k) :
    vbr (payload + 2) c =
      .error (.error (.vbrOverflow c.pos)) (c.toChunk (payload + 2) (k + 1)) := by
  have hsum := c.payloadSum_lt_word (payload + 2) fun i hi ↦ (hfront i hi).fits
  rw [vbr_eq_fromChunk hp hfront, fromChunk_eq hp hsum h]
  exact if_pos ((c.spillsAt_iff (payload + 2) k).mp hspill)

theorem vbr_of_last (h : c.HasChunk (payload + 2) k) (hfits : ¬ c.SpillsAt (payload + 2) k)
    (hlast : ¬ c.MoreAt (payload + 2) k) :
    vbr (payload + 2) c =
      .ok (c.payloadSum (payload + 2) (k + 1)).toUInt64 (c.toChunk (payload + 2) (k + 1)) := by
  have hsum := c.payloadSum_lt_word (payload + 2) fun i hi ↦ (hfront i hi).fits
  have hlow := mt (c.moreAt_iff (Nat.succ_pos _) k).mpr hlast
  rw [vbr_eq_fromChunk hp hfront, fromChunk_eq hp hsum h]
  exact (if_neg (mt (c.spillsAt_iff (payload + 2) k).mpr hfits)).trans (if_pos (Nat.not_le.mp hlow))

end Stopping

/-- A reading fails at the first chunk that is not all there or does not fit, unless one in front of
it is the last. -/
theorem vbr_stops : ∃ k, (∀ i < k, c.GoesOn (payload + 2) i) ∧
    (¬ c.HasChunk (payload + 2) k ∧ vbr (payload + 2) c =
        .error (.error (.unexpectedEnd (c.pos + k * (payload + 2)))) (c.toChunk (payload + 2) k) ∨
      c.HasChunk (payload + 2) k ∧ c.SpillsAt (payload + 2) k ∧ vbr (payload + 2) c =
        .error (.error (.vbrOverflow c.pos)) (c.toChunk (payload + 2) (k + 1)) ∨
      c.HasChunk (payload + 2) k ∧ ¬ c.SpillsAt (payload + 2) k ∧ ¬ c.MoreAt (payload + 2) k ∧
        vbr (payload + 2) c = .ok (c.payloadSum (payload + 2) (k + 1)).toUInt64
          (c.toChunk (payload + 2) (k + 1))) := by
  obtain ⟨k, hfront, hstop⟩ := c.exists_stop (show 2 ≤ payload + 2 by omega)
  refine ⟨k, hfront, ?_⟩
  by_cases hhas : c.HasChunk (payload + 2) k
  · by_cases hspill : c.SpillsAt (payload + 2) k
    · exact .inr (.inl ⟨hhas, hspill, vbr_of_spills hp hfront hhas hspill⟩)
    · have hlast : ¬ c.MoreAt (payload + 2) k := fun hmore ↦ hstop ⟨hhas, hspill, hmore⟩
      exact .inr (.inr ⟨hhas, hspill, hlast, vbr_of_last hp hfront hhas hspill hlast⟩)
  · exact .inl ⟨hhas, vbr_of_not_has hp hfront hhas⟩

/-- Chunks that are all there, and of which only the last is without its top bit, are read as the
number they make. -/
theorem vbr_eq_ok_iff {v : UInt64} {d : Cursor} : vbr (payload + 2) c = .ok v d ↔
    ∃ k, (∀ i < k, c.MoreAt (payload + 2) i) ∧ ¬ c.MoreAt (payload + 2) k ∧
      (∀ i ≤ k, c.HasChunk (payload + 2) i) ∧ k * (payload + 1) < 64 ∧
      v.toNat = c.payloadSum (payload + 2) (k + 1) ∧ d = c.toChunk (payload + 2) (k + 1) := by
  constructor
  · intro h
    obtain ⟨k, hfront, ⟨-, hend⟩ | ⟨-, -, hover⟩ | ⟨hhas, hfits, hlast, hread⟩⟩ :=
      vbr_stops (c := c) hp
    · cases hend.symm.trans h
    · cases hover.symm.trans h
    · cases hread.symm.trans h
      have hto {P : Nat → Prop} (hless : ∀ i < k, P i) (hk : P k) (i : Nat) (hi : i ≤ k) : P i := by
        rcases Nat.lt_or_eq_of_le hi with hlt | rfl
        · exact hless i hlt
        · exact hk
      have hsum := c.payloadSum_lt_word (payload + 2) (n := k + 1) fun i hi ↦
        hto (fun i hi ↦ (hfront i hi).fits) hfits i (Nat.le_of_lt_succ hi)
      exact ⟨k, fun i hi ↦ (hfront i hi).more, hlast, hto (fun i hi ↦ (hfront i hi).has) hhas,
        Nat.not_le.mp fun hs ↦ hfits (.inl hs), toNat_toUInt64 hsum, rfl⟩
  · rintro ⟨k, hmore, hlast, hhas, hstart, hv, rfl⟩
    have hfits (i : Nat) (hi : i ≤ k) : ¬ c.SpillsAt (payload + 2) i :=
      c.not_spillsAt (payload + 2) hstart (hv ▸ v.toNat_lt) hi
    have hfront (i : Nat) (hi : i < k) : c.GoesOn (payload + 2) i :=
      ⟨hhas i (Nat.le_of_lt hi), hfits i (Nat.le_of_lt hi), hmore i hi⟩
    rw [vbr_of_last hp hfront (hhas k (Nat.le_refl k)) (hfits k (Nat.le_refl k)) hlast, ← hv,
      toUInt64_toNat]

end Chunks

/-- A reading yields a number just where a first chunk without its top bit set is all there, begins
within the 64 digits of a word, and the payload up to there makes that number. Otherwise it fails at
the first chunk that is not all there, before it, or that does not fit, behind it, and no chunk in
front of that is without its top bit. A number that is read has all digits of its chunks. -/
theorem vbr_exact {width : Nat} (hw : 2 ≤ width ∧ width ≤ 64) (c : Cursor) :
    (∀ v d, vbr width c = .ok v d ↔
      ∃ k, (∀ i < k, c.MoreAt width i) ∧ ¬ c.MoreAt width k ∧ (∀ i ≤ k, c.HasChunk width i) ∧
        k * (width - 1) < 64 ∧ v.toNat = c.payloadSum width (k + 1) ∧
        d = { c with pos := c.pos + (k + 1) * width }) ∧
    ((∀ v d, vbr width c ≠ .ok v d) →
      ∃ k, (∀ i < k, c.HasChunk width i ∧ ¬ c.SpillsAt width i ∧ c.MoreAt width i) ∧
        (¬ c.HasChunk width k ∧ vbr width c =
            .error (.error (.unexpectedEnd (c.pos + k * width)))
              { c with pos := c.pos + k * width } ∨
          c.HasChunk width k ∧ c.SpillsAt width k ∧ vbr width c =
            .error (.error (.vbrOverflow c.pos)) { c with pos := c.pos + (k + 1) * width })) ∧
    ∀ v d, vbr width c = .ok v d → ∀ i j, c.pos + (i + 1) * width ≤ d.pos → j < width - 1 →
      v.toNat.testBit (i * (width - 1) + j) = (c.chunkAt width i).testBit j := by
  obtain ⟨payload, rfl⟩ := Nat.exists_eq_add_of_le' hw.1
  refine ⟨fun v d ↦ vbr_eq_ok_iff hw.2, fun hfail ↦ ?_, fun v d h i j hi hj ↦ ?_⟩
  · obtain ⟨k, hfront, hstop⟩ := vbr_stops (c := c) hw.2
    refine ⟨k, fun i hi ↦ ⟨(hfront i hi).has, (hfront i hi).fits, (hfront i hi).more⟩, ?_⟩
    rcases hstop with hend | hover | ⟨-, -, -, hread⟩
    · exact .inl hend
    · exact .inr hover
    · exact absurd hread (hfail _ _)
  · obtain ⟨k, -, -, -, -, hv, rfl⟩ := (vbr_eq_ok_iff hw.2).mp h
    have hik : i < k + 1 := by
      have hle : (i + 1) * (payload + 2) ≤ (k + 1) * (payload + 2) := Nat.le_of_add_le_add_left hi
      exact Nat.le_of_mul_le_mul_right hle (Nat.succ_pos _)
    rw [hv]
    exact c.testBit_payloadSum (payload + 2) hik hj

theorem vbr_exact_two_chunks :
    vbr 6 ⟨⟨#[0x7f, 0x00]⟩, 0⟩ = .ok 63 ⟨⟨#[0x7f, 0x00]⟩, 12⟩ ∧
      (63 : UInt64).toNat.testBit (1 * 5 + 0) =
        (Cursor.chunkAt ⟨⟨#[0x7f, 0x00]⟩, 0⟩ 6 1).testBit 0 := by
  obtain ⟨hok, -, hbits⟩ := vbr_exact (show 2 ≤ 6 ∧ 6 ≤ 64 by decide) ⟨⟨#[0x7f, 0x00]⟩, 0⟩
  have hread := (hok 63 ⟨⟨#[0x7f, 0x00]⟩, 12⟩).mpr
    ⟨1, by decide, by decide, by decide, by decide, by decide +kernel, rfl⟩
  exact ⟨hread, hbits _ _ hread 1 0 (by decide) (by decide)⟩

end Read

end BlockStream
