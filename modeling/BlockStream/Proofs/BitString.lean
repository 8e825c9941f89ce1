import BlockStream.Bits
import Mathlib.Algebra.Group.Nat.Defs

namespace BlockStream

def bitsAt (bytes : ByteArray) : (start length : Nat) → List Bool
  | _, 0 => []
  | start, length + 1 => bitAt bytes start :: bitsAt bytes (start + 1) length

def allBits (bytes : ByteArray) : List Bool := bitsAt bytes 0 (8 * bytes.size)

@[simp] theorem length_bitsAt (bytes : ByteArray) (start length : Nat) :
    (bitsAt bytes start length).length = length := by
  induction length generalizing start with
  | zero => rfl
  | succ length ih => simp [bitsAt, ih]

theorem getElem_bitsAt (bytes : ByteArray) (start length i : Nat)
    (h : i < (bitsAt bytes start length).length) :
    (bitsAt bytes start length)[i] = bitAt bytes (start + i) := by
  induction length generalizing start i with
  | zero => simp [bitsAt] at h
  | succ length ih =>
    cases i with
    | zero => rfl
    | succ i =>
      simp only [bitsAt, List.getElem_cons_succ]
      rw [ih, Nat.add_assoc, Nat.add_comm 1 i]

theorem getElem_bitsOf (width value i : Nat) (h : i < (bitsOf width value).length) :
    (bitsOf width value)[i] = value.testBit i := by
  induction width generalizing value i with
  | zero => simp [bitsOf] at h
  | succ width ih =>
    cases i with
    | zero =>
      simp only [bitsOf, List.getElem_cons_zero, Nat.testBit_zero]
      rfl
    | succ i =>
      simp only [bitsOf, List.getElem_cons_succ]
      rw [ih, Nat.testBit_succ]

theorem bitsAt_add (bytes : ByteArray) (start m n : Nat) :
    bitsAt bytes start (m + n) = bitsAt bytes start m ++ bitsAt bytes (start + m) n := by
  induction m generalizing start with
  | zero => simp [bitsAt]
  | succ m ih =>
    rw [Nat.succ_add, bitsAt, ih, bitsAt, List.cons_append, Nat.add_assoc, Nat.add_comm 1 m]

theorem bitsAt_congr {x y : ByteArray} {p q n : Nat}
    (h : ∀ i < n, bitAt x (p + i) = bitAt y (q + i)) : bitsAt x p n = bitsAt y q n := by
  apply List.ext_getElem (by simp)
  intro i hx hy
  rw [getElem_bitsAt, getElem_bitsAt]
  exact h i (by simpa using hx)

theorem bitsOf_fieldAt (bytes : ByteArray) (start width : Nat) :
    bitsOf width (fieldAt bytes start width) = bitsAt bytes start width := by
  apply List.ext_getElem (by simp [length_bitsOf])
  intro i hx hy
  rw [length_bitsOf] at hx
  rw [getElem_bitsOf, getElem_bitsAt, testBit_fieldAt]
  simp [hx]

theorem eq_of_bitsOf_eq {width v w : Nat} (h : bitsOf width v = bitsOf width w)
    (hv : v < 2 ^ width) (hw : w < 2 ^ width) : v = w := by
  apply Nat.eq_of_testBit_eq
  intro i
  by_cases hi : i < width
  · have hget := List.getElem_of_eq h (by simpa [length_bitsOf] using hi)
    rwa [getElem_bitsOf, getElem_bitsOf] at hget
  · have hpow : 2 ^ width ≤ 2 ^ i := Nat.pow_le_pow_right Nat.two_pos (Nat.not_lt.mp hi)
    rw [Nat.testBit_lt_two_pow (Nat.lt_of_lt_of_le hv hpow),
      Nat.testBit_lt_two_pow (Nat.lt_of_lt_of_le hw hpow)]

theorem length_flatMap_bitsOf (width : Nat) (values : List Nat) :
    (values.flatMap (bitsOf width)).length = values.length * width := by
  induction values with
  | nil => simp
  | cons value values ih =>
    rw [List.flatMap_cons, List.length_append, length_bitsOf, ih, List.length_cons, Nat.succ_mul,
      Nat.add_comm]

theorem eq_of_flatMap_bitsOf {width : Nat} (hw : 0 < width) {xs ys : List Nat}
    (hxs : ∀ x ∈ xs, x < 2 ^ width) (hys : ∀ y ∈ ys, y < 2 ^ width)
    (h : xs.flatMap (bitsOf width) = ys.flatMap (bitsOf width)) : xs = ys := by
  have hlen := congrArg List.length h
  rw [length_flatMap_bitsOf, length_flatMap_bitsOf] at hlen
  replace hlen := Nat.eq_of_mul_eq_mul_right hw hlen
  induction xs generalizing ys with
  | nil => exact (List.length_eq_zero_iff.mp hlen.symm).symm
  | cons x xs ih =>
    cases ys with
    | nil => cases hlen
    | cons y ys =>
      obtain ⟨hfirst, hrest⟩ := List.append_inj h (by rw [length_bitsOf, length_bitsOf])
      rw [eq_of_bitsOf_eq hfirst (hxs x List.mem_cons_self) (hys y List.mem_cons_self),
        ih (fun z hz ↦ hxs z (List.mem_cons_of_mem _ hz))
          (fun z hz ↦ hys z (List.mem_cons_of_mem _ hz)) hrest (Nat.succ.inj hlen)]

theorem bitsOf_mod (width value : Nat) : bitsOf width (value % 2 ^ width) = bitsOf width value := by
  apply List.ext_getElem (by simp [length_bitsOf])
  intro i hx hy
  rw [length_bitsOf] at hy
  rw [getElem_bitsOf, getElem_bitsOf, Nat.testBit_mod_two_pow, decide_eq_true hy, Bool.true_and]

theorem stretch_add (f : Nat → Bool) (start m n i : Nat) :
    (decide (start ≤ i ∧ i < start + (m + n)) && f (i - start)) =
      ((decide (start ≤ i ∧ i < start + m) && f (i - start)) ||
        (decide (start + m ≤ i ∧ i < start + m + n) && f (m + (i - (start + m))))) := by
  rcases Nat.lt_or_ge i (start + m) with hlt | hge
  · have hin : (start ≤ i ∧ i < start + (m + n)) ↔ (start ≤ i ∧ i < start + m) := by omega
    have hnot : ¬ (start + m ≤ i ∧ i < start + m + n) := by omega
    rw [decide_eq_decide.mpr hin, decide_eq_false hnot, Bool.false_and, Bool.or_false]
  · have hin : (start ≤ i ∧ i < start + (m + n)) ↔
        (start + m ≤ i ∧ i < start + m + n) := by omega
    have hnot : ¬ (start ≤ i ∧ i < start + m) := by omega
    have hplace : m + (i - (start + m)) = i - start := by omega
    rw [decide_eq_decide.mpr hin, decide_eq_false hnot, hplace, Bool.false_and, Bool.false_or]

theorem fieldAt_lt (bytes : ByteArray) (start width : Nat) :
    fieldAt bytes start width < 2 ^ width := by
  apply Nat.lt_pow_two_of_testBit
  intro i hi
  simp [testBit_fieldAt, Nat.not_lt.mpr hi]

theorem fieldAt_mod (bytes : ByteArray) (start low high : Nat) :
    fieldAt bytes start (low + high) % 2 ^ low = fieldAt bytes start low := by
  apply Nat.eq_of_testBit_eq
  intro i
  have hin : (i < low ∧ i < low + high) ↔ i < low := by omega
  rw [Nat.testBit_mod_two_pow, testBit_fieldAt, testBit_fieldAt, ← Bool.and_assoc,
    ← Bool.decide_and, decide_eq_decide.mpr hin]

theorem fieldAt_div (bytes : ByteArray) (start low high : Nat) :
    fieldAt bytes start (low + high) / 2 ^ low = fieldAt bytes (start + low) high := by
  apply Nat.eq_of_testBit_eq
  intro i
  have hin : i + low < low + high ↔ i < high := by omega
  have hplace : start + (i + low) = start + low + i := by omega
  rw [Nat.testBit_div_two_pow, testBit_fieldAt, testBit_fieldAt, decide_eq_decide.mpr hin, hplace]

theorem fieldAt_of_bitsAt {bytes : ByteArray} {start width v : Nat}
    (h : bitsAt bytes start width = bitsOf width v) (hv : v < 2 ^ width) :
    fieldAt bytes start width = v :=
  eq_of_bitsOf_eq ((bitsOf_fieldAt ..).trans h) (fieldAt_lt ..) hv

theorem eq_of_bitAt {x y : ByteArray} (hs : x.size = y.size)
    (h : ∀ i < 8 * x.size, bitAt x i = bitAt y i) : x = y := by
  apply ByteArray.ext_getElem hs
  intro i hx hy
  apply UInt8.toNat_inj.mp
  apply Nat.eq_of_testBit_eq
  intro j
  by_cases hj : j < 8
  · have hbit := h (8 * i + j) (by omega)
    have hdiv : (8 * i + j) / 8 = i := by omega
    have hmod : (8 * i + j) % 8 = j := by omega
    simpa [bitAt, hdiv, hmod, hx, hy] using hbit
  · have hbyte (b : UInt8) : b.toNat.testBit j = false :=
      Nat.testBit_lt_two_pow (Nat.lt_of_lt_of_le b.toNat_lt
        (Nat.pow_le_pow_right Nat.two_pos (Nat.not_lt.mp hj)))
    rw [hbyte, hbyte]

theorem eq_of_allBits {x y : ByteArray} (h : allBits x = allBits y) : x = y := by
  have hsize := congrArg List.length h
  simp only [allBits, length_bitsAt] at hsize
  refine eq_of_bitAt (by omega) fun i hi ↦ ?_
  have hget := List.getElem_of_eq h (i := i) (by simpa [allBits] using hi)
  simpa [allBits, getElem_bitsAt] using hget

theorem bitAt_append_right (x y : ByteArray) (i : Nat) :
    bitAt (x ++ y) (8 * x.size + i) = bitAt y i := by
  have hdiv : (8 * x.size + i) / 8 = x.size + i / 8 := by omega
  have hmod : (8 * x.size + i) % 8 = i % 8 := by omega
  simp only [bitAt, hdiv, hmod, ByteArray.size_append, Nat.add_lt_add_iff_left]
  split
  · rw [ByteArray.getElem_append_right (by omega)]
    simp
  · rfl

theorem bitAt_append_left {x : ByteArray} (y : ByteArray) {i : Nat} (h : i < 8 * x.size) :
    bitAt (x ++ y) i = bitAt x i := by
  have hx : i / 8 < x.size := by omega
  have hxy : i / 8 < (x ++ y).size := by rw [ByteArray.size_append]; omega
  rw [bitAt, bitAt, dif_pos hx, dif_pos hxy, ByteArray.getElem_append_left hx]

theorem bitAt_extract {bytes : ByteArray} {start stop i : Nat} (hstop : stop ≤ bytes.size)
    (hi : 8 * start + i < 8 * stop) :
    bitAt (bytes.extract start stop) i = bitAt bytes (8 * start + i) := by
  have hdiv : (8 * start + i) / 8 = start + i / 8 := by omega
  have hmod : (8 * start + i) % 8 = i % 8 := by omega
  have hin : i / 8 < (bytes.extract start stop).size := by
    rw [ByteArray.size_extract]
    omega
  rw [bitAt, bitAt, hdiv, hmod, dif_pos hin, dif_pos (by omega), ByteArray.getElem_extract]

theorem bitsAt_byte {bytes : ByteArray} {k : Nat} (h : k < bytes.size) :
    bitsAt bytes (8 * k) 8 = bitsOf 8 bytes[k].toNat := by
  apply List.ext_getElem (by simp [length_bitsOf])
  intro i hx hy
  rw [length_bitsAt] at hx
  have hdiv : (8 * k + i) / 8 = k := by omega
  have hmod : (8 * k + i) % 8 = i := by omega
  rw [getElem_bitsAt, getElem_bitsOf]
  simp [bitAt, hdiv, hmod, h]

theorem getElem?_eq_of_bitAt {x y : ByteArray} {n : Nat} (hx : n < x.size) (hy : n < y.size)
    (h : ∀ i, 8 * n ≤ i → i < 8 * (n + 1) → bitAt x i = bitAt y i) : x.data[n]? = y.data[n]? := by
  have hbits : bitsAt x (8 * n) 8 = bitsAt y (8 * n) 8 :=
    bitsAt_congr fun i hi ↦ h _ (Nat.le_add_right ..) (by omega)
  rw [bitsAt_byte hx, bitsAt_byte hy] at hbits
  have hbyte := eq_of_bitsOf_eq hbits x[n].toNat_lt y[n].toNat_lt
  rw [Array.getElem?_eq_getElem hx, Array.getElem?_eq_getElem hy]
  exact congrArg some (UInt8.toNat_inj.mp hbyte)

theorem allBits_eq_flatMap (bytes : ByteArray) :
    allBits bytes = bytes.data.toList.flatMap fun x ↦ bitsOf 8 x.toNat := by
  have hfront (k : Nat) (hk : k ≤ bytes.size) : bitsAt bytes 0 (8 * k) =
      (bytes.data.toList.take k).flatMap fun x ↦ bitsOf 8 x.toNat := by
    induction k with
    | zero => rfl
    | succ k ih =>
      have hlt : k < bytes.data.toList.length := hk
      rw [Nat.mul_succ, bitsAt_add, ih (Nat.le_of_succ_le hk), Nat.zero_add, bitsAt_byte hk,
        List.take_succ_eq_append_getElem hlt, List.flatMap_append]
      simp [ByteArray.getElem_eq_getElem_data]
  rw [allBits, hfront _ (Nat.le_refl _), List.take_of_length_le (by simp)]

theorem allBits_append (x y : ByteArray) : allBits (x ++ y) = allBits x ++ allBits y := by
  simp [allBits_eq_flatMap]

theorem append_left_cancel {x y z : ByteArray} (h : x ++ y = x ++ z) : y = z := by
  have hdata := congrArg ByteArray.data h
  rw [ByteArray.data_append, ByteArray.data_append] at hdata
  exact ByteArray.ext ((Array.append_right_inj _).mp hdata)

theorem eq_append_of_extract {bytes x : ByteArray} (h : bytes.extract 0 x.size = x) :
    bytes = x ++ bytes.extract x.size bytes.size := by
  have hsize : x.size ≤ bytes.size := by
    have := congrArg ByteArray.size h
    rw [ByteArray.size_extract] at this
    omega
  calc bytes = bytes.extract 0 bytes.size := ByteArray.extract_zero_size.symm
    _ = bytes.extract 0 x.size ++ bytes.extract x.size bytes.size :=
      ByteArray.extract_eq_extract_append_extract _ (Nat.zero_le _) hsize
    _ = x ++ bytes.extract x.size bytes.size := by rw [h]

/-- A byte string whose bits begin with those of another begins with that. -/
theorem exists_append_of_allBits {bytes x : ByteArray} {ys : List Bool}
    (h : allBits bytes = allBits x ++ ys) : ∃ y, bytes = x ++ y ∧ allBits y = ys := by
  have hsize : x.size ≤ bytes.size := by
    have := congrArg List.length h
    simp only [allBits, List.length_append, length_bitsAt] at this
    omega
  have hfront : bytes.extract 0 x.size = x := by
    apply eq_of_bitAt (by rw [ByteArray.size_extract]; omega)
    intro i hi
    rw [ByteArray.size_extract] at hi
    have hget := List.getElem_of_eq h (i := i) (by simp [allBits]; omega)
    rw [List.getElem_append_left (by simp [allBits]; omega)] at hget
    rw [bitAt_extract hsize (by omega)]
    simpa [allBits, getElem_bitsAt] using hget
  refine ⟨_, eq_append_of_extract hfront, ?_⟩
  rw [eq_append_of_extract hfront, allBits_append] at h
  exact List.append_cancel_left h

/-- Clear bits from a position up to the next multiple of 32. -/
def padding (pos : Nat) : List Bool := bitsOf ((32 - pos % 32) % 32) 0

theorem padding_aligned (pos : Nat) : (pos + (padding pos).length) % 32 = 0 := by
  rw [padding, length_bitsOf]
  omega

theorem length_padding_lt (pos : Nat) : (padding pos).length < 32 := by
  rw [padding, length_bitsOf]
  exact Nat.mod_lt _ (by decide)

theorem padding_congr {p q : Nat} (h : p % 32 = q % 32) : padding p = padding q := by
  rw [padding, padding, h]

theorem padding_of_aligned {pos : Nat} (h : pos % 32 = 0) : padding pos = [] := by
  rw [padding, h]
  rfl

end BlockStream
