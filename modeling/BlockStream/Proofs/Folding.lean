import BlockStream.Bits

namespace BlockStream.Vbr

section Fold

variable {x : Int64}

theorem toNat_fold_of_nonneg (h : 0 ≤ x.toInt) : (fold x).toNat = 2 * x.toInt.natAbs := by
  have hhigh := x.toInt_lt
  have hsign : ¬ x < 0 := fun hneg ↦ Int.not_lt.mpr h (Int64.lt_iff_toInt_lt.mp hneg)
  rw [fold, if_neg hsign]
  exact UInt64.toNat_ofNat_of_lt' (show 2 * x.toInt.natAbs < 2 ^ 64 by omega)

theorem toNat_fold_of_neg (h : x.toInt < 0) (hmin : x ≠ Int64.minValue) :
    (fold x).toNat = 2 * x.toInt.natAbs + 1 := by
  have hlow := x.le_toInt
  have hne : x.toInt ≠ -2 ^ 63 := fun heq ↦ hmin (Int64.toInt_inj.mp heq)
  have hsign : x < 0 := Int64.lt_iff_toInt_lt.mpr h
  rw [fold, if_pos hsign]
  exact UInt64.toNat_ofNat_of_lt' (show 2 * x.toInt.natAbs + 1 < 2 ^ 64 by omega)

theorem fold_minValue : fold Int64.minValue = 1 := rfl

end Fold

section Unfold

variable (v : UInt64)

theorem magnitude_ne_minValue : Int64.ofNat (v.toNat / 2) ≠ Int64.minValue := by
  intro h
  have hint := congrArg Int64.toInt h
  rw [Int64.toInt_ofNat_of_lt (by have := v.toNat_lt; omega), Int64.toInt_minValue] at hint
  omega

variable {v}

theorem toInt_unfold_of_even (h : v.toNat % 2 = 0) : (unfold v).toInt = (v.toNat / 2 : Nat) := by
  have hlt := v.toNat_lt
  rw [unfold, if_pos h]
  exact Int64.toInt_ofNat_of_lt (by omega)

theorem unfold_one : unfold 1 = Int64.minValue := rfl

theorem magnitude_ne_zero (h : v.toNat % 2 = 1) (hone : v ≠ 1) : v.toNat / 2 ≠ 0 := by
  intro hzero
  have hv : v.toNat = 1 := by omega
  exact hone (UInt64.toNat_inj.mp hv)

theorem toInt_unfold_of_odd (h : v.toNat % 2 = 1) (hone : v ≠ 1) :
    (unfold v).toInt = -((v.toNat / 2 : Nat) : Int) := by
  have hlt := v.toNat_lt
  rw [unfold, if_neg (by omega), if_neg (magnitude_ne_zero h hone)]
  exact Int64.toInt_neg_ofNat_of_le (by omega)

end Unfold

theorem unfold_fold (x : Int64) : unfold (fold x) = x := by
  by_cases hmin : x = Int64.minValue
  · rw [hmin, fold_minValue, unfold_one]
  rw [← Int64.toInt_inj]
  rcases Int.lt_or_le x.toInt 0 with hneg | hpos
  · have hfold := toNat_fold_of_neg hneg hmin
    have hone : fold x ≠ 1 := fun h ↦ by
      have hnat : (fold x).toNat = 1 := congrArg UInt64.toNat h
      omega
    rw [toInt_unfold_of_odd (by omega) hone, hfold]
    omega
  · have hfold := toNat_fold_of_nonneg hpos
    rw [toInt_unfold_of_even (by omega), hfold]
    omega

theorem fold_unfold (v : UInt64) : fold (unfold v) = v := by
  by_cases hone : v = 1
  · rw [hone, unfold_one, fold_minValue]
  rw [← UInt64.toNat_inj]
  rcases Nat.mod_two_eq_zero_or_one v.toNat with heven | hodd
  · have hunfold := toInt_unfold_of_even heven
    rw [toNat_fold_of_nonneg (by omega), hunfold]
    omega
  · have hunfold := toInt_unfold_of_odd hodd hone
    have hmagnitude := magnitude_ne_zero hodd hone
    have hlt := v.toNat_lt
    have hmin : unfold v ≠ Int64.minValue := fun h ↦ by
      rw [h, Int64.toInt_minValue] at hunfold
      omega
    rw [toNat_fold_of_neg (by omega) hmin, hunfold]
    omega

end BlockStream.Vbr
