import BucketOverflow.Binary64.Platform
import BucketOverflow.Proofs.Binary64.Arithmetic

/-! The exponential of the platform keeps order and is one at zero; the
logarithm of what a share leaves is never positive, and greater for half of the share. -/
namespace BucketOverflow.Binary64.Platform

variable {x y : Binary64} {j k : ℕ}

/-! Fixed-point arguments -/

theorem fixed_magnitude (a scale : ℕ) :
    a <<< (scale + fracBits - unitExp) >>> (unitExp - (scale + fracBits)) =
      a * 2 ^ scale / 2 ^ (unitExp - fracBits) := by
  rw [Nat.shiftLeft_eq, Nat.shiftRight_eq_div_pow]
  rcases Nat.le_total (unitExp - fracBits) scale with h | h
  · have hsplit : 2 ^ scale = 2 ^ (scale + fracBits - unitExp) * 2 ^ (unitExp - fracBits) := by
      rw [← pow_add]
      congr 1
      unfold unitExp fracBits at *
      omega
    rw [show unitExp - (scale + fracBits) = 0 by unfold unitExp fracBits at *; omega, hsplit,
      ← mul_assoc, Nat.mul_div_cancel _ (by positivity), pow_zero, Nat.div_one]
  · have hsplit : 2 ^ (unitExp - fracBits) = 2 ^ (unitExp - (scale + fracBits)) * 2 ^ scale := by
      rw [← pow_add]
      congr 1
      unfold unitExp fracBits at *
      omega
    rw [show scale + fracBits - unitExp = 0 by unfold unitExp fracBits at *; omega, hsplit,
      Nat.mul_div_mul_right _ _ (by positivity), pow_zero, mul_one]

theorem toFixed_eq (x : Binary64) : toFixed x =
    if x.isNeg then -((units x.mag / 2 ^ (unitExp - fracBits) : ℕ) : ℤ)
    else (units x.mag / 2 ^ (unitExp - fracBits) : ℕ) := by
  have h := fixed_magnitude x.signif x.scale
  rw [show x.signif * 2 ^ x.scale = units x.mag from (units_eq _).symm] at h
  simp only [toFixed, h]

theorem toFixed_mono (h : x.key ≤ y.key) : toFixed x ≤ toFixed y := by
  have hdiv {m n : ℕ} (hmn : m ≤ n) :
      units m / 2 ^ (unitExp - fracBits) ≤ units n / 2 ^ (unitExp - fracBits) :=
    Nat.div_le_div_right (units_strictMono.monotone hmn)
  rw [toFixed_eq, toFixed_eq]
  generalize unitExp - fracBits = s at *
  cases hx : x.isNeg <;> cases hy : y.isNeg <;>
    simp only [key_of_isNeg, key_of_not_isNeg, hx, hy] at h <;>
    simp only [Bool.false_eq_true, ↓reduceIte]
  · have := hdiv (show x.mag ≤ y.mag by omega)
    omega
  · have hm : x.mag = 0 := by omega
    have hn : y.mag = 0 := by omega
    simp [hm, hn]
  · exact (neg_nonpos.mpr (Int.natCast_nonneg _)).trans (Int.natCast_nonneg _)
  · have := hdiv (show y.mag ≤ x.mag by omega)
    omega

/-! The series of the exponential -/

theorem expSeries_mono {r r' : ℕ} (h : r ≤ r') (n k : ℕ) :
    expSeries r n k ≤ expSeries r' n k := by
  induction n generalizing k with
  | zero => exact le_rfl
  | succ n ih =>
    simp only [expSeries, Nat.shiftRight_eq_div_pow]
    have hmul := Nat.mul_le_mul h (ih (k + 1))
    exact Nat.add_le_add_left (Nat.div_le_div_right (Nat.div_le_div_right hmul)) _

theorem fixedOne_le_expSeries (r n k : ℕ) : fixedOne ≤ expSeries r n k := by
  cases n with
  | zero => exact le_rfl
  | succ n => exact Nat.le_add_right _ _

theorem ln2_pos : 0 < ln2 := by decide +kernel

/-- Below the logarithm of two the series stays within a factor of two. -/
theorem expSeries_le {r : ℕ} (h : r < ln2) : expSeries r 40 1 ≤ 2 * fixedOne :=
  (expSeries_mono (Nat.le_pred_of_lt h) 40 1).trans (by decide +kernel)

/-- The worth of the exponential of a fixed-point argument, before it is rounded. -/
def expWorth (t : ℤ) : ℚ :=
  expSeries (t % ln2).toNat 40 1 * 2 ^ (unitExp + t / ln2 - fracBits : ℤ)

theorem expWorth_nonneg (t : ℤ) : 0 ≤ expWorth t := by
  unfold expWorth
  positivity

theorem expWorth_mono {s t : ℤ} (h : s ≤ t) : expWorth s ≤ expWorth t := by
  have hln : (0 : ℤ) < ln2 := by exact_mod_cast ln2_pos
  have hs := Int.emod_add_mul_ediv s ln2
  have ht := Int.emod_add_mul_ediv t ln2
  have hs0 := Int.emod_nonneg s hln.ne'
  have ht0 := Int.emod_nonneg t hln.ne'
  have hs1 := Int.emod_lt_of_pos s hln
  have hk : s / ln2 ≤ t / ln2 := Int.ediv_le_ediv hln h
  unfold expWorth
  rcases hk.lt_or_eq with hlt | heq
  · -- a later period starts where the factor of two of an earlier one ends
    have hser : (expSeries (s % ln2).toNat 40 1 : ℚ) ≤ 2 * fixedOne := by
      exact_mod_cast expSeries_le (by omega)
    have hone : (fixedOne : ℚ) ≤ expSeries (t % ln2).toNat 40 1 := by
      exact_mod_cast fixedOne_le_expSeries _ _ _
    calc (expSeries (s % ln2).toNat 40 1 : ℚ) * 2 ^ (unitExp + s / ln2 - fracBits : ℤ)
        ≤ 2 * fixedOne * 2 ^ (unitExp + s / ln2 - fracBits : ℤ) := by gcongr
      _ = fixedOne * 2 ^ (unitExp + s / ln2 - fracBits + 1 : ℤ) := by
        rw [zpow_add_one₀ (by norm_num)]
        ring
      _ ≤ expSeries (t % ln2).toNat 40 1 * 2 ^ (unitExp + t / ln2 - fracBits : ℤ) := by
        gcongr
        · norm_num
        · omega
  · have hr : (s % ln2).toNat ≤ (t % ln2).toNat := by
      rw [heq] at hs
      omega
    have hser : (expSeries (s % ln2).toNat 40 1 : ℚ) ≤ expSeries (t % ln2).toNat 40 1 := by
      exact_mod_cast expSeries_mono hr 40 1
    rw [heq]
    gcongr

theorem expWorth_zero : expWorth 0 = 2 ^ unitExp := by
  have h : expSeries 0 40 1 = 2 ^ fracBits := by decide +kernel
  rw [expWorth, Int.zero_emod, Int.zero_ediv, Int.toNat_zero, h, add_zero, Nat.cast_pow,
    zpow_sub₀ (by norm_num), zpow_natCast, zpow_natCast]
  push_cast
  field_simp

/-! The exponential of a word -/

theorem exp_nan (hx : x.isNaN = true) : (exp x).isNaN = true := by
  rw [exp, if_pos hx]
  decide

theorem expLimit_isNeg : expLimit.isNeg = false := rfl

theorem expLimit_le_abs_iff (hx : x.isNaN = false) :
    expLimit ≤ x.abs ↔ (expLimit.mag : ℤ) ≤ x.mag := by
  rw [le_iff, key_of_not_isNeg expLimit_isNeg, key_of_not_isNeg (isNeg_abs x), mag_abs]
  simp [hx, isNaN_of_isFinite (show expLimit.isFinite = true from rfl)]

theorem exp_of_expLimit_le (hx : x.isNaN = false) (h : (expLimit.mag : ℤ) ≤ x.mag) :
    exp x = if x.isNeg then zero false else inf false := by
  simp [exp, hx, (expLimit_le_abs_iff hx).mpr h]

theorem exp_of_lt_expLimit (hx : x.isNaN = false) (h : ¬(expLimit.mag : ℤ) ≤ x.mag) :
    exp x = ofMag false (nearestMag (expWorth (toFixed x))) := by
  have hworth (E : ℕ) (lift : ℤ) : (E : ℚ) * 2 ^ lift.toNat / 2 ^ (fracBits + (-lift).toNat) =
      E * 2 ^ (lift - fracBits) := by
    rw [mul_div_assoc, ← zpow_natCast, ← zpow_natCast, ← zpow_sub₀ (by norm_num)]
    congr 2
    omega
  simp only [exp, hx, Bool.false_eq_true, ↓reduceIte, (expLimit_le_abs_iff hx).not.mpr h,
    nearestDyadic_eq, hworth, expWorth]

theorem isNeg_exp (hx : x.isNaN = false) : (exp x).isNeg = false := by
  by_cases h : (expLimit.mag : ℤ) ≤ x.mag
  · rw [exp_of_expLimit_le hx h]
    split_ifs <;> simp
  · rw [exp_of_lt_expLimit hx h]
    exact isNeg_ofMag _ ((nearestMag_le_infinite _).trans_lt infinite_lt)

theorem isNearest_exp (hx : x.isNaN = false) (h : ¬(expLimit.mag : ℤ) ≤ x.mag) :
    IsNearest (exp x) (expWorth (toFixed x)) := by
  rw [exp_of_lt_expLimit hx h]
  exact isNearest_ofMag false (expWorth_nonneg _)

theorem isNaN_exp (hx : x.isNaN = false) : (exp x).isNaN = false := by
  by_cases h : (expLimit.mag : ℤ) ≤ x.mag
  · rw [exp_of_expLimit_le hx h, isNaN_eq_false_iff]
    split_ifs <;> simp
  · exact (isNearest_exp hx h).not_nan

/-- The exponential keeps order. -/
theorem exp_mono (h : x ≤ y) : exp x ≤ exp y := by
  obtain ⟨hx, hy, hk⟩ := le_iff.mp h
  have hneg {z : Binary64} (hz : z.isNaN = false) : zero false ≤ exp z :=
    zero_le_of_not_isNeg (isNaN_exp hz) (isNeg_exp hz)
  by_cases hxl : (expLimit.mag : ℤ) ≤ x.mag
  · cases hxn : x.isNeg with
    | true =>
      rw [exp_of_expLimit_le hx hxl, hxn]
      exact hneg hy
    | false =>
      have hyn : y.isNeg = false := isNeg_of_key_pos (by
        rw [key_of_not_isNeg hxn] at hk
        have : 0 < expLimit.mag := by decide
        omega)
      rw [key_of_not_isNeg hxn, key_of_not_isNeg hyn] at hk
      rw [exp_of_expLimit_le hy (hxl.trans hk), hyn]
      exact le_infinity (isNaN_exp hx)
  · by_cases hyl : (expLimit.mag : ℤ) ≤ y.mag
    · cases hyn : y.isNeg with
      | true =>
        have hxn : x.isNeg = true := isNeg_of_key_neg (by
          rw [key_of_isNeg hyn] at hk
          have : 0 < expLimit.mag := by decide
          omega)
        rw [key_of_isNeg hxn, key_of_isNeg hyn] at hk
        omega
      | false =>
        rw [exp_of_expLimit_le hy hyl, hyn]
        exact le_infinity (isNaN_exp hx)
    · exact (isNearest_exp hx hxl).le (isNearest_exp hy hyl) (expWorth_mono (toFixed_mono hk))

/-- The exponential of zero is one. -/
theorem exp_zero : exp (zero false) = one := by
  have hz : (zero false).isNaN = false := isNaN_of_isFinite (isFinite_zero _)
  have hlim : ¬(expLimit.mag : ℤ) ≤ (zero false).mag := by
    rw [mag_zero]
    decide
  have h := isNearest_exp hz hlim
  rw [show toFixed (zero false) = 0 by simp [toFixed_eq], expWorth_zero, ← worth_one] at h
  exact h.eq_of_worth (isNaN_of_isFinite isFinite_one) (by rw [isNeg_exp hz, isNeg_one])

/-! The logarithm of what a share leaves -/

theorem isNeg_lnKeep (j : ℕ) : (lnKeep j).isNeg = true := by
  unfold lnKeep
  split_ifs
  · exact isNeg_inf _
  · exact isNeg_zero _
  · exact isNeg_ofMag _ (nearestDyadic_lt _ _ _)

theorem isNaN_lnKeep (j : ℕ) : (lnKeep j).isNaN = false := by
  rw [isNaN_eq_false_iff]
  unfold lnKeep
  split_ifs
  · simp
  · simp
  · rw [mag_ofMag _ (nearestDyadic_lt _ _ _)]
    exact nearest_le_infinite _ _ _

theorem keepSeries_eq (j : ℕ) : keepSeries j =
    ∑ i ∈ Finset.range (100 / j + 1), 2 ^ (128 - j * i) / (i + 1) := by
  have hsum (n : ℕ) :
      (List.range n).foldl (fun sum i => sum + (1 <<< (128 - j * i)) / (i + 1)) 0 =
        ∑ i ∈ Finset.range n, 2 ^ (128 - j * i) / (i + 1) := by
    induction n with
    | zero => rfl
    | succ n ih =>
      rw [List.range_succ, List.foldl_append, ih, Finset.sum_range_succ, List.foldl_cons,
        List.foldl_nil, Nat.shiftLeft_eq, one_mul]
  exact hsum _

/-- Of smaller shares the series has fewer terms, and smaller ones. -/
theorem keepSeries_anti (hj : 0 < j) (hjk : j ≤ k) : keepSeries k ≤ keepSeries j := by
  rw [keepSeries_eq, keepSeries_eq]
  calc ∑ i ∈ Finset.range (100 / k + 1), 2 ^ (128 - k * i) / (i + 1)
      ≤ ∑ i ∈ Finset.range (100 / k + 1), 2 ^ (128 - j * i) / (i + 1) := by
        apply Finset.sum_le_sum
        intro i _
        apply Nat.div_le_div_right
        apply Nat.pow_le_pow_right (by decide)
        exact Nat.sub_le_sub_left (Nat.mul_le_mul_right i hjk) _
    _ ≤ ∑ i ∈ Finset.range (100 / j + 1), 2 ^ (128 - j * i) / (i + 1) := by
        apply Finset.sum_le_sum_of_subset
        exact Finset.range_mono (Nat.succ_le_succ (Nat.div_le_div_left hjk hj))

theorem isNearest_lnKeep (hj : 0 < j) (hj' : j ≤ unitExp) :
    IsNearest (lnKeep j) (-(keepSeries j * 2 ^ unitExp / 2 ^ (128 + j))) := by
  have h := isNearest_ofMag true
    (show (0 : ℚ) ≤ keepSeries j * 2 ^ unitExp / 2 ^ (128 + j) by positivity)
  simpa [lnKeep, hj.ne', not_lt.mpr hj', nearestDyadic_eq] using h

/-- Half of a share leaves more than all of it. -/
theorem lnKeep_le_succ (j : ℕ) : lnKeep j ≤ lnKeep (j + 1) := by
  rcases Nat.eq_zero_or_pos j with rfl | hj
  · exact negInf_le (isNaN_lnKeep 1)
  by_cases hlast : unitExp < j + 1
  · have hnone : lnKeep (j + 1) = zero true := by simp [lnKeep, hlast]
    apply le_of_key (isNaN_lnKeep j) (isNaN_lnKeep (j + 1))
    rw [hnone, key_zero, key_of_isNeg (isNeg_lnKeep j)]
    omega
  · apply (isNearest_lnKeep hj (by omega)).le (isNearest_lnKeep j.succ_pos (by omega))
    have hseries : (keepSeries (j + 1) : ℚ) ≤ keepSeries j := by
      exact_mod_cast keepSeries_anti hj j.le_succ
    apply neg_le_neg_iff.mpr
    gcongr
    · norm_num
    · omega

end BucketOverflow.Binary64.Platform
