import BucketOverflow.Proofs.Sweep.Estimate

/-! One arrival term, at any depth and for any number of trials. The chance of missing half of a
share is at least that of missing all of it, in words too, so the clamp is there for the terms
without trials alone, where a chance may be no number. -/
namespace BucketOverflow
open Binary64

namespace Binary64

variable {x y z : Binary64}

/-- Positive factors keep the order of what is not positive, infinities included. -/
theorem mul_le_mul_of_isNeg (hx : x.isFinite = true) (hxn : x.isNeg = false) (hx0 : x.mag ≠ 0)
    (hyn : y.isNeg = true) (hzn : z.isNeg = true) (h : y ≤ z) : x * y ≤ x * z := by
  obtain ⟨hy, hz, hkey⟩ := le_iff.mp h
  by_cases hinf : y.isInf = true
  · rw [mul_negInf hx hxn hx0 hinf hyn]
    exact negInf_le (le_iff.mp (mul_le_zero hx hxn hx0 hz hzn)).1
  · have hyf := isFinite_of_not_isInf hy hinf
    have hzf : z.isFinite = true := by
      rw [key_of_isNeg hyn, key_of_isNeg hzn] at hkey
      have := isFinite_iff.mp hyf
      exact isFinite_iff.mpr (by omega)
    apply (isNearest_mul hx hyf).le (isNearest_mul hx hzf)
    apply div_le_div_of_nonneg_right _ (by positivity)
    exact mul_le_mul_of_nonneg_left (worth_le_worth h) (worth_nonneg hxn)

/-! Shares -/

theorem isFinite_twoPowNeg (d : ℕ) : (twoPowNeg d).isFinite = true := by
  by_cases hd : unitExp < d
  · simp [twoPowNeg, hd]
  · exact (fits_twoPowNeg (not_lt.mp hd)).finite

/-- The share of a depth is no more than the power, and nothing where the power has no word. -/
theorem worth_twoPowNeg_mul_le (d : ℕ) : (twoPowNeg d).worth * 2 ^ d ≤ 2 ^ unitExp := by
  by_cases hd : unitExp < d
  · have hnone : twoPowNeg d = zero false := by simp [twoPowNeg, hd]
    rw [hnone, worth_zero, zero_mul]
    positivity
  · rw [worth_twoPowNeg (not_lt.mp hd), ← pow_add, Nat.sub_add_cancel (not_lt.mp hd)]

/-- A word without sign that is at most the share of a depth, and at most the power `2 ^ -d` where
that has no word of its own. -/
structure InShare (x : Binary64) (d : ℕ) : Prop where
  not_nan : x.isNaN = false
  not_neg : x.isNeg = false
  le_share : x ≤ twoPowNeg d
  worth_le : x.worth * 2 ^ d ≤ 2 ^ unitExp

/-- A part of a share is in the share. -/
theorem InUnit.inShare (h : InUnit x) (d : ℕ) : InShare (twoPowNeg d * x) d := by
  have hfin := isFinite_twoPowNeg d
  have hmul := isNearest_mul hfin h.fits.finite
  have hle : twoPowNeg d * x ≤ twoPowNeg d := by
    apply hmul.le_word (isNaN_of_isFinite hfin)
    rw [div_le_iff₀ (by positivity)]
    have hone : x.worth ≤ 2 ^ unitExp := by simpa using h.fits.worth_le
    exact mul_le_mul_of_nonneg_left hone (worth_nonneg (isNeg_twoPowNeg d))
  refine ⟨hmul.not_nan, ?_, hle, ?_⟩
  · rw [isNeg_mul hfin h.fits.finite, isNeg_twoPowNeg, h.not_neg]
    rfl
  · calc (twoPowNeg d * x).worth * 2 ^ d ≤ (twoPowNeg d).worth * 2 ^ d :=
          mul_le_mul_of_nonneg_right (worth_le_worth hle) (by positivity)
      _ ≤ 2 ^ unitExp := worth_twoPowNeg_mul_le d

end Binary64

/-! Chances -/

variable {trials : Binary64} {depth hops paths : ℕ}

/-- What is not less than what is taken from it leaves nothing to clamp. -/
theorem max_sub_of_le {x y : Binary64} (hx : InUnit x) (hy : InUnit y) (h : y ≤ x) :
    max (x - y) (zero false) = x - y := by
  have hsub := isNearest_sub hx.fits.finite hy.fits.finite
  apply max_zero_of_not_lt hsub.not_nan
  have hzero : zero false ≤ x - y := by
    apply hsub.word_le (isNaN_of_isFinite (isFinite_zero _))
    rw [worth_zero]
    linarith [worth_le_worth h]
  exact fun hlt => absurd (key_le hzero) (not_le.mpr (lt_iff.mp hlt).2.2)

/-- There are no trials, or at least one. -/
theorem trials_cases (hh : hops < 2 ^ 32) (hp : paths < 2 ^ 64) :
    ofNat hops * ofNat paths = zero false ∨
      (ofNat hops * ofNat paths).isFinite = true ∧ one ≤ ofNat hops * ofNat paths := by
  have hfh : Fits (ofNat hops) 1 (32 + unitExp) := fits_ofNat (by omega) (by decide) (by decide)
  have hfp : Fits (ofNat paths) 1 (64 + unitExp) := fits_ofNat (by omega) (by decide) (by decide)
  have hnone : (ofNat 0).worth = 0 := by simpa using worth_ofNat (Nat.zero_le _)
  have hzero (h : (ofNat hops).worth * (ofNat paths).worth = 0) :
      ofNat hops * ofNat paths = zero false := by
    rw [mul_eq_zero_of_worth hfh.finite hfp.finite h, isNeg_ofNat, isNeg_ofNat]
    rfl
  rcases Nat.eq_zero_or_pos hops with rfl | hh0
  · exact .inl (hzero (by rw [hnone, zero_mul]))
  rcases Nat.eq_zero_or_pos paths with rfl | hp0
  · exact .inl (hzero (by rw [hnone, mul_zero]))
  · exact .inr (trials_bounds hh0 hh hp0 hp)

section Library

variable [MathLibrary]

/-- The chance of missing a share of `2 ^ -j` in every trial. -/
def survival (j : ℕ) (trials : Binary64) : Binary64 := exp (trials * lnKeep j)

theorem arrivalProbability_eq (depth hops paths : ℕ) : arrivalProbability depth hops paths =
    twoPowNeg depth * max (survival (depth + 1) (ofNat hops * ofNat paths) -
      survival depth (ofNat hops * ofNat paths)) (zero false) := rfl

variable [LawfulMathLibrary]

/-- Half of a share is missed at least as often as all of it. -/
theorem survival_le_succ (ht : trials.isFinite = true) (h1 : one ≤ trials) (j : ℕ) :
    survival j trials ≤ survival (j + 1) trials := by
  have hkey := key_le h1
  rw [key_of_not_isNeg isNeg_one] at hkey
  have hpos : 0 < one.mag := by decide
  apply exp_mono
  apply mul_le_mul_of_isNeg ht (isNeg_of_key_pos (by omega)) (mag_ne_zero_of_one_le h1)
    (isNeg_lnKeep j) (isNeg_lnKeep (j + 1)) (lnKeep_le_succ j)

/-- Without trials every share but the whole is missed for certain. -/
theorem survival_no_trials {j : ℕ} (hj : 0 < j) : survival j (zero false) = one := by
  have hzero := mul_eq_zero_of_worth (isFinite_zero false) (isFinite_lnKeep hj)
    (by rw [worth_zero, zero_mul])
  rw [isNeg_zero, isNeg_lnKeep] at hzero
  rw [survival, hzero]
  exact exp_of_isZero rfl

/-- What is clamped is a unit value, also where the chance of missing the whole is no number. -/
theorem inUnit_clamped (j : ℕ)
    (ht : trials = zero false ∨ trials.isFinite = true ∧ one ≤ trials) :
    InUnit (max (survival (j + 1) trials - survival j trials) (zero false)) := by
  rcases ht with rfl | ⟨hfin, h1⟩
  · rcases Nat.eq_zero_or_pos j with rfl | hj
    · -- without trials the chance of missing the whole is no number
      have hnan : (survival 0 (zero false)).isNaN = true := by
        apply exp_nan
        rw [lnKeep_zero]
        decide
      have hsub : (survival (0 + 1) (zero false) - survival 0 (zero false)).isNaN = true := by
        by_contra h
        have hnot := (not_nan_of_sub (Bool.not_eq_true _ ▸ h)).2
        rw [hnan] at hnot
        cases hnot
      simpa only [Binary64.max, hsub, ↓reduceIte] using inUnit_zero
    · rw [survival_no_trials j.succ_pos, survival_no_trials hj]
      exact inUnit_one.max_sub inUnit_one
  · exact (inUnit_survival hfin h1 (j + 1)).max_sub (inUnit_survival hfin h1 j)

/-- A term is a number without sign in the share of its depth, for any depth and any trials. Where
there are trials, half of the share is missed at least as often as all of it, and the clamp changes
nothing. -/
theorem arrivalProbability_inShare (depth hops : UInt32) (paths : UInt64) :
    InShare (arrivalProbability depth.toNat hops.toNat paths.toNat) depth.toNat ∧
      (0 < hops → 0 < paths →
        survival depth.toNat (ofNat hops.toNat * ofNat paths.toNat) ≤
          survival (depth.toNat + 1) (ofNat hops.toNat * ofNat paths.toNat) ∧
        arrivalProbability depth.toNat hops.toNat paths.toNat = twoPowNeg depth.toNat *
          (survival (depth.toNat + 1) (ofNat hops.toNat * ofNat paths.toNat) -
            survival depth.toNat (ofNat hops.toNat * ofNat paths.toNat))) := by
  rw [arrivalProbability_eq]
  constructor
  · exact (inUnit_clamped _ (trials_cases hops.toNat_lt paths.toNat_lt)).inShare _
  · intro hh hp
    obtain ⟨hfin, h1⟩ := trials_bounds (UInt32.lt_iff_toNat_lt.mp hh) hops.toNat_lt
      (UInt64.lt_iff_toNat_lt.mp hp) paths.toNat_lt
    have hle := survival_le_succ hfin h1 depth.toNat
    refine ⟨hle, ?_⟩
    have hclamp := max_sub_of_le (inUnit_survival hfin h1 (depth.toNat + 1))
      (inUnit_survival hfin h1 depth.toNat) hle
    exact congrArg (twoPowNeg depth.toNat * ·) hclamp

end Library

/-- The most trials, at the whole and at the last share that is a word. -/
theorem arrivalProbability_inShare_most :
    (0 : UInt32) < 0xffffffff ∧ (0 : UInt64) < 0xffffffffffffffff ∧
    InShare (arrivalProbability 0 0xffffffff 0xffffffffffffffff) 0 ∧
    arrivalProbability 1074 0xffffffff 0xffffffffffffffff = twoPowNeg 1074 *
      (survival 1075 (ofNat 0xffffffff * ofNat 0xffffffffffffffff) -
        survival 1074 (ofNat 0xffffffff * ofNat 0xffffffffffffffff)) :=
  ⟨by decide, by decide, (arrivalProbability_inShare 0 0xffffffff 0xffffffffffffffff).1,
    ((arrivalProbability_inShare 1074 0xffffffff 0xffffffffffffffff).2 (by decide) (by decide)).2⟩

end BucketOverflow
