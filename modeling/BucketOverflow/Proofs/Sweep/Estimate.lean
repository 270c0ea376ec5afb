import BucketOverflow.Overflow
import BucketOverflow.Proofs.Sweep.Load

/-! The overflow bound of one load. Every step of the exponent stays finite and without sign, so
the estimate is a unit value, and below the capacity it grows with the load. -/
namespace BucketOverflow
open Binary64

namespace Binary64

variable {x y : Binary64}

theorem neg_le_neg (h : x ≤ y) : -y ≤ -x := by
  obtain ⟨hx, hy, hk⟩ := le_iff.mp h
  exact le_of_key (by simpa using hy) (by simpa using hx) (by simpa using hk)

theorem neg_le_zero (hx : x.isNaN = false) (hn : x.isNeg = false) : -x ≤ zero false := by
  rw [le_zero_iff]
  simp [hx, hn]

/-- A square does not see the sign. -/
theorem mul_self_eq (hx : x.isFinite = true) : x * x = x.abs * x.abs := by
  have ha : x.abs.isFinite = true := by simpa using hx
  rw [mul_of_isFinite hx hx, mul_of_isFinite ha ha]
  simp

end Binary64

theorem Regime.lookup_name (r : Regime) : Regime.known.lookup r.name = some r := by
  cases r <;> rfl

variable {capacity : ℕ} {load load' : Binary64}

/-- A positive capacity is a finite word from one on. -/
theorem fits_capacity (hc : capacity < 2 ^ 64) : Fits (ofNat capacity) 1 (96 + unitExp) :=
  fits_ofNat (hc.le.trans (by decide)) (by decide) (by decide)

theorem fits_abs_gap (hc : capacity < 2 ^ 64) (hl : Fits load 1 (96 + unitExp)) :
    Fits (ofNat capacity - load).abs 1 (96 + unitExp) := by
  have hcap := fits_capacity hc
  apply (isNearest_sub hcap.finite hl.finite).abs.fits (isNeg_abs _) (by decide) (by decide)
  rw [abs_le]
  constructor <;> linarith [hcap.worth_le, hcap.worth_nonneg, hl.worth_le, hl.worth_nonneg]

theorem fits_square_gap (hc : capacity < 2 ^ 64) (hl : Fits load 1 (96 + unitExp)) :
    Fits ((ofNat capacity - load) * (ofNat capacity - load)) 1 (192 + unitExp) := by
  have hgap := fits_abs_gap hc hl
  rw [mul_self_eq (by simpa using hgap.finite)]
  exact hgap.mul hgap (by decide) (by decide) (by decide)

/-- Capacity and load add up to a finite word from one on. -/
theorem sum_bounds (hc0 : 0 < capacity) (hc : capacity < 2 ^ 64)
    (hl : Fits load 1 (96 + unitExp)) :
    Fits (ofNat capacity + load) (1 + 1) (96 + unitExp) ∧ one ≤ ofNat capacity + load := by
  have hcap := fits_capacity hc
  refine ⟨hcap.add hl (by decide) (by decide), ?_⟩
  apply (isNearest_add hcap.finite hl.finite).word_le (isNaN_of_isFinite isFinite_one)
  have := worth_le_worth (one_le_ofNat hc0)
  linarith [hl.worth_nonneg]

theorem mag_ne_zero_of_one_le (h : one ≤ load) : load.mag ≠ 0 := by
  have hk := key_le h
  rw [key_of_not_isNeg isNeg_one] at hk
  have hpos : 0 < one.mag := by decide
  have := natAbs_key load
  omega

theorem fits_chernoffExponent (hc0 : 0 < capacity) (hc : capacity < 2 ^ 64)
    (hl : Fits load 1 (96 + unitExp)) :
    Fits (chernoffExponent (ofNat capacity) load) 1 (192 + unitExp) := by
  have hsq := fits_square_gap hc hl
  obtain ⟨hsum, h1⟩ := sum_bounds hc0 hc hl
  have h0 := mag_ne_zero_of_one_le h1
  have hw := worth_le_worth h1
  rw [worth_one] at hw
  apply (isNearest_div hsq.finite hsum.finite h0).fits _ (by decide) (by decide)
  · have hpos : 0 < (ofNat capacity + load).worth := lt_of_lt_of_le (by positivity) hw
    rw [div_le_iff₀ hpos]
    exact mul_le_mul hsq.worth_le hw (by positivity) (hsq.worth_nonneg.trans hsq.worth_le)
  · rw [isNeg_div hsq.finite hsum.finite h0, hsq.not_neg, hsum.not_neg]
    rfl

/-- Below the capacity the exponent falls as the load grows. -/
theorem chernoffExponent_anti (hc0 : 0 < capacity) (hc : capacity < 2 ^ 64)
    (hl : Fits load 1 (96 + unitExp)) (hl' : Fits load' 1 (96 + unitExp)) (hll : load ≤ load')
    (hlc : load' < ofNat capacity) :
    chernoffExponent (ofNat capacity) load' ≤ chernoffExponent (ofNat capacity) load := by
  have hcap := fits_capacity hc
  have hw := worth_le_worth hll
  have hlt : load'.worth < (ofNat capacity).worth := worthAt_lt_iff.mpr (lt_iff.mp hlc).2.2
  have hgap := isNearest_sub hcap.finite hl.finite
  have hgap' := isNearest_sub hcap.finite hl'.finite
  have hfin : (ofNat capacity - load).isFinite = true := by
    simpa using (fits_abs_gap hc hl).finite
  have hfin' : (ofNat capacity - load').isFinite = true := by
    simpa using (fits_abs_gap hc hl').finite
  have hpos : 0 ≤ (ofNat capacity - load').worth := by
    have hz : (zero false).worth ≤ (ofNat capacity - load').worth :=
      worth_le_worth (hgap'.word_le (isNaN_of_isFinite (isFinite_zero _))
        (by rw [worth_zero]; linarith))
    rwa [worth_zero] at hz
  have hle : (ofNat capacity - load').worth ≤ (ofNat capacity - load).worth :=
    worth_le_worth (hgap'.le hgap (by linarith))
  have hsq := worth_le_worth ((isNearest_mul hfin' hfin').le (isNearest_mul hfin hfin)
    (div_le_div_of_nonneg_right (mul_le_mul hle hle hpos (hpos.trans hle)) (by positivity)))
  have hsum := worth_le_worth ((isNearest_add hcap.finite hl.finite).le
    (isNearest_add hcap.finite hl'.finite) (by linarith))
  obtain ⟨hs, h1⟩ := sum_bounds hc0 hc hl
  obtain ⟨hs', h1'⟩ := sum_bounds hc0 hc hl'
  have hone := worth_le_worth h1
  rw [worth_one] at hone
  have hq := fits_square_gap hc hl
  have hq' := fits_square_gap hc hl'
  apply (isNearest_div hq'.finite hs'.finite (mag_ne_zero_of_one_le h1')).le
    (isNearest_div hq.finite hs.finite (mag_ne_zero_of_one_le h1))
  exact div_le_div₀ (mul_nonneg hq.worth_nonneg (by positivity))
    (mul_le_mul_of_nonneg_right hsq (by positivity)) (lt_of_lt_of_le (by positivity) hone) hsum

/-! Regimes -/

/-- A word without sign that is not above zero is zero. -/
theorem le_zero_iff_eq (hl : load.isNaN = false) (hn : load.isNeg = false) :
    load ≤ zero false ↔ load = zero false := by
  rw [le_zero_iff]
  constructor
  · rintro ⟨-, h | h⟩
    · simp [hn] at h
    · exact ext_mag (by rw [hn, isNeg_zero]) (by rw [h, mag_zero])
  · rintro rfl
    simpa using hl

/-- What the regime of an estimate says about its load, and what it makes of the probability. -/
structure Estimate.Sound (e : Estimate) (capacity load : Binary64) (policy : TailPolicy) :
    Prop where
  probability_unit : InUnit e.probability
  zeroLoad_iff : e.regime = .zeroLoad ↔ load = zero false
  saturated_iff : e.regime = .saturated ↔ capacity ≤ load
  bounded_iff : e.regime = .bounded ↔ load ≠ zero false ∧ ¬capacity ≤ load
  zeroLoad_probability : e.regime = .zeroLoad → e.probability = zero false
  saturated_probability : e.regime = .saturated → policy = .saturating → e.probability = one

theorem inUnit_zero : InUnit (zero false) :=
  ⟨isNaN_of_isFinite (isFinite_zero _), isNeg_zero _,
    zero_le_of_not_isNeg (isNaN_of_isFinite isFinite_one) isNeg_one⟩

theorem inUnit_one : InUnit one :=
  ⟨isNaN_of_isFinite isFinite_one, isNeg_one, Binary64.le_refl (isNaN_of_isFinite isFinite_one)⟩

theorem not_capacity_le_zero (hc0 : 0 < capacity) : ¬ofNat capacity ≤ zero false := by
  intro h
  have hk := key_le (Binary64.le_trans (one_le_ofNat hc0) h)
  rw [key_of_not_isNeg isNeg_one, key_zero] at hk
  have : 0 < one.mag := by decide
  omega

variable [MathLibrary] [LawfulMathLibrary]

/-- The bound of a load is a unit value. -/
theorem inUnit_bound (hc0 : 0 < capacity) (hc : capacity < 2 ^ 64)
    (hl : Fits load 1 (96 + unitExp)) :
    InUnit (exp (-(chernoffExponent (ofNat capacity) load))) := by
  have h := fits_chernoffExponent hc0 hc hl
  exact inUnit_exp (neg_le_zero h.not_nan h.not_neg)

theorem overflowProbability_sound (hc0 : 0 < capacity) (hc : capacity < 2 ^ 64)
    (hl : Fits load 1 (96 + unitExp)) (policy : TailPolicy) :
    (overflowProbability capacity load policy).Sound (ofNat capacity) load policy := by
  have hz := le_zero_iff_eq hl.not_nan hl.not_neg
  have hb := inUnit_bound hc0 hc hl
  unfold overflowProbability
  by_cases h0 : load ≤ zero false
  · have heq := hz.mp h0
    have hcap : ¬ofNat capacity ≤ load := by
      rw [heq]
      exact not_capacity_le_zero hc0
    simp only [h0, ↓reduceIte]
    exact ⟨inUnit_zero, by simp [heq], by simp [hcap], by simp [heq], by simp, by simp⟩
  have hne : load ≠ zero false := fun h => h0 (hz.mpr h)
  by_cases hcap : ofNat capacity ≤ load
  · simp only [h0, hcap, ↓reduceIte]
    refine ⟨?_, by simp [hne], by simp [hcap], by simp [hcap], by simp, ?_⟩
    · cases policy with
      | saturating => simpa only [TailPolicy.clamps, ↓reduceIte] using inUnit_one
      | literal => simpa only [TailPolicy.clamps, Bool.false_eq_true, ↓reduceIte] using hb
    · rintro - rfl
      simp only [TailPolicy.clamps, ↓reduceIte]
  · simp only [h0, hcap, ↓reduceIte]
    exact ⟨hb, by simp [hne], by simp [hcap], by simp [hne, hcap], by simp, by simp⟩

/-- A larger load never has a smaller bound where saturated loads are given probability one. -/
theorem overflowProbability_mono (hc0 : 0 < capacity) (hc : capacity < 2 ^ 64)
    (hl : Fits load 1 (96 + unitExp)) (hl' : Fits load' 1 (96 + unitExp)) (hll : load ≤ load') :
    (overflowProbability capacity load .saturating).probability ≤
      (overflowProbability capacity load' .saturating).probability := by
  have h := overflowProbability_sound hc0 hc hl .saturating
  have h' := overflowProbability_sound hc0 hc hl' .saturating
  cases hr : (overflowProbability capacity load .saturating).regime with
  | zeroLoad =>
    rw [h.zeroLoad_probability hr]
    exact zero_le_of_not_isNeg h'.probability_unit.not_nan h'.probability_unit.not_neg
  | saturated =>
    have hsat := h'.saturated_iff.mpr (Binary64.le_trans (h.saturated_iff.mp hr) hll)
    rw [h.saturated_probability hr rfl, h'.saturated_probability hsat rfl]
    exact Binary64.le_refl (isNaN_of_isFinite isFinite_one)
  | bounded =>
    obtain ⟨hne, hcap⟩ := h.bounded_iff.mp hr
    have hne' : ¬load' ≤ zero false := fun hz =>
      hne ((le_zero_iff_eq hl.not_nan hl.not_neg).mp (Binary64.le_trans hll hz))
    by_cases hcap' : ofNat capacity ≤ load'
    · rw [h'.saturated_probability (h'.saturated_iff.mpr hcap') rfl]
      exact h.probability_unit.le_one
    · have hz : ¬load ≤ zero false := fun hz =>
        hne ((le_zero_iff_eq hl.not_nan hl.not_neg).mp hz)
      have hlt := (Binary64.not_le (isNaN_ofNat capacity) hl'.not_nan).mp hcap'
      simp only [overflowProbability, hz, hne', hcap, hcap', ↓reduceIte]
      exact exp_mono (neg_le_neg (chernoffExponent_anti hc0 hc hl hl' hll hlt))

end BucketOverflow
