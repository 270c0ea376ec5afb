import Mathlib.Analysis.SpecialFunctions.Log.Deriv
import BucketOverflow.Binary64.Platform
import BucketOverflow.Proofs.Binary64.Nearest

/-! The natural logarithm of the platform keeps order. In fixed point each series falls short of a
logarithm, and by less than neighbouring significands are apart; so its value grows from magnitude
to magnitude, also where a significand passes the middle of its binade and is set against the next
power of two. -/
namespace BucketOverflow.Binary64.Platform

variable {a b w t i m k base : ℕ}

/-! The series -/

theorem oddSeries_mono {w' t' : ℕ} (hw : w ≤ w') (ht : t ≤ t') (n i : ℕ) :
    oddSeries w n i t ≤ oddSeries w' n i t' := by
  induction n generalizing i t t' with
  | zero => exact le_rfl
  | succ n ih =>
    simp only [oddSeries, Nat.shiftRight_eq_div_pow]
    exact Nat.add_le_add (Nat.div_le_div_right ht)
      (ih (Nat.div_le_div_right (Nat.mul_le_mul ht hw)) (i + 1))

theorem fixedOne_eq : fixedOne = 2 ^ fracBits := by
  rw [fixedOne, Nat.one_shiftLeft]

theorem fixedOne_pos : (0 : ℝ) < fixedOne := by
  rw [fixedOne_eq]
  positivity

theorem shiftRight_le (k : ℕ) : ((k >>> fracBits : ℕ) : ℝ) ≤ k / fixedOne := by
  rw [Nat.shiftRight_eq_div_pow, ← fixedOne_eq]
  exact Nat.cast_div_le

/-- The series stays below that of a ratio whose square and power its arguments do not exceed. -/
theorem oddSeries_le {r : ℝ} (hw : (w : ℝ) ≤ r ^ 2 * fixedOne)
    (ht : (t : ℝ) ≤ r ^ (2 * i + 1) * fixedOne) (n : ℕ) : (oddSeries w n i t : ℝ) ≤
      (∑ k ∈ Finset.range n, r ^ (2 * (i + k) + 1) / (2 * (i + k) + 1 : ℕ)) * fixedOne := by
  induction n generalizing i t with
  | zero => simp [oddSeries]
  | succ n ih =>
    have hone := fixedOne_pos
    have hshift := shiftRight_le (t * w)
    rw [oddSeries, Nat.cast_add, Finset.sum_range_succ', add_mul]
    generalize (fixedOne : ℝ) = one at *
    have hterm : ((t / (2 * i + 1) : ℕ) : ℝ) ≤ r ^ (2 * i + 1) / (2 * i + 1 : ℕ) * one := by
      calc ((t / (2 * i + 1) : ℕ) : ℝ) ≤ t / (2 * i + 1 : ℕ) := Nat.cast_div_le
        _ ≤ r ^ (2 * i + 1) * one / (2 * i + 1 : ℕ) := by gcongr
        _ = r ^ (2 * i + 1) / (2 * i + 1 : ℕ) * one := by ring
    have hnext : (((t * w) >>> fracBits : ℕ) : ℝ) ≤ r ^ (2 * (i + 1) + 1) * one := by
      calc (((t * w) >>> fracBits : ℕ) : ℝ) ≤ t * w / one := by rwa [Nat.cast_mul] at hshift
        _ ≤ r ^ (2 * i + 1) * one * (r ^ 2 * one) / one := by
          gcongr
          exact (Nat.cast_nonneg t).trans ht
        _ = r ^ (2 * (i + 1) + 1) * one := by
          field_simp
          ring
    have hrest := ih hnext
    rw [add_comm]
    refine add_le_add ?_ (by simpa using hterm)
    simpa only [Nat.add_right_comm _ 1, ← Nat.add_assoc] using hrest

/-- The series of a ratio stays below the logarithm. -/
theorem twiceArtanh_le (h : a < b) :
    (twiceArtanh a b : ℝ) ≤ (Real.log (b + a) - Real.log (b - a)) * fixedOne := by
  have hb : (0 : ℝ) < b := by exact_mod_cast (Nat.zero_le a).trans_lt h
  have hab : (a : ℝ) < b := by exact_mod_cast h
  have hr0 : (0 : ℝ) ≤ a / b := by positivity
  have hr1 : (a / b : ℝ) < 1 := (div_lt_one hb).mpr hab
  have hz : (((a <<< fracBits) / b : ℕ) : ℝ) ≤ a / b * fixedOne := by
    rw [Nat.shiftLeft_eq, ← fixedOne_eq]
    generalize fixedOne = one
    calc ((a * one / b : ℕ) : ℝ) ≤ (a * one : ℕ) / b := Nat.cast_div_le
      _ = a / b * one := by rw [Nat.cast_mul]; ring
  simp only [twiceArtanh]
  generalize (a <<< fracBits) / b = z at *
  have hsq : (((z * z) >>> fracBits : ℕ) : ℝ) ≤ (a / b) ^ 2 * fixedOne := by
    have hw := shiftRight_le (z * z)
    have hone := fixedOne_pos
    generalize (fixedOne : ℝ) = one at *
    calc (((z * z) >>> fracBits : ℕ) : ℝ) ≤ z * z / one := by rwa [Nat.cast_mul] at hw
      _ ≤ a / b * one * (a / b * one) / one := by gcongr
      _ = (a / b) ^ 2 * one := by field_simp
  have hratio : (1 + a / b) / (1 - a / b) = ((b + a) / (b - a) : ℝ) := by
    have : (b - a : ℝ) ≠ 0 := by linarith
    field_simp
  have hlog := Real.sum_range_le_log_div hr0 hr1 64
  rw [hratio, Real.log_div (by positivity) (by linarith)] at hlog
  have hseries := oddSeries_le (i := 0) hsq (by simpa using hz) 64
  simp only [Nat.zero_add, Nat.cast_add, Nat.cast_mul, Nat.cast_ofNat, Nat.cast_one] at hseries ⊢
  have hmul := mul_le_mul_of_nonneg_right hlog fixedOne_pos.le
  linarith

theorem ln2_eq : ln2 = 4350955369971217654477563090224794165364344896676135745014 := by
  decide +kernel

/-- The fixed-point logarithm of two is short of it by less than a unit of 60 bits. -/
theorem log_two_le : Real.log 2 * fixedOne ≤ ln2 + fixedOne / 2 ^ 60 := by
  have h := Real.log_div_le_sum_range_add (x := 1 / 3) (by norm_num) (by norm_num) 20
  rw [show ((1 + 1 / 3) / (1 - 1 / 3) : ℝ) = 2 by norm_num] at h
  have hln : (ln2 : ℝ) = 4350955369971217654477563090224794165364344896676135745014 := by
    exact_mod_cast ln2_eq
  have hone : (fixedOne : ℝ) = 2 ^ 192 := by
    rw [fixedOne_eq, Nat.cast_pow, Nat.cast_ofNat, fracBits]
  rw [hln, hone]
  have hsum : ∑ i ∈ Finset.range 20, (1 / 3 : ℝ) ^ (2 * i + 1) / (2 * i + 1) +
      (1 / 3) ^ (2 * 20 + 1) / (1 - (1 / 3) ^ 2) ≤
      (4350955369971217654477563090224794165364344896676135745014 + 2 ^ 192 / 2 ^ 60) /
        2 ^ 193 := by
    norm_num [Finset.sum_range_succ]
  linarith [h.trans hsum]

/-! One logarithm after the other -/

theorem twiceArtanh_mono {a' b' : ℕ} (hb : 0 < b) (hb' : 0 < b') (h : a * b' ≤ a' * b) :
    twiceArtanh a b ≤ twiceArtanh a' b' := by
  have hz : (a <<< fracBits) / b ≤ (a' <<< fracBits) / b' := by
    rw [Nat.shiftLeft_eq, Nat.shiftLeft_eq, Nat.le_div_iff_mul_le hb']
    generalize 2 ^ fracBits = one
    apply Nat.le_of_mul_le_mul_right _ hb
    calc a * one / b * b' * b = a * one / b * b * b' := by ring
      _ ≤ a * one * b' := Nat.mul_le_mul_right _ (Nat.div_mul_le_self _ _)
      _ = a * b' * one := by ring
      _ ≤ a' * b * one := Nat.mul_le_mul_right _ h
      _ = a' * one * b := by ring
  simp only [twiceArtanh, Nat.shiftRight_eq_div_pow]
  exact Nat.mul_le_mul_left 2
    (oddSeries_mono (Nat.div_le_div_right (Nat.mul_le_mul hz hz)) hz 64 0)

theorem twiceArtanh_zero (b : ℕ) : twiceArtanh 0 b = 0 := by
  have hzero (n i : ℕ) : oddSeries 0 n i 0 = 0 := by
    induction n generalizing i with
    | zero => rfl
    | succ n ih => simp [oddSeries, ih]
  simp [twiceArtanh, hzero]

/-- The logarithm of `m / base` in fixed point. -/
def lnRatio (m base : ℕ) : ℤ :=
  if base ≤ m then (twiceArtanh (m - base) (m + base) : ℤ)
  else -(twiceArtanh (base - m) (base + m) : ℤ)

theorem lnRatio_mono {m' base : ℕ} (hbase : 0 < base) (h : m ≤ m') :
    lnRatio m base ≤ lnRatio m' base := by
  unfold lnRatio
  split_ifs with hm hm'
  · have hle : twiceArtanh (m - base) (m + base) ≤ twiceArtanh (m' - base) (m' + base) := by
      apply twiceArtanh_mono (by omega) (by omega)
      obtain ⟨p, rfl⟩ := Nat.exists_eq_add_of_le hm
      obtain ⟨q, rfl⟩ := Nat.exists_eq_add_of_le h
      rw [show base + p + q - base = p + q by omega, Nat.add_sub_cancel_left]
      nlinarith
    exact_mod_cast hle
  · omega
  · omega
  · have hle : twiceArtanh (base - m') (base + m') ≤ twiceArtanh (base - m) (base + m) := by
      apply twiceArtanh_mono (by omega) (by omega)
      exact Nat.mul_le_mul (by omega) (by omega)
    omega

/-- The exponent of the power of two nearest to a number, by ratio. -/
def topBit (m : ℕ) : ℕ := if 2 * (1 <<< (2 * m.log2)) < m * m then m.log2 + 1 else m.log2

theorem topBit_spec (hm : 0 < m) : 4 ^ topBit m < 2 * (m * m) ∧ m * m ≤ 2 * 4 ^ topBit m := by
  have hlow : 2 ^ m.log2 ≤ m := Nat.log2_self_le hm.ne'
  have hhigh : m < 2 ^ (m.log2 + 1) := Nat.lt_log2_self
  have hsq (j : ℕ) : 4 ^ j = 2 ^ j * 2 ^ j := by rw [← Nat.mul_pow]
  unfold topBit
  rw [Nat.one_shiftLeft, pow_mul, show (2 ^ 2 : ℕ) = 4 from rfl]
  split_ifs with h
  · rw [pow_succ]
    refine ⟨by omega, ?_⟩
    have := Nat.mul_le_mul hhigh.le hhigh.le
    rw [← hsq, pow_succ] at this
    omega
  · refine ⟨?_, by omega⟩
    have := Nat.mul_le_mul hlow hlow
    rw [← hsq] at this
    have := Nat.mul_pos hm hm
    omega

theorem topBit_eq (hlow : 4 ^ k < 2 * (m * m)) (hhigh : m * m ≤ 2 * 4 ^ k) : topBit m = k := by
  have hm : 0 < m := by
    rcases Nat.eq_zero_or_pos m with rfl | hm
    · omega
    · exact hm
  obtain ⟨hl, hh⟩ := topBit_spec hm
  have hlt {i j : ℕ} (h : 4 ^ i < 4 * 4 ^ j) : i ≤ j := by
    rw [← pow_succ'] at h
    exact Nat.lt_succ_iff.mp ((Nat.pow_lt_pow_iff_right (by decide)).mp h)
  exact Nat.le_antisymm (hlt (by omega)) (hlt (by omega))

/-- The logarithm of a whole number in fixed point. -/
def lnWhole (m : ℕ) : ℤ := topBit m * ln2 + lnRatio m (2 ^ topBit m)

theorem lnFixed_eq (m : ℕ) :
    lnFixed m = ((shiftOf m : ℤ) - unitExp) * ln2 + lnWhole (significand m) := by
  simp only [lnFixed, lnWhole, topBit, lnRatio, ← Nat.one_shiftLeft]
  push_cast
  ring

theorem lnWhole_two_pow (j : ℕ) : lnWhole (2 ^ j) = j * ln2 := by
  have htop : topBit (2 ^ j) = j := by
    have : 2 ^ j * 2 ^ j = 4 ^ j := by rw [← Nat.mul_pow]
    have : 0 < 4 ^ j := by positivity
    exact topBit_eq (by omega) (by omega)
  simp [lnWhole, htop, lnRatio, twiceArtanh_zero]

/-- Neighbours are further apart than the series is short. -/
theorem log_succ_le (hm : 0 < m) (hm' : m + 1 ≤ 2 ^ 53) :
    (Real.log 2 + Real.log m - Real.log (m + 1)) * fixedOne ≤ ln2 := by
  have hpos : (0 : ℝ) < m := by exact_mod_cast hm
  have hratio : Real.log m - Real.log (m + 1) ≤ -(1 / (m + 1)) := by
    rw [← Real.log_div hpos.ne' (by positivity)]
    calc Real.log (m / (m + 1)) ≤ m / (m + 1) - 1 :=
          Real.log_le_sub_one_of_pos (by positivity)
      _ = -(1 / (m + 1)) := by field_simp; ring
  have hgap : (1 / 2 ^ 60 : ℝ) ≤ 1 / (m + 1) := by
    have : ((m + 1 : ℕ) : ℝ) ≤ 2 ^ 53 := by exact_mod_cast hm'
    push_cast at this
    gcongr
    linarith
  have htwo := log_two_le
  have hone := fixedOne_pos
  generalize (fixedOne : ℝ) = one at *
  have : (Real.log m - Real.log (m + 1)) * one ≤ -(1 / 2 ^ 60) * one :=
    mul_le_mul_of_nonneg_right (by linarith) hone.le
  linarith

/-- Between two numbers on either side of the middle of a binade the series falls short of the
logarithm of two. -/
theorem twiceArtanh_add_le {base : ℕ} (hlow : base ≤ m) (hhigh : m + 1 ≤ 2 * base)
    (hm : 0 < m) (hm' : m + 1 ≤ 2 ^ 53) :
    twiceArtanh (m - base) (m + base) +
      twiceArtanh (2 * base - (m + 1)) (2 * base + (m + 1)) ≤ ln2 := by
  have hbase : (0 : ℝ) < base := by exact_mod_cast (show 0 < base by omega)
  have hpos : (0 : ℝ) < m := by exact_mod_cast hm
  have h1 := twiceArtanh_le (show m - base < m + base by omega)
  have h2 := twiceArtanh_le (show 2 * base - (m + 1) < 2 * base + (m + 1) by omega)
  rw [Nat.cast_sub hlow, Nat.cast_add] at h1
  rw [Nat.cast_sub hhigh, Nat.cast_add] at h2
  push_cast at h1 h2
  rw [show (m + base + (m - base) : ℝ) = 2 * m by ring,
    show (m + base - (m - base) : ℝ) = 2 * base by ring,
    Real.log_mul two_ne_zero hpos.ne', Real.log_mul two_ne_zero hbase.ne'] at h1
  rw [show (2 * base + (m + 1) + (2 * base - (m + 1)) : ℝ) = 2 * (2 * base) by ring,
    show (2 * base + (m + 1) - (2 * base - (m + 1)) : ℝ) = 2 * (m + 1) by ring,
    Real.log_mul two_ne_zero (by positivity), Real.log_mul two_ne_zero hbase.ne',
    Real.log_mul two_ne_zero (by positivity)] at h2
  have h3 := log_succ_le hm hm'
  have : ((twiceArtanh (m - base) (m + base) +
      twiceArtanh (2 * base - (m + 1)) (2 * base + (m + 1)) : ℕ) : ℝ) ≤ ln2 := by
    push_cast
    generalize (fixedOne : ℝ) = one at *
    linarith
  exact_mod_cast this

theorem lnWhole_le_succ (hm : 0 < m) (hm' : m + 1 ≤ 2 ^ 53) : lnWhole m ≤ lnWhole (m + 1) := by
  obtain ⟨hl, hh⟩ := topBit_spec hm
  unfold lnWhole
  by_cases hsame : (m + 1) * (m + 1) ≤ 2 * 4 ^ topBit m
  · have htop : topBit (m + 1) = topBit m := topBit_eq (by nlinarith) hsame
    rw [htop]
    have := lnRatio_mono (Nat.two_pow_pos (topBit m)) (Nat.le_succ m)
    linarith
  · -- the middle of a binade lies between the two
    have htop : topBit (m + 1) = topBit m + 1 := by
      apply topBit_eq
      · rw [pow_succ]
        omega
      · rw [pow_succ]
        nlinarith
    have hsq : 4 ^ topBit m = 2 ^ topBit m * 2 ^ topBit m := by rw [← Nat.mul_pow]
    rw [hsq] at hh hsame
    rw [htop, pow_succ']
    generalize 2 ^ topBit m = base at *
    have hlow : base ≤ m := by nlinarith
    have hhigh : m + 1 ≤ 2 * base := by nlinarith
    have hle := twiceArtanh_add_le hlow hhigh hm hm'
    have hnext : lnRatio (m + 1) (2 * base) =
        -(twiceArtanh (2 * base - (m + 1)) (2 * base + (m + 1)) : ℤ) := by
      rcases hhigh.lt_or_eq with hlt | heq
      · rw [lnRatio, if_neg (by omega)]
      · rw [lnRatio, if_pos heq.ge, heq, Nat.sub_self, twiceArtanh_zero]
        simp
    rw [hnext, lnRatio, if_pos hlow]
    push_cast
    linarith

/-- A step within a binade, or into the next. -/
theorem place_succ (m : ℕ) :
    shiftOf (m + 1) = shiftOf m ∧ significand (m + 1) = significand m + 1 ∨
      shiftOf (m + 1) = shiftOf m + 1 ∧ significand (m + 1) = hiddenBit ∧
        significand m + 1 = 2 * hiddenBit := by
  unfold significand shiftOf hiddenBit
  omega

theorem significand_pos (hm : 0 < m) : 0 < significand m := by
  rcases hiddenBit_le_significand m with h0 | h0
  · have hplace := shiftOf_add_significand m
    rw [h0, Nat.zero_mul, Nat.zero_add] at hplace
    omega
  · exact h0.trans_lt' (by decide)

theorem lnFixed_le_succ (hm : 0 < m) : lnFixed m ≤ lnFixed (m + 1) := by
  have hstep := lnWhole_le_succ (significand_pos hm) (significand_lt m)
  rw [lnFixed_eq, lnFixed_eq]
  rcases place_succ m with ⟨hs, hk⟩ | ⟨hs, hk, hfull⟩
  · rw [hs, hk]
    linarith
  · have htwo : 2 * hiddenBit = 2 ^ 53 := by decide
    have h53 := lnWhole_two_pow 53
    have h52 := lnWhole_two_pow 52
    rw [hfull, htwo, h53] at hstep
    rw [hs, hk, hiddenBit_eq, h52]
    push_cast at hstep ⊢
    linarith

theorem lnFixed_mono (hm : 0 < m) (h : m ≤ k) : lnFixed m ≤ lnFixed k := by
  induction k, h using Nat.le_induction with
  | base => exact le_rfl
  | succ k hle ih => exact ih.trans (lnFixed_le_succ (by omega))

/-! The rounded logarithm -/

theorem isNearest_ln (m : ℕ) : IsNearest (ln m) (lnFixed m * 2 ^ unitExp / 2 ^ fracBits) := by
  simp only [ln, nearestDyadic_eq]
  generalize lnFixed m = l
  convert isNearest_ofMag (decide (l < 0))
    (show (0 : ℚ) ≤ l.natAbs * 2 ^ unitExp / 2 ^ fracBits by positivity) using 1
  have habs : (l.natAbs : ℚ) = |(l : ℚ)| := by
    rw [Nat.cast_natAbs, Int.cast_abs]
  rcases lt_or_ge l 0 with hl | hl
  · have hq : (l : ℚ) < 0 := by exact_mod_cast hl
    rw [habs, abs_of_neg hq, decide_eq_true hl, if_pos rfl]
    ring
  · have hq : (0 : ℚ) ≤ l := by exact_mod_cast hl
    rw [habs, abs_of_nonneg hq, decide_eq_false (not_lt.mpr hl), if_neg (by decide)]

/-- The natural logarithm keeps order. -/
theorem ln_mono (hm : 0 < m) (h : m ≤ k) : ln m ≤ ln k := by
  apply (isNearest_ln m).le (isNearest_ln k)
  have hln : (lnFixed m : ℚ) ≤ lnFixed k := by
    exact_mod_cast lnFixed_mono hm h
  gcongr

end BucketOverflow.Binary64.Platform
