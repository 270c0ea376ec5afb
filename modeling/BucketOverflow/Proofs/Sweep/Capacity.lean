import BucketOverflow.Proofs.Binary64.Relative
import BucketOverflow.Proofs.Sweep.Estimate

/-! The overflow bound of one load under a growing capacity. The exponent `(Z - E) ^ 2 / (Z + E)`
grows with `Z`, but four of its roundings could undo a growth by less than eight roundoffs. As
capacities differ by whole items, a gap that grows by so little is so wide that the bound is
zero. -/
namespace BucketOverflow
open Binary64

/-! The exact exponent -/

/-- Four factors come together in the quotient of a square. -/
theorem Binary64.Near.square_div {c g d s m t u : ℚ} (hg : Near c g d) (hs : Near c s (g * g / u))
    (hm : Near c m t) (hc : 0 ≤ c) (hg0 : 0 ≤ g) (hd : 0 ≤ d) (hs0 : 0 ≤ s) (hm0 : 0 < m)
    (ht : 0 < t) (hu : 0 < u) : Near (c ^ 4) (s * u / m) (d ^ 2 / t) := by
  have hsquare := hs.mul_right hu.le
  rw [div_mul_cancel₀ _ hu.ne'] at hsquare
  have hgaps := hg.mul hg hg0 hd hg0 hd
  have hquotient := (hsquare.trans hgaps hc (mul_nonneg hc hc)).div hm (mul_nonneg hs0 hu.le)
    (mul_nonneg hd hd) hm0 ht
  convert hquotient using 1 <;> ring

/-- Where the gap grows by a factor, so does the exponent, as the gap is at most the sum. -/
theorem mul_square_div_le {a d s k : ℚ} (ha : 0 ≤ a) (hs : 0 < s) (has : a ≤ s) (hd : 0 ≤ d)
    (hk : a * k ≤ a + d) : a ^ 2 / s * k ≤ (a + d) ^ 2 / (s + d) := by
  have hrest : a * (s + d) / s ≤ a + d := by
    rw [div_le_iff₀ hs]
    linarith [mul_le_mul_of_nonneg_right has hd]
  rw [le_div_iff₀ (by linarith)]
  calc a ^ 2 / s * k * (s + d) = a * k * (a * (s + d) / s) := by ring
    _ ≤ (a + d) * (a + d) := by
      apply mul_le_mul hk hrest _ (by linarith)
      positivity
    _ = (a + d) ^ 2 := by ring

/-- Exponents that grow by more than their errors stay in order. -/
theorem le_of_near_exponents {z z' e q q' : ℚ} (he : 0 ≤ e) (hez : e < z) (hzz : z ≤ z')
    (hgap : z - e ≤ 2 ^ 49 * (z' - z)) (h : Near ((1 + roundoff) ^ 4) q ((z - e) ^ 2 / (z + e)))
    (h' : Near ((1 + roundoff) ^ 4) q' ((z' - e) ^ 2 / (z' + e))) : q ≤ q' := by
  have hfactor : (1 + roundoff) ^ 8 ≤ 1 + 1 / 2 ^ 49 := by
    unfold roundoff
    norm_num
  have hfour : 0 < (1 + roundoff) ^ 4 := by
    have := roundoff_pos
    positivity
  have hk : (z - e) * (1 + roundoff) ^ 8 ≤ z - e + (z' - z) := by
    have hmul := mul_le_mul_of_nonneg_left hfactor (sub_pos.mpr hez).le
    linarith
  have hgrow : (z - e) ^ 2 / (z + e) * (1 + roundoff) ^ 8 ≤ (z' - e) ^ 2 / (z' + e) := by
    have hexact := mul_square_div_le (s := z + e) (sub_pos.mpr hez).le (by linarith) (by linarith)
      (sub_nonneg.mpr hzz) hk
    convert hexact using 2 <;> ring
  apply le_of_mul_le_mul_right _ hfour
  calc q * (1 + roundoff) ^ 4
      ≤ (z - e) ^ 2 / (z + e) * (1 + roundoff) ^ 4 * (1 + roundoff) ^ 4 :=
        mul_le_mul_of_nonneg_right h.le_mul hfour.le
    _ = (z - e) ^ 2 / (z + e) * (1 + roundoff) ^ 8 := by ring
    _ ≤ (z' - e) ^ 2 / (z' + e) := hgrow
    _ ≤ q' * (1 + roundoff) ^ 4 := h'.ge_mul

/-- A gap of so many items makes the exponent too large, as a capacity has only 64 bits. -/
theorem le_wide_exponent {z e u : ℚ} (hu : 0 < u) (hz : z ≤ 2 ^ 64 * u) (he : 0 ≤ e)
    (hgap : 2 ^ 49 * u ≤ z - e) :
    2 ^ 11 * u * (1 + roundoff) ^ 4 ≤ (z - e) ^ 2 / (z + e) := by
  have hfactor : (1 + roundoff) ^ 4 ≤ 2 := by
    unfold roundoff
    norm_num
  have hsum : z + e ≤ 2 ^ 65 * u := by linarith
  have hpos : 0 < z + e := by linarith
  rw [le_div_iff₀ hpos]
  calc 2 ^ 11 * u * (1 + roundoff) ^ 4 * (z + e) ≤ 2 ^ 11 * u * 2 * (2 ^ 65 * u) := by gcongr
    _ ≤ (2 ^ 49 * u) ^ 2 := by nlinarith
    _ ≤ (z - e) ^ 2 := by gcongr

/-! The exponent in words -/

variable {c c' capacity : ℕ} {load : Binary64}

/-- A load below a capacity is below it by at least a roundoff of one item. -/
theorem gap_le (hc0 : 0 < capacity) (hl : Fits load 1 (96 + unitExp))
    (hlt : load < ofNat capacity) : (2 : ℚ) ^ 1021 ≤ (ofNat capacity).worth - load.worth := by
  have hshift : shiftOf (one.mag - 1) = 1021 := by decide
  rw [← hshift]
  exact spacing_le hl.not_neg hlt isNeg_one (one_le_ofNat hc0)

/-- Capacities whose words differ, differ by at least one item. -/
theorem item_le_sub (h : ofNat c < ofNat c') :
    (2 : ℚ) ^ unitExp ≤ (ofNat c').worth - (ofNat c).worth := by
  by_cases hexact : c' ≤ 2 * hiddenBit
  · have hcc : c < c' := by
      by_contra hge
      have hkey := (lt_iff.mp h).2.2
      exact absurd (key_le (ofNat_mono (not_lt.mp hge))) (not_le.mpr hkey)
    have hcast : (c : ℚ) + 1 ≤ c' := by exact_mod_cast hcc
    rw [worth_ofNat hexact, worth_ofNat (by omega), ← sub_mul]
    exact le_mul_of_one_le_left (by positivity) (by linarith)
  · have hshift : shiftOf ((ofNat (2 * hiddenBit)).mag - 1) = unitExp := by decide +kernel
    rw [← hshift]
    exact spacing_le (isNeg_ofNat c) h (isNeg_ofNat _) (ofNat_mono (by omega))

theorem gap_word_le (hc0 : 0 < capacity) (hc : capacity < 2 ^ 64)
    (hl : Fits load 1 (96 + unitExp)) (hlt : load < ofNat capacity) :
    (2 : ℚ) ^ 1021 ≤ (ofNat capacity - load).worth := by
  have hsub := isNearest_sub (fits_capacity hc).finite hl.finite
  have hle := hsub.le_worth (a := 1) (s := 1021) (by decide) (by decide)
    (by simpa using gap_le hc0 hl hlt)
  simpa using hle

/-- The square of such a gap is far above the first binade. -/
theorem square_le {g : ℚ} (hg : 2 ^ 1021 ≤ g) : 2 ^ 53 ≤ g * g / 2 ^ unitExp := by
  have hpos : (0 : ℚ) < 2 ^ 1021 := by positivity
  rw [le_div_iff₀ (by positivity)]
  calc (2 : ℚ) ^ 53 * 2 ^ unitExp = 2 ^ (53 + unitExp) := (pow_add _ _ _).symm
    _ ≤ 2 ^ (1021 + 1021) := pow_le_pow_right₀ (by norm_num) (by decide)
    _ = 2 ^ 1021 * 2 ^ 1021 := pow_add _ _ _
    _ ≤ g * g := mul_le_mul hg hg hpos.le (hpos.le.trans hg)

/-- Below the capacity the exponent is nearest to a number that is within four roundoffs of the
exact exponent. -/
theorem near_chernoffExponent (hc0 : 0 < capacity) (hc : capacity < 2 ^ 64)
    (hl : Fits load 1 (96 + unitExp)) (hlt : load < ofNat capacity) :
    ∃ q, IsNearest (chernoffExponent (ofNat capacity) load) q ∧
      Near ((1 + roundoff) ^ 4) q (((ofNat capacity).worth - load.worth) ^ 2 /
        ((ofNat capacity).worth + load.worth)) := by
  have hcap := fits_capacity hc
  have hsquare := fits_square_gap hc hl
  obtain ⟨hsum, hone⟩ := sum_bounds hc0 hc hl
  have hfin : (ofNat capacity - load).isFinite = true := by
    simpa using (fits_abs_gap hc hl).finite
  have hdiff := gap_le hc0 hl hlt
  have hgap := gap_word_le hc0 hc hl hlt
  have hpos : (0 : ℚ) < 2 ^ 1021 := by positivity
  have hunit : (0 : ℚ) < 2 ^ unitExp := by positivity
  have htotal : (2 : ℚ) ^ unitExp ≤ (ofNat capacity).worth + load.worth :=
    (worth_one ▸ worth_le_worth (one_le_ofNat hc0)).trans (le_add_of_nonneg_right hl.worth_nonneg)
  have hsum0 : 0 < (ofNat capacity + load).worth :=
    hunit.trans_le (worth_one ▸ worth_le_worth hone)
  have hnearGap := (isNearest_sub hcap.finite hl.finite).near hfin
    ((pow_le_pow_right₀ (by norm_num) (by norm_num)).trans hdiff)
  have hnearSquare := (isNearest_mul hfin hfin).near hsquare.finite (square_le hgap)
  have hnearSum := (isNearest_add hcap.finite hl.finite).near hsum.finite
    ((pow_le_pow_right₀ (by norm_num) (by decide)).trans htotal)
  refine ⟨_, isNearest_div hsquare.finite hsum.finite (mag_ne_zero_of_one_le hone), ?_⟩
  exact hnearGap.square_div hnearSquare hnearSum (add_nonneg zero_le_one roundoff_pos.le)
    (hpos.le.trans hgap) (hpos.le.trans hdiff) hsquare.worth_nonneg hsum0
    (hunit.trans_le htotal) hunit

/-- A load below a capacity is in the range of loads. -/
theorem fits_of_lt (hc : capacity < 2 ^ 64) (hn : load.isNeg = false)
    (hlt : load < ofNat capacity) : Fits load 1 (96 + unitExp) := by
  have hcap := fits_capacity hc
  have hkey := (lt_iff.mp hlt).2.2
  refine ⟨?_, hn, (worthAt_le_iff.mpr hkey.le).trans hcap.worth_le⟩
  have htop := isFinite_iff.mp hcap.finite
  rw [key_of_not_isNeg hn, key_of_not_isNeg hcap.not_neg] at hkey
  exact isFinite_iff.mpr (by omega)

section Library

variable [MathLibrary] [LawfulMathLibrary]

/-- A gap of so many items leaves nothing of the bound. -/
theorem exp_neg_of_wide (hc0 : 0 < capacity) (hc : capacity < 2 ^ 64)
    (hl : Fits load 1 (96 + unitExp)) (hlt : load < ofNat capacity)
    (hwide : 2 ^ 49 * 2 ^ unitExp ≤ (ofNat capacity).worth - load.worth) :
    exp (-(chernoffExponent (ofNat capacity) load)) = zero false := by
  obtain ⟨q, hq, hnear⟩ := near_chernoffExponent hc0 hc hl hlt
  have hcap : (ofNat capacity).worth ≤ 2 ^ 64 * 2 ^ unitExp := by
    have hfits := fits_ofNat (n := capacity) (a := 1) (s := 64) (by omega) (by decide) (by decide)
    simpa [pow_add] using hfits.worth_le
  have hlarge := le_wide_exponent (by positivity) hcap hl.worth_nonneg hwide
  rw [← worth_exhausting] at hlarge
  apply exp_neg_of_exhausting_le
  apply hq.word_le (isNaN_ofNat _)
  apply hnear.le_of_mul_le _ hlarge
  have := roundoff_pos
  positivity

/-- The bound of a load does not grow with the capacity. -/
theorem bound_anti (hc0 : 0 < c) (hcc : c ≤ c') (hc' : c' < 2 ^ 64)
    (hl : Fits load 1 (96 + unitExp)) (hlt : load < ofNat c) :
    exp (-(chernoffExponent (ofNat c') load)) ≤ exp (-(chernoffExponent (ofNat c) load)) := by
  have hc0' := hc0.trans_le hcc
  have hload := worthAt_lt_iff.mpr (lt_iff.mp hlt).2.2
  have hcap := worth_le_worth (ofNat_mono hcc)
  have hlt' : load < ofNat c' :=
    lt_iff.mpr ⟨hl.not_nan, isNaN_ofNat c', worthAt_lt_iff.mp (hload.trans_le hcap)⟩
  obtain ⟨q, hq, hnear⟩ := near_chernoffExponent hc0 (hcc.trans_lt hc') hl hlt
  obtain ⟨q', hq', hnear'⟩ := near_chernoffExponent hc0' hc' hl hlt'
  have hnan : (-(chernoffExponent (ofNat c) load)).isNaN = false := by simpa using hq.not_nan
  by_cases hwords : ofNat c' ≤ ofNat c
  · have hkey := le_antisymm (key_le hwords) (key_le (ofNat_mono hcc))
    rw [eq_of_key_eq (isNeg_ofNat c') (isNeg_ofNat c) hkey]
    exact Binary64.le_refl (isNaN_exp hnan)
  have hitem := item_le_sub ((Binary64.not_le (isNaN_ofNat c') (isNaN_ofNat c)).mp hwords)
  by_cases hgap : (ofNat c).worth - load.worth ≤ 2 ^ 49 * ((ofNat c').worth - (ofNat c).worth)
  · apply exp_mono
    apply Binary64.neg_le_neg
    exact hq.le hq' (le_of_near_exponents hl.worth_nonneg hload hcap hgap hnear hnear')
  · have hwide : 2 ^ 49 * 2 ^ unitExp ≤ (ofNat c').worth - load.worth := by
      calc (2 : ℚ) ^ 49 * 2 ^ unitExp ≤ 2 ^ 49 * ((ofNat c').worth - (ofNat c).worth) :=
            mul_le_mul_of_nonneg_left hitem (by positivity)
        _ ≤ (ofNat c).worth - load.worth := (not_le.mp hgap).le
        _ ≤ (ofNat c').worth - load.worth := sub_le_sub_right hcap _
    rw [exp_neg_of_wide hc0' hc' hl hlt' hwide]
    exact zero_le_of_not_isNeg (isNaN_exp hnan) (isNeg_exp hnan)

/-- A larger capacity never has a larger bound where saturated loads are given probability one,
whatever the load. -/
theorem overflowProbability_anti (c c' : UInt64) (load : Binary64) (hload : load.isNaN = false)
    (hc0 : 0 < c) (hcc : c ≤ c') :
    (overflowProbability c'.toNat load .saturating).probability ≤
      (overflowProbability c.toNat load .saturating).probability := by
  have hpos : 0 < c.toNat := UInt64.lt_iff_toNat_lt.mp hc0
  have hle : c.toNat ≤ c'.toNat := UInt64.le_iff_toNat_le.mp hcc
  have hone : one ≤ one := Binary64.le_refl (isNaN_of_isFinite isFinite_one)
  by_cases hzero : load ≤ zero false
  · simpa [overflowProbability, hzero] using Binary64.le_refl (isNaN_of_isFinite (isFinite_zero _))
  have hn : load.isNeg = false := by
    by_contra hneg
    exact hzero (le_zero_iff.mpr ⟨hload, .inl (by simpa using hneg)⟩)
  have hlt (n : ℕ) (h : ¬ofNat n ≤ load) : load < ofNat n :=
    (Binary64.not_le (isNaN_ofNat n) hload).mp h
  by_cases hsat : ofNat c.toNat ≤ load
  · by_cases hsat' : ofNat c'.toNat ≤ load
    · simpa [overflowProbability, hzero, hsat, hsat', TailPolicy.clamps] using hone
    · have hl := fits_of_lt c'.toNat_lt hn (hlt _ hsat')
      have hunit := inUnit_bound (hpos.trans_le hle) c'.toNat_lt hl
      simpa [overflowProbability, hzero, hsat, hsat', TailPolicy.clamps] using hunit.le_one
  · have hbelow := hlt _ hsat
    have hsat' : ¬ofNat c'.toNat ≤ load := fun h => hsat (Binary64.le_trans (ofNat_mono hle) h)
    have hl := fits_of_lt c.toNat_lt hn hbelow
    simpa [overflowProbability, hzero, hsat, hsat'] using bound_anti hpos hle c'.toNat_lt hl hbelow

end Library

/-- One item more, where the bound is neither one nor zero. -/
theorem overflowProbability_anti_next :
    (ofNat 0xFFFFF00000).isNaN = false ∧ (0 : UInt64) < 0x10000000000 ∧
    (0x10000000000 : UInt64) ≤ 0x10000000001 ∧
    zero false < (overflowProbability (0x10000000001 : UInt64).toNat (ofNat 0xFFFFF00000)
      .saturating).probability ∧
    (overflowProbability (0x10000000001 : UInt64).toNat (ofNat 0xFFFFF00000)
        .saturating).probability ≤
      (overflowProbability (0x10000000000 : UInt64).toNat (ofNat 0xFFFFF00000)
        .saturating).probability :=
  ⟨isNaN_ofNat _, by decide, by decide, by decide +kernel,
    overflowProbability_anti 0x10000000000 0x10000000001 (ofNat 0xFFFFF00000) (isNaN_ofNat _)
      (by decide) (by decide)⟩

end BucketOverflow
