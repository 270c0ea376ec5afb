import BucketOverflow.Arrival
import BucketOverflow.Proofs.Binary64.Doubling
import BucketOverflow.Proofs.Binary64.Platform

/-! Bounds on the expected load. A term is at most the share of its depth, so the mass is at most
the share times the hop budget, and it never falls when the budget grows. The load grows with the
items, and doubles when they do. -/
namespace BucketOverflow
open Binary64

namespace Binary64

variable {x y : Binary64}

/-- A word without sign that is at most one. -/
structure InUnit (x : Binary64) : Prop where
  not_nan : x.isNaN = false
  not_neg : x.isNeg = false
  le_one : x ≤ one

theorem InUnit.fits (h : InUnit x) : Fits x 1 unitExp := by
  have hle := worth_le_worth h.le_one
  rw [worth_one] at hle
  have hk := key_le h.le_one
  rw [key_of_not_isNeg h.not_neg, key_of_not_isNeg isNeg_one] at hk
  refine ⟨isFinite_iff.mpr ?_, h.not_neg, by simpa using hle⟩
  have : one.mag < infinite := by decide
  omega

theorem mul_negInf (hx : x.isFinite = true) (hxn : x.isNeg = false) (hx0 : x.mag ≠ 0)
    (hinf : y.isInf = true) (hyn : y.isNeg = true) : x * y = inf true := by
  have hmag := isInf_iff.mp hinf
  have hy : y.isNaN = false := isNaN_eq_false_iff.mpr hmag.le
  change mul x y = _
  simp [mul, isNaN_of_isFinite hx, hy, hinf, hxn, hyn, isZero, hx0, hmag,
    show infinite ≠ 0 by decide]

/-- A positive number of trials times a logarithm that is not positive is not positive either,
also where the logarithm is infinite. -/
theorem mul_le_zero (hx : x.isFinite = true) (hxn : x.isNeg = false) (hx0 : x.mag ≠ 0)
    (hy : y.isNaN = false) (hyn : y.isNeg = true) : x * y ≤ zero false := by
  rw [le_zero_iff]
  by_cases hinf : y.isInf = true
  · rw [mul_negInf hx hxn hx0 hinf hyn]
    exact ⟨isNaN_eq_false_iff.mpr (by simp), .inl (by simp)⟩
  · have hyf := isFinite_of_not_isInf hy hinf
    refine ⟨(isNearest_mul hx hyf).not_nan, .inl ?_⟩
    rw [isNeg_mul hx hyf, hxn, hyn]
    rfl

theorem max_zero_of_lt (h : x < zero false) : max x (zero false) = zero false := by
  have hx := (lt_iff.mp h).1
  have hz : (zero false).isNaN = false := isNaN_of_isFinite (isFinite_zero _)
  simp [max, hx, hz, h]

theorem max_zero_of_not_lt (hx : x.isNaN = false) (h : ¬x < zero false) :
    max x (zero false) = x := by
  have hz : (zero false).isNaN = false := isNaN_of_isFinite (isFinite_zero _)
  simp [max, hx, hz, h]

/-- The worth of a word is a whole number of units. -/
theorem worth_eq_intCast (x : Binary64) : ∃ n : ℤ, x.worth = n :=
  ⟨x.key.sign * units x.key.natAbs, by rw [worth, worthAt]; push_cast; rfl⟩

/-- A difference that is not zero does not round to zero. -/
theorem sub_key_neg (hx : x.isFinite = true) (hy : y.isFinite = true) (h : x.worth < y.worth) :
    (x - y).key < 0 := by
  obtain ⟨m, hm⟩ := worth_eq_intCast x
  obtain ⟨n, hn⟩ := worth_eq_intCast y
  have hlt : m < n := by
    rw [hm, hn] at h
    exact_mod_cast h
  have hle : x.worth - y.worth ≤ worthAt (-1) := by
    have h1 : worthAt (-1) = -1 := by
      rw [worthAt_neg]
      exact congrArg Neg.neg (worthAt_natCast 1)
    rw [hm, hn, h1]
    exact_mod_cast (by omega : m - n ≤ -1)
  have hk := roundKey_mono hle
  rw [roundKey_worthAt (by decide)] at hk
  rw [(isNearest_sub hx hy).key_eq]
  omega

/-- What two unit values differ by, clamped at zero, is a unit value. -/
theorem InUnit.max_sub (hx : InUnit x) (hy : InUnit y) :
    InUnit (max (x - y) (zero false)) := by
  have hxf := hx.fits
  have hyf := hy.fits
  have hsub := isNearest_sub hxf.finite hyf.finite
  have hone : one.isNaN = false := isNaN_of_isFinite isFinite_one
  by_cases hlt : x - y < zero false
  · rw [max_zero_of_lt hlt]
    exact ⟨isNaN_of_isFinite (isFinite_zero _), isNeg_zero _,
      zero_le_of_not_isNeg hone isNeg_one⟩
  · rw [max_zero_of_not_lt hsub.not_nan hlt]
    refine ⟨hsub.not_nan, ?_, hsub.le_word hone ?_⟩
    · have hge : y.worth ≤ x.worth := by
        by_contra hn
        apply hlt
        rw [lt_iff, key_zero]
        exact ⟨hsub.not_nan, isNaN_of_isFinite (isFinite_zero _),
          sub_key_neg hxf.finite hyf.finite (not_le.mp hn)⟩
      change (x + -y).isNeg = false
      rw [isNeg_add hxf.finite (by simpa using hyf.finite), worth_neg, isNeg_neg, hx.not_neg]
      simpa using hge
    · have := worth_le_worth hx.le_one
      linarith [hyf.worth_nonneg]

end Binary64

variable {depth hops paths items : ℕ}

theorem fits_twoPowNeg (hd : depth ≤ unitExp) : Fits (twoPowNeg depth) 1 (unitExp - depth) := by
  refine (isNearest_twoPowNeg hd).fits (isNeg_twoPowNeg depth) (by decide) ?_ (by simp)
  exact (Nat.sub_le _ _).trans (by decide)

/-- The number of trials is a finite word that is at least one. -/
theorem trials_bounds (hh : 0 < hops) (hh' : hops < 2 ^ 32) (hp : 0 < paths)
    (hp' : paths < 2 ^ 64) :
    (ofNat hops * ofNat paths).isFinite = true ∧ one ≤ ofNat hops * ofNat paths := by
  have hfh : Fits (ofNat hops) 1 (32 + unitExp) := fits_ofNat (by omega) (by decide) (by decide)
  have hfp : Fits (ofNat paths) 1 (64 + unitExp) := fits_ofNat (by omega) (by decide) (by decide)
  refine ⟨(hfh.mul hfp (by decide) (by decide) (by decide)).finite, ?_⟩
  have h1 := worth_le_worth (one_le_ofNat hh)
  have h2 := worth_le_worth (one_le_ofNat hp)
  rw [worth_one] at h1 h2
  apply (isNearest_mul hfh.finite hfp.finite).word_le (isNaN_of_isFinite isFinite_one)
  rw [worth_one, le_div_iff₀ (by positivity)]
  exact mul_le_mul h1 h2 (by positivity) hfh.worth_nonneg

theorem fits_items (hi : items < 2 ^ 64) : Fits (ofNat items) 1 (64 + unitExp) :=
  fits_ofNat (by omega) (by decide) (by decide)

section Library

variable [MathLibrary]

@[simp] theorem arrivalMass_zero : arrivalMass 0 depth paths = zero true := rfl

theorem arrivalMass_succ (n depth paths : ℕ) : arrivalMass (n + 1) depth paths =
    arrivalMass n depth paths + arrivalProbability depth (n + 1) paths := by
  rw [arrivalMass, List.range'_1_concat, List.foldl_append, Nat.add_comm 1 n]
  rfl

variable [LawfulMathLibrary]

/-! One term -/

theorem inUnit_exp {x : Binary64} (h : x ≤ zero false) : InUnit (exp x) :=
  ⟨isNaN_exp (le_iff.mp h).1, isNeg_exp (le_iff.mp h).1, exp_le_one h⟩

/-- The chance of missing a share in every trial is a unit value. -/
theorem inUnit_survival {x : Binary64} (hx : x.isFinite = true) (h1 : one ≤ x) (j : ℕ) :
    InUnit (exp (x * lnKeep j)) := by
  have hk := key_le h1
  rw [key_of_not_isNeg isNeg_one] at hk
  have hpos : 0 < one.mag := by decide
  have hxn : x.isNeg = false := isNeg_of_key_pos (by omega)
  rw [key_of_not_isNeg hxn] at hk
  exact inUnit_exp (mul_le_zero hx hxn (by omega) (isNaN_lnKeep j) (isNeg_lnKeep j))

/-- A term of a depth is at most the share of the depth. -/
theorem fits_arrival {x : Binary64} (hx : x.isFinite = true) (h1 : one ≤ x)
    (hd : depth ≤ unitExp) : Fits ((Level.ofDepth depth).arrival x) 1 (unitExp - depth) := by
  have hmax := ((inUnit_survival hx h1 (depth + 1)).max_sub (inUnit_survival hx h1 depth)).fits
  have h := (fits_twoPowNeg hd).mul hmax (by decide) (Nat.le_add_left _ _) ?_
  · simpa [Level.arrival, Level.ofDepth] using h
  · rw [Nat.add_sub_cancel]
    exact (Nat.sub_le _ _).trans (by decide)

theorem fits_arrivalProbability (hh : 0 < hops) (hh' : hops < 2 ^ 32) (hp : 0 < paths)
    (hp' : paths < 2 ^ 64) (hd : depth ≤ unitExp) :
    Fits (arrivalProbability depth hops paths) 1 (unitExp - depth) := by
  obtain ⟨hfin, h1⟩ := trials_bounds hh hh' hp hp'
  exact fits_arrival hfin h1 hd

/-! The sum over hops -/

/-- The first term ends the negative zero that the sum starts from. -/
theorem fits_arrivalMass_one (hp : 0 < paths) (hp' : paths < 2 ^ 64) (hd : depth ≤ unitExp) :
    Fits (arrivalMass 1 depth paths) 1 (unitExp - depth) := by
  have ht := fits_arrivalProbability one_pos (by decide) hp hp' hd
  rw [arrivalMass_succ, arrivalMass_zero]
  apply (isNearest_add (isFinite_zero true) ht.finite).fits
  · simp [isNeg_add (isFinite_zero true) ht.finite, ht.not_neg, ht.worth_nonneg]
  · decide
  · exact (Nat.sub_le _ _).trans (by decide)
  · rw [worth_zero, zero_add]
    exact ht.worth_le

/-- The mass is at most the share times the number of terms; every such bound is a word. -/
theorem fits_arrivalMass {n : ℕ} (hn : 0 < n) (hn' : n < 2 ^ 32) (hp : 0 < paths)
    (hp' : paths < 2 ^ 64) (hd : depth ≤ unitExp) :
    Fits (arrivalMass n depth paths) n (unitExp - depth) := by
  induction n, hn using Nat.le_induction with
  | base => exact fits_arrivalMass_one hp hp' hd
  | succ n hn ih =>
    have ht := fits_arrivalProbability (Nat.succ_pos n) hn' hp hp' hd
    rw [arrivalMass_succ]
    refine (ih (by omega)).add ht ?_ ?_
    · unfold hiddenBit
      omega
    · exact (Nat.sub_le _ _).trans (by decide)

/-- More terms never lower the mass. -/
theorem arrivalMass_mono {m n : ℕ} (hm : 0 < m) (hmn : m ≤ n) (hn : n < 2 ^ 32) (hp : 0 < paths)
    (hp' : paths < 2 ^ 64) (hd : depth ≤ unitExp) :
    arrivalMass m depth paths ≤ arrivalMass n depth paths := by
  induction n, hmn using Nat.le_induction with
  | base => exact Binary64.le_refl (fits_arrivalMass hm hn hp hp' hd).not_nan
  | succ n hmn ih =>
    have hmass := fits_arrivalMass (hm.trans_le hmn) (by omega) hp hp' hd
    have ht := fits_arrivalProbability (Nat.succ_pos n) hn hp hp' hd
    refine Binary64.le_trans (ih (by omega)) ?_
    rw [arrivalMass_succ]
    apply (isNearest_add hmass.finite ht.finite).word_le hmass.not_nan
    linarith [ht.worth_nonneg]

/-! The load -/

/-- No load exceeds `2 ^ 96`. -/
theorem fits_expectedLoad (hh : 0 < hops) (hh' : hops < 2 ^ 32) (hi : items < 2 ^ 64)
    (hp : 0 < paths) (hp' : paths < 2 ^ 64) (hd : depth ≤ unitExp) :
    Fits (expectedLoad hops depth items paths) 1 (96 + unitExp) := by
  have hmass : Fits (arrivalMass hops depth paths) 1 (32 + unitExp) := by
    apply (fits_arrivalMass hh hh' hp hp' hd).mono
    have hshare : (2 : ℚ) ^ (unitExp - depth) ≤ 2 ^ unitExp :=
      pow_le_pow_right₀ (by norm_num) (Nat.sub_le _ _)
    have hhops : (hops : ℚ) ≤ 2 ^ 32 := by exact_mod_cast hh'.le
    rw [Nat.cast_one, one_mul, pow_add]
    gcongr
  exact (fits_items hi).mul hmass (by decide) (by decide) (by decide)

/-- The load is at most the items times hops times the share, in the words' own arithmetic. -/
theorem expectedLoad_le (hh : 0 < hops) (hh' : hops < 2 ^ 32) (hi : items < 2 ^ 64)
    (hp : 0 < paths) (hp' : paths < 2 ^ 64) (hd : depth ≤ unitExp) :
    expectedLoad hops depth items paths ≤ ofNat items * (ofNat hops * twoPowNeg depth) := by
  have hmass := fits_arrivalMass hh hh' hp hp' hd
  have hitems := fits_items hi
  have hsmall : hops ≤ 2 * hiddenBit := by
    unfold hiddenBit
    omega
  have hhops : Fits (ofNat hops) hops (0 + unitExp) := fits_ofNat (by simp) hsmall (by decide)
  have hs : unitExp - depth ≤ unitExp := Nat.sub_le _ _
  have hb : Fits (ofNat hops * twoPowNeg depth) (hops * 1) (0 + unitExp + (unitExp - depth) -
      unitExp) := by
    apply hhops.mul (fits_twoPowNeg hd) (by omega)
    · rw [zero_add]
      exact Nat.le_add_right _ _
    · rw [zero_add, Nat.add_sub_cancel_left]
      exact hs.trans (by decide)
  have hexact : (ofNat hops * twoPowNeg depth).worth = hops * 2 ^ (unitExp - depth) := by
    apply worth_eq_of_isNearest hsmall (hs.trans (by decide))
    have h := isNearest_mul hhops.finite (fits_twoPowNeg hd).finite
    rw [worth_ofNat hsmall, worth_twoPowNeg hd] at h
    convert h using 1
    field_simp
  apply (isNearest_mul hitems.finite hmass.finite).le (isNearest_mul hitems.finite hb.finite)
  rw [hexact]
  exact div_le_div_of_nonneg_right
    (mul_le_mul_of_nonneg_left hmass.worth_le hitems.worth_nonneg) (by positivity)

/-- More items and more hops never lower the load. -/
theorem expectedLoad_mono {items' hops' : ℕ} (hh : 0 < hops) (hhh : hops ≤ hops')
    (hh' : hops' < 2 ^ 32) (hii : items ≤ items') (hi' : items' < 2 ^ 64) (hp : 0 < paths)
    (hp' : paths < 2 ^ 64) (hd : depth ≤ unitExp) :
    expectedLoad hops depth items paths ≤ expectedLoad hops' depth items' paths := by
  have hmass := fits_arrivalMass hh (hhh.trans_lt hh') hp hp' hd
  have hmass' := fits_arrivalMass (hh.trans_le hhh) hh' hp hp' hd
  have hitems := fits_items (hii.trans_lt hi')
  have hitems' := fits_items hi'
  apply (isNearest_mul hitems.finite hmass.finite).le (isNearest_mul hitems'.finite hmass'.finite)
  have h1 := worth_le_worth (ofNat_mono hii)
  have h2 := worth_le_worth (arrivalMass_mono hh hhh hh' hp hp' hd)
  exact div_le_div_of_nonneg_right (mul_le_mul h1 h2 hmass.worth_nonneg hitems'.worth_nonneg)
    (by positivity)

/-- Twice the items make exactly twice the load, also where a number of items is no word. -/
theorem expectedLoad_two_mul (hh : 0 < hops) (hh' : hops < 2 ^ 32) (hi : 2 * items < 2 ^ 64)
    (hp : 0 < paths) (hp' : paths < 2 ^ 64) (hd : depth ≤ unitExp) :
    expectedLoad hops depth (2 * items) paths = 2 * expectedLoad hops depth items paths := by
  have hone : items < 2 ^ 64 := by omega
  have hmass := fits_arrivalMass hh hh' hp hp' hd
  have hload := fits_expectedLoad hh hh' hone hp hp' hd
  have hload' := fits_expectedLoad hh hh' hi hp hp' hd
  exact ofNat_two_mul_mul hload'.finite (fits_items hi).finite (fits_items hone).finite
    hmass.finite hmass.not_neg hload.finite

end Library

/-- The most items that can be doubled, which are no word. -/
theorem expectedLoad_two_mul_most : 2 * 0x7fffffffffffffff < 2 ^ 64 ∧
    expectedLoad 0xffffffff 1021 (2 * 0x7fffffffffffffff) 0xffffffffffffffff =
      2 * expectedLoad 0xffffffff 1021 0x7fffffffffffffff 0xffffffffffffffff :=
  ⟨by decide, expectedLoad_two_mul (by decide) (by decide) (by decide) (by decide) (by decide)
    (by decide)⟩

end BucketOverflow
