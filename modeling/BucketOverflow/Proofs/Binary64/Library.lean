import BucketOverflow.Binary64.Elementary
import BucketOverflow.Proofs.Binary64.Whole

/-! What is relied on of a mathematics library. Its functions keep order, have the signs of the real
ones and are exact where these are zero or one; nothing is asked about the last places between. -/
namespace BucketOverflow

namespace Binary64

variable {x y : Binary64} {d j k : ℕ}

/-! Shares -/

theorem isNearest_twoPowNeg (hd : d ≤ unitExp) :
    IsNearest (twoPowNeg d) (2 ^ (unitExp - d)) := by
  have h := isNearest_ofMag false (show (0 : ℚ) ≤ 2 ^ (unitExp - d) by positivity)
  simpa [twoPowNeg, not_lt.mpr hd, nearestDyadic_eq] using h

/-- The share of a depth is a power of two, exactly. -/
theorem worth_twoPowNeg (hd : d ≤ unitExp) : (twoPowNeg d).worth = 2 ^ (unitExp - d) := by
  have h := isNearest_twoPowNeg hd
  have hx := worth_eq_of_isNearest (a := 1) (s := unitExp - d) (by decide)
    ((Nat.sub_le _ _).trans (by decide)) (by simpa using h)
  simpa using hx

@[simp] theorem isNeg_twoPowNeg (d : ℕ) : (twoPowNeg d).isNeg = false := by
  unfold twoPowNeg
  split_ifs
  · exact isNeg_zero _
  · exact isNeg_ofMag _ (nearestDyadic_lt _ _ _)

/-! Positive words -/

theorem zero_lt_iff : zero false < x ↔ x.isNaN = false ∧ x.isNeg = false ∧ 0 < x.mag := by
  rw [lt_iff, key_zero]
  constructor
  · rintro ⟨-, hx, hkey⟩
    have hn := isNeg_of_key_pos hkey
    rw [key_of_not_isNeg hn] at hkey
    exact ⟨hx, hn, by exact_mod_cast hkey⟩
  · rintro ⟨hx, hn, hmag⟩
    rw [key_of_not_isNeg hn]
    exact ⟨isNaN_of_isFinite (isFinite_zero _), hx, by exact_mod_cast hmag⟩

/-! Exponents -/

/-- The largest exponent whose exponential is one. -/
def faint : Binary64 := twoPowNeg 54

/-- An exponent whose exponential vanishes. -/
def exhausting : Binary64 := ofNat (2 ^ 11)

theorem worth_exhausting : exhausting.worth = 2 ^ 11 * 2 ^ unitExp := by
  rw [exhausting, worth_ofNat (by decide)]
  norm_num

end Binary64

open Binary64

/-- A library whose functions keep order, and have the signs, the ranges and the exact values that
are documented. -/
class LawfulMathLibrary [MathLibrary] : Prop where
  exp_mono {x y : Binary64} : x ≤ y → exp x ≤ exp y
  isNeg_exp {x : Binary64} : x.isNaN = false → (exp x).isNeg = false
  exp_nan {x : Binary64} : x.isNaN = true → (exp x).isNaN = true
  exp_zero : exp (zero false) = one
  exp_neg_exhausting : exp (-exhausting) = zero false
  exp_neg_faint : exp (-faint) = one
  /-- The next word makes a difference. -/
  exp_neg_faint_succ : ¬one ≤ exp (-ofMag false (faint.mag + 1))
  lnKeep_zero : lnKeep 0 = inf true
  isFinite_lnKeep_one : (lnKeep 1).isFinite = true
  isNeg_lnKeep (j : ℕ) : (lnKeep j).isNeg = true
  /-- Half of a share leaves more than all of it. -/
  lnKeep_le_succ (j : ℕ) : lnKeep j ≤ lnKeep (j + 1)
  log10_mono {x y : Binary64} : zero false < x → y.isFinite = true → x ≤ y → log10 x ≤ log10 y
  /-- The least and the greatest word lie between these powers of ten. -/
  log10_bounds {x : Binary64} : x.isFinite = true → zero false < x →
    -ofNat 324 ≤ log10 x ∧ log10 x ≤ ofNat 309
  log10_lt_zero {x : Binary64} : zero false < x → x < one → log10 x < zero false
  isNeg_log10 {x : Binary64} : x.isFinite = true → one ≤ x → (log10 x).isNeg = false

namespace Binary64

export LawfulMathLibrary (exp_mono isNeg_exp exp_nan exp_zero exp_neg_faint exp_neg_faint_succ
  lnKeep_zero isNeg_lnKeep lnKeep_le_succ log10_mono)

attribute [simp] isNeg_exp isNeg_lnKeep

variable [MathLibrary] [LawfulMathLibrary] {x y : Binary64} {j k : ℕ}

/-! The exponential -/

@[simp] theorem isNaN_exp (hx : x.isNaN = false) : (exp x).isNaN = false :=
  (le_iff.mp (exp_mono (Binary64.le_refl hx))).1

/-- What is not positive has its exponential in the unit interval. -/
theorem exp_le_one (h : x ≤ zero false) : exp x ≤ one := exp_zero ▸ exp_mono h

/-- Both zeros have the exponential one. -/
theorem exp_of_isZero (h : x.isZero = true) : exp x = one := by
  have hmag := isZero_iff.mp h
  have hx : x.isNaN = false := isNaN_eq_false_iff.mpr (by omega)
  have hkey : x.key = (zero false).key := by
    rw [key_zero, ← Int.natAbs_eq_zero, natAbs_key, hmag]
  have hz : (zero false).isNaN = false := isNaN_of_isFinite (isFinite_zero _)
  have hle := key_le (exp_mono (le_of_key hx hz hkey.le))
  have hge := key_le (exp_mono (le_of_key hz hx hkey.ge))
  rw [exp_zero] at hle hge
  exact eq_of_key_eq (isNeg_exp hx) isNeg_one (le_antisymm hle hge)

/-- From one exponent on nothing is left of the exponential. -/
theorem exp_neg_of_exhausting_le (h : exhausting ≤ x) : exp (-x) = zero false := by
  obtain ⟨hnan, hx, hkey⟩ := le_iff.mp h
  have hneg : -x ≤ -exhausting := le_of_key (by simpa using hx) (by simpa using hnan) (by simpa)
  have hle := exp_mono hneg
  rw [LawfulMathLibrary.exp_neg_exhausting, le_zero_iff, isNeg_exp (by simpa using hx)] at hle
  exact ext_mag (by rw [isNeg_exp (by simpa using hx), isNeg_zero]) (by simpa using hle.2)

/-! The logarithm of what a share leaves -/

@[simp] theorem isNaN_lnKeep (j : ℕ) : (lnKeep j).isNaN = false := (le_iff.mp (lnKeep_le_succ j)).1

theorem lnKeep_mono (hjk : j ≤ k) : lnKeep j ≤ lnKeep k := by
  induction k, hjk using Nat.le_induction with
  | base => exact Binary64.le_refl (isNaN_lnKeep j)
  | succ k _ ih => exact Binary64.le_trans ih (lnKeep_le_succ k)

/-- Only the whole leaves nothing. -/
theorem isFinite_lnKeep (hj : 0 < j) : (lnKeep j).isFinite = true := by
  have hfirst := isFinite_iff.mp LawfulMathLibrary.isFinite_lnKeep_one
  have hkey := key_le (lnKeep_mono (show 1 ≤ j from hj))
  rw [key_of_isNeg (isNeg_lnKeep 1), key_of_isNeg (isNeg_lnKeep j)] at hkey
  exact isFinite_iff.mpr (by omega)

/-! The decimal logarithm -/

theorem abs_log10_le (hx : x.isFinite = true) (h0 : zero false < x) :
    |(log10 x).worth| ≤ 324 * 2 ^ unitExp := by
  obtain ⟨hlow, hhigh⟩ := LawfulMathLibrary.log10_bounds hx h0
  have h1 := worth_le_worth hlow
  have h2 := worth_le_worth hhigh
  rw [worth_neg, worth_ofNat (by decide)] at h1
  rw [worth_ofNat (by decide)] at h2
  push_cast at h1 h2
  have hone : (0 : ℚ) ≤ 2 ^ unitExp := by positivity
  exact abs_le.mpr ⟨h1, h2.trans (mul_le_mul_of_nonneg_right (by norm_num) hone)⟩

theorem isFinite_log10 (hx : x.isFinite = true) (h0 : zero false < x) :
    (log10 x).isFinite = true := by
  have hone : (0 : ℚ) ≤ 2 ^ unitExp := by positivity
  apply isFinite_of_worth_le
  exact (abs_log10_le hx h0).trans (mul_le_mul_of_nonneg_right (by norm_num) hone)

theorem worth_log10_neg (h0 : zero false < x) (h : x < one) : (log10 x).worth < 0 := by
  have hkey := (lt_iff.mp (LawfulMathLibrary.log10_lt_zero h0 h)).2.2
  rw [key_zero] at hkey
  rw [worth, ← worthAt_zero]
  exact worthAt_lt_iff.mpr hkey

/-- Exactly the logarithms of what is less than one have a minus sign. -/
theorem isNeg_log10_iff (hx : x.isFinite = true) (h0 : zero false < x) :
    (log10 x).isNeg = true ↔ x < one := by
  constructor
  · intro hneg
    by_contra hge
    have hone : one ≤ x := by
      by_contra hle
      exact hge ((Binary64.not_le (isNaN_of_isFinite isFinite_one) (isNaN_of_isFinite hx)).mp hle)
    rw [LawfulMathLibrary.isNeg_log10 hx hone] at hneg
    cases hneg
  · intro hlt
    have hkey := (lt_iff.mp (LawfulMathLibrary.log10_lt_zero h0 hlt)).2.2
    exact isNeg_of_key_neg (by simpa using hkey)

end Binary64
end BucketOverflow
