import BucketOverflow.Binary64.Basic
import Mathlib.Tactic

/-! Signs, magnitudes and the order of words. A word is its sign and its magnitude, and every
comparison of words that are not NaN is one of integer keys. -/
namespace BucketOverflow.Binary64

variable {x y z : Binary64}

theorem signBit_toNat : signBit.toNat = 2 ^ 63 := rfl

theorem infinite_lt : infinite < 2 ^ 63 := by decide

theorem mag_eq (x : Binary64) : x.mag = x.bits.toNat % 2 ^ 63 := by
  rw [mag, UInt64.toNat_mod, signBit_toNat]

theorem mag_lt (x : Binary64) : x.mag < 2 ^ 63 := by
  rw [mag_eq]
  exact Nat.mod_lt _ (by decide)

theorem isNeg_iff (x : Binary64) : x.isNeg = true ↔ 2 ^ 63 ≤ x.bits.toNat := by
  rw [isNeg, decide_eq_true_iff, UInt64.le_iff_toNat_le, signBit_toNat]

theorem ofMag_bits (neg : Bool) {m : ℕ} (hm : m < 2 ^ 63) :
    (ofMag neg m).bits.toNat = (if neg then 2 ^ 63 else 0) + m := by
  have hofNat : (UInt64.ofNat m).toNat = m := by
    rw [UInt64.toNat_ofNat', Nat.mod_eq_of_lt (by omega)]
  unfold ofMag
  rw [UInt64.toNat_add, hofNat]
  cases neg with
  | false =>
    simp only [Bool.false_eq_true, ↓reduceIte, UInt64.toNat_zero]
    omega
  | true =>
    simp only [↓reduceIte, signBit_toNat]
    omega

theorem mag_ofMag (neg : Bool) {m : ℕ} (hm : m < 2 ^ 63) : (ofMag neg m).mag = m := by
  rw [mag_eq, ofMag_bits neg hm]
  cases neg <;> simp only [Bool.false_eq_true, ↓reduceIte] <;> omega

theorem isNeg_ofMag (neg : Bool) {m : ℕ} (hm : m < 2 ^ 63) : (ofMag neg m).isNeg = neg := by
  rw [Bool.eq_iff_iff, isNeg_iff, ofMag_bits neg hm]
  cases neg with
  | false => simpa using hm
  | true => simp

/-- A word is determined by its sign and its magnitude. -/
theorem ext_mag (hn : x.isNeg = y.isNeg) (hm : x.mag = y.mag) : x = y := by
  have hsign : 2 ^ 63 ≤ x.bits.toNat ↔ 2 ^ 63 ≤ y.bits.toNat := by
    rw [← isNeg_iff, ← isNeg_iff, hn]
  have hx := x.bits.toNat_lt
  have hy := y.bits.toNat_lt
  rw [mag_eq, mag_eq] at hm
  have hbits : x.bits = y.bits := UInt64.toNat_inj.mp (by omega)
  cases x
  cases y
  simpa using hbits

@[simp] theorem ofMag_self (x : Binary64) : ofMag x.isNeg x.mag = x :=
  ext_mag (isNeg_ofMag _ x.mag_lt) (mag_ofMag _ x.mag_lt)

@[simp] theorem mag_withSign (neg : Bool) (x : Binary64) : (x.withSign neg).mag = x.mag :=
  mag_ofMag neg x.mag_lt

@[simp] theorem isNeg_withSign (neg : Bool) (x : Binary64) : (x.withSign neg).isNeg = neg :=
  isNeg_ofMag neg x.mag_lt

@[simp] theorem mag_neg (x : Binary64) : (-x).mag = x.mag := mag_withSign _ x

@[simp] theorem isNeg_neg (x : Binary64) : (-x).isNeg = !x.isNeg := isNeg_withSign _ x

@[simp] theorem mag_abs (x : Binary64) : x.abs.mag = x.mag := mag_withSign _ x

@[simp] theorem isNeg_abs (x : Binary64) : x.abs.isNeg = false := isNeg_withSign _ x

theorem abs_of_not_isNeg (h : x.isNeg = false) : x.abs = x :=
  ext_mag (by rw [isNeg_abs, h]) (mag_abs x)

@[simp] theorem mag_zero (neg : Bool) : (zero neg).mag = 0 := mag_ofMag neg (by decide)

@[simp] theorem isNeg_zero (neg : Bool) : (zero neg).isNeg = neg := isNeg_ofMag neg (by decide)

@[simp] theorem mag_inf (neg : Bool) : (inf neg).mag = infinite := mag_ofMag neg infinite_lt

@[simp] theorem isNeg_inf (neg : Bool) : (inf neg).isNeg = neg := isNeg_ofMag neg infinite_lt

@[simp] theorem isNeg_one : one.isNeg = false := rfl

theorem isFinite_iff : x.isFinite = true ↔ x.mag < infinite := decide_eq_true_iff

theorem isNaN_eq_false_iff : x.isNaN = false ↔ x.mag ≤ infinite := by
  rw [isNaN, decide_eq_false_iff_not, not_lt]

theorem isInf_iff : x.isInf = true ↔ x.mag = infinite := beq_iff_eq

theorem isZero_iff : x.isZero = true ↔ x.mag = 0 := beq_iff_eq

theorem isNaN_of_isFinite (h : x.isFinite = true) : x.isNaN = false :=
  isNaN_eq_false_iff.mpr (isFinite_iff.mp h).le

theorem isInf_of_isFinite (h : x.isFinite = true) : x.isInf = false := by
  rw [isFinite_iff] at h
  simpa [isInf] using h.ne

theorem isFinite_of_not_isInf (hx : x.isNaN = false) (hinf : ¬x.isInf = true) :
    x.isFinite = true := by
  rw [isInf_iff] at hinf
  have := isNaN_eq_false_iff.mp hx
  exact isFinite_iff.mpr (by omega)

@[simp] theorem isFinite_zero (neg : Bool) : (zero neg).isFinite = true := by
  rw [isFinite_iff, mag_zero]
  decide

@[simp] theorem isFinite_one : one.isFinite = true := rfl

@[simp] theorem isFinite_neg (x : Binary64) : (-x).isFinite = x.isFinite := by
  simp [isFinite]

@[simp] theorem isNaN_neg (x : Binary64) : (-x).isNaN = x.isNaN := by simp [isNaN]

@[simp] theorem isFinite_abs (x : Binary64) : x.abs.isFinite = x.isFinite := by simp [isFinite]

@[simp] theorem isNaN_abs (x : Binary64) : x.abs.isNaN = x.isNaN := by simp [isNaN]

@[simp] theorem isInf_neg (x : Binary64) : (-x).isInf = x.isInf := by simp [isInf]

/-! Keys -/

theorem key_of_isNeg (h : x.isNeg = true) : x.key = -(x.mag : ℤ) := by simp [key, h]

theorem key_of_not_isNeg (h : x.isNeg = false) : x.key = (x.mag : ℤ) := by simp [key, h]

@[simp] theorem key_neg (x : Binary64) : (-x).key = -x.key := by
  cases h : x.isNeg <;> simp [key, h]

@[simp] theorem key_zero (neg : Bool) : (zero neg).key = 0 := by simp [key]

@[simp] theorem natAbs_key (x : Binary64) : x.key.natAbs = x.mag := by
  cases h : x.isNeg <;> simp [key, h]

theorem isNeg_of_key_neg (h : x.key < 0) : x.isNeg = true := by
  by_contra hn
  rw [key_of_not_isNeg (by simpa using hn)] at h
  omega

theorem isNeg_of_key_pos (h : 0 < x.key) : x.isNeg = false := by
  by_contra hn
  rw [key_of_isNeg (by simpa using hn)] at h
  omega

theorem le_iff : x ≤ y ↔ x.isNaN = false ∧ y.isNaN = false ∧ x.key ≤ y.key := by
  change x.le y = true ↔ _
  simp [le, and_assoc]

theorem lt_iff : x < y ↔ x.isNaN = false ∧ y.isNaN = false ∧ x.key < y.key := by
  change x.lt y = true ↔ _
  simp [lt, and_assoc]

theorem eqv_iff : x.eqv y = true ↔ x.isNaN = false ∧ y.isNaN = false ∧ x.key = y.key := by
  rw [eqv, Bool.and_eq_true]
  change x ≤ y ∧ y ≤ x ↔ _
  rw [le_iff, le_iff, le_antisymm_iff (a := x.key)]
  tauto

theorem le_of_key (hx : x.isNaN = false) (hy : y.isNaN = false) (h : x.key ≤ y.key) : x ≤ y :=
  le_iff.mpr ⟨hx, hy, h⟩

theorem key_le (h : x ≤ y) : x.key ≤ y.key := (le_iff.mp h).2.2

protected theorem le_refl (hx : x.isNaN = false) : x ≤ x := le_of_key hx hx le_rfl

protected theorem le_trans (hxy : x ≤ y) (hyz : y ≤ z) : x ≤ z :=
  le_of_key (le_iff.mp hxy).1 (le_iff.mp hyz).2.1 ((key_le hxy).trans (key_le hyz))

protected theorem not_le (hx : x.isNaN = false) (hy : y.isNaN = false) : ¬x ≤ y ↔ y < x := by
  simp [le_iff, lt_iff, hx, hy]

/-- Above the positive zero lie the words without sign, and the other zero. -/
theorem le_zero_iff : x ≤ zero false ↔ x.isNaN = false ∧ (x.isNeg = true ∨ x.mag = 0) := by
  have hz : (zero false).isNaN = false := isNaN_of_isFinite (isFinite_zero _)
  simp only [le_iff, hz, key_zero, true_and, and_congr_right_iff]
  intro _
  cases h : x.isNeg with
  | false => simp [key_of_not_isNeg h]
  | true => simp [key_of_isNeg h]

theorem zero_le_of_not_isNeg (hx : x.isNaN = false) (hn : x.isNeg = false) : zero false ≤ x := by
  apply le_of_key (isNaN_of_isFinite (isFinite_zero _)) hx
  rw [key_zero, key_of_not_isNeg hn]
  omega

theorem le_infinity (hx : x.isNaN = false) : x ≤ inf false := by
  have hm := isNaN_eq_false_iff.mp hx
  apply le_of_key hx (isNaN_eq_false_iff.mpr (by simp))
  rw [key_of_not_isNeg (isNeg_inf _), mag_inf]
  have := natAbs_key x
  omega

theorem negInf_le (hx : x.isNaN = false) : inf true ≤ x := by
  have hm := isNaN_eq_false_iff.mp hx
  apply le_of_key (isNaN_eq_false_iff.mpr (by simp)) hx
  rw [key_of_isNeg (isNeg_inf _), mag_inf]
  have := natAbs_key x
  omega

theorem eq_of_key_eq (hx : x.isNeg = false) (hy : y.isNeg = false) (h : x.key = y.key) :
    x = y := by
  rw [key_of_not_isNeg hx, key_of_not_isNeg hy] at h
  exact ext_mag (hx.trans hy.symm) (by exact_mod_cast h)

end BucketOverflow.Binary64
