import Mathlib.Algebra.Order.Field.Power
import BucketOverflow.Decimal.Digits
import BucketOverflow.Proofs.Binary64.Nearest
import BucketOverflow.Proofs.Text.Digits

/-! The worth of a decimal, and the exponent of the leading digit of a magnitude. The exponent is
estimated from the number of bits and corrected by one comparison. -/
namespace BucketOverflow
open Binary64

/-- A power of ten as a quotient of natural powers. -/
theorem ten_zpow (e : ℤ) : (10 : ℚ) ^ e = 10 ^ e.toNat / 10 ^ (-e).toNat := by
  rw [eq_div_iff (by positivity), ← zpow_natCast, ← zpow_natCast, ← zpow_add₀ (by norm_num)]
  congr 1
  omega

theorem ten_zpow_pos (e : ℤ) : (0 : ℚ) < 10 ^ e := zpow_pos (by norm_num) e

theorem ten_zpow_succ (e : ℤ) : (10 : ℚ) ^ (e + 1) = 10 ^ e * 10 := zpow_add_one₀ (by norm_num) e

theorem ten_zpow_sub_mul (e : ℤ) (k : ℕ) : (10 : ℚ) ^ (e - k) * 10 ^ k = 10 ^ e := by
  rw [← zpow_natCast, ← zpow_add₀ (by norm_num), sub_add_cancel]

theorem ten_zpow_lt_iff {a b : ℤ} : (10 : ℚ) ^ a < 10 ^ b ↔ a < b :=
  zpow_lt_zpow_iff_right₀ (by norm_num)

/-- Powers of ten are compared across the unit by whole numbers. -/
theorem ten_zpow_mul_le_iff (e : ℤ) (a b : ℕ) :
    (10 : ℚ) ^ e * a ≤ b ↔ 10 ^ e.toNat * a ≤ b * 10 ^ (-e).toNat := by
  rw [ten_zpow, div_mul_eq_mul_div, div_le_iff₀ (by positivity)]
  exact_mod_cast Iff.rfl

theorem le_ten_zpow_mul_iff (e : ℤ) (a b : ℕ) :
    (b : ℚ) ≤ 10 ^ e * a ↔ b * 10 ^ (-e).toNat ≤ 10 ^ e.toNat * a := by
  rw [ten_zpow, div_mul_eq_mul_div, le_div_iff₀ (by positivity)]
  exact_mod_cast Iff.rfl

namespace Decimal

/-- The worth of a decimal in units. -/
def worth (d : Decimal) : ℚ := d.digits * 10 ^ d.exp * 2 ^ unitExp

theorem worth_nonneg (d : Decimal) : 0 ≤ d.worth := by
  have := ten_zpow_pos d.exp
  unfold worth
  positivity

/-- Ten times the digits is one more in the exponent. -/
theorem worth_mul_ten (n : ℕ) (e : ℤ) : worth ⟨n * 10, e⟩ = worth ⟨n, e + 1⟩ := by
  simp only [worth, ten_zpow_succ]
  push_cast
  ring

theorem multiples_eq (mag : ℕ) (g : ℤ) : multiples mag g =
    halfEven (units mag * 10 ^ (-g).toNat) (10 ^ g.toNat * 2 ^ unitExp) := by
  rw [← Nat.shiftLeft_eq]
  rfl

/-! The leading digit -/

/-- The estimate of the leading exponent of a number of so many bits above the point. -/
def estimate (bits : ℤ) : ℤ := bits * 78913 / 0x40000

/-- The estimate is exact or one too low, for every number of bits that a magnitude can have. -/
theorem estimate_table : ∀ b ∈ List.range 2098,
    10 ^ (estimate (b - 1074)).toNat * 2 ^ 1074 ≤ 2 ^ b * 10 ^ (-estimate (b - 1074)).toNat ∧
      2 ^ (b + 1) * 10 ^ (-(estimate (b - 1074) + 2)).toNat ≤
        10 ^ (estimate (b - 1074) + 2).toNat * 2 ^ 1074 := by
  decide +kernel

theorem estimate_spec {u : ℕ} (h0 : 0 < u) (h : u < 2 ^ (1024 + unitExp)) :
    10 ^ estimate (u.log2 - unitExp) * 2 ^ unitExp ≤ (u : ℚ) ∧
      (u : ℚ) < 10 ^ (estimate (u.log2 - unitExp) + 2) * 2 ^ unitExp := by
  have hb : u.log2 < 1024 + unitExp := (Nat.log2_lt h0.ne').mpr h
  obtain ⟨hlow, hhigh⟩ := estimate_table u.log2 (List.mem_range.mpr hb)
  rw [show ((unitExp : ℕ) : ℤ) = 1074 from rfl]
  rw [show (1074 : ℕ) = unitExp from rfl] at hlow hhigh
  generalize estimate (u.log2 - 1074) = e at *
  have hpow : ((2 ^ unitExp : ℕ) : ℚ) = 2 ^ unitExp := Nat.cast_pow 2 unitExp
  constructor
  · calc (10 : ℚ) ^ e * 2 ^ unitExp = 10 ^ e * (2 ^ unitExp : ℕ) := by rw [hpow]
      _ ≤ (2 ^ u.log2 : ℕ) := (ten_zpow_mul_le_iff e _ _).mpr hlow
      _ ≤ u := by exact_mod_cast Nat.log2_self_le h0.ne'
  · calc (u : ℚ) < (2 ^ (u.log2 + 1) : ℕ) := by exact_mod_cast Nat.lt_log2_self
      _ ≤ 10 ^ (e + 2) * (2 ^ unitExp : ℕ) := (le_ten_zpow_mul_iff (e + 2) _ _).mpr hhigh
      _ = 10 ^ (e + 2) * 2 ^ unitExp := by rw [hpow]

theorem units_lt_top {mag : ℕ} (h : mag < infinite) : units mag < 2 ^ (1024 + unitExp) := by
  rw [← units_infinite]
  exact units_strictMono h

/-- A positive finite magnitude lies between the power of ten of its leading digit and the next. -/
theorem leading_spec {mag : ℕ} (h0 : 0 < mag) (h : mag < infinite) :
    10 ^ leading mag * 2 ^ unitExp ≤ (units mag : ℚ) ∧
      (units mag : ℚ) < 10 ^ (leading mag + 1) * 2 ^ unitExp := by
  obtain ⟨hlow, hhigh⟩ := estimate_spec (units_pos h0) (units_lt_top h)
  have hdef : leading mag = if 10 ^ (estimate ((units mag).log2 - unitExp) + 1).toNat <<< unitExp ≤
      units mag * 10 ^ (-(estimate ((units mag).log2 - unitExp) + 1)).toNat
      then estimate ((units mag).log2 - unitExp) + 1
      else estimate ((units mag).log2 - unitExp) := rfl
  have hpow : ((2 ^ unitExp : ℕ) : ℚ) = 2 ^ unitExp := Nat.cast_pow 2 unitExp
  have htest := ten_zpow_mul_le_iff (estimate ((units mag).log2 - unitExp) + 1) (2 ^ unitExp)
    (units mag)
  rw [hdef, Nat.shiftLeft_eq]
  generalize estimate ((units mag).log2 - unitExp) = e at *
  rw [hpow] at htest
  split_ifs with ht
  · rw [show e + 1 + 1 = e + 2 by omega]
    exact ⟨htest.mpr ht, hhigh⟩
  · exact ⟨hlow, not_le.mp (mt htest.mp ht)⟩

theorem leading_lt {mag : ℕ} {k : ℤ} (h0 : 0 < mag) (h : mag < infinite)
    (hk : (units mag : ℚ) < 10 ^ k * 2 ^ unitExp) : leading mag < k := by
  have hp : (0 : ℚ) < 2 ^ unitExp := pow_pos (by norm_num) _
  exact ten_zpow_lt_iff.mp (lt_of_mul_lt_mul_right ((leading_spec h0 h).1.trans_lt hk) hp.le)

theorem lt_leading {mag : ℕ} {k : ℤ} (h0 : 0 < mag) (h : mag < infinite)
    (hk : 10 ^ k * 2 ^ unitExp ≤ (units mag : ℚ)) : k ≤ leading mag := by
  have hp : (0 : ℚ) < 2 ^ unitExp := pow_pos (by norm_num) _
  have := lt_of_mul_lt_mul_right (hk.trans_lt (leading_spec h0 h).2) hp.le
  have := ten_zpow_lt_iff.mp this
  omega

/-- The leading exponents of all finite magnitudes. -/
theorem leading_bounds {mag : ℕ} (h0 : 0 < mag) (h : mag < infinite) :
    -324 ≤ leading mag ∧ leading mag < 309 := by
  have hp : ((2 ^ unitExp : ℕ) : ℚ) = 2 ^ unitExp := Nat.cast_pow 2 unitExp
  constructor
  · apply lt_leading h0 h
    rw [← hp, ten_zpow_mul_le_iff]
    have hstep : 10 ^ (-324 : ℤ).toNat * 2 ^ unitExp ≤ 10 ^ (-(-324 : ℤ)).toNat := by
      decide +kernel
    exact hstep.trans (Nat.le_mul_of_pos_left _ (units_pos h0))
  · apply leading_lt h0 h
    refine (Nat.cast_lt.mpr (units_lt_top h)).trans_le ?_
    rw [← hp, le_ten_zpow_mul_iff]
    decide +kernel

end Decimal
end BucketOverflow
