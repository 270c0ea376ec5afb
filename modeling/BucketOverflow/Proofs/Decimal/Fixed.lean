import BucketOverflow.Decimal.Layout
import BucketOverflow.Proofs.Binary64.Whole
import BucketOverflow.Proofs.Decimal.Leading

/-! Values with one digit behind the point. Near a whole number, below half of what the digit is
worth, this number is written; a minus sign in front of zero is that of the word. -/
namespace BucketOverflow
open Text Binary64

variable {mag n : ℕ} {k : ℤ} {x : Binary64}

/-- A magnitude within a twentieth of a whole number rounds to ten times as many tenths. -/
theorem Decimal.multiples_tenths (hlow : 20 * (n * 2 ^ unitExp) < 20 * units mag + 2 ^ unitExp)
    (hhigh : 20 * units mag < 20 * (n * 2 ^ unitExp) + 2 ^ unitExp) :
    multiples mag (-1) = n * 10 := by
  have hup : (-(-1 : ℤ)).toNat = 1 := rfl
  have hdown : (-1 : ℤ).toNat = 0 := rfl
  have hone : 0 < 2 ^ unitExp := by positivity
  rw [multiples_eq, hup, hdown, pow_one, pow_zero, one_mul]
  refine eq_of_forall_lt_iff fun j => ?_
  rw [lt_halfEven_iff hone]
  generalize 2 ^ unitExp = unit at *
  generalize units mag = u at *
  have htwenty : (20 * n) * unit = 20 * (n * unit) := by ring
  have hscale {a b : ℕ} (h : a ≤ b) : a * unit ≤ b * unit := Nat.mul_le_mul_right unit h
  constructor
  · intro h
    by_contra hge
    have hmul := hscale (show 20 * n + 1 ≤ 2 * j + 1 by omega)
    rw [Nat.add_mul, htwenty] at hmul
    omega
  · intro h
    have hmul := hscale (show 2 * j + 1 + 1 ≤ 20 * n by omega)
    rw [Nat.add_mul, htwenty] at hmul
    left
    omega

theorem decimalPad_tenths (n : ℕ) : decimalPad (1 + 1) (n * 10) = decimal n ++ ['0'] := by
  rcases Nat.eq_zero_or_pos n with rfl | hn
  · rw [decimalPad, Nat.zero_mul, decimal_of_lt (by decide)]
    rfl
  · have hpos := length_decimal_pos n
    rw [decimalPad, padLeft, decimal_mul_ten hn, List.length_append, List.length_singleton]
    have hnone : 1 + 1 - ((decimal n).length + 1) = 0 := by omega
    rw [hnone, List.replicate_zero, List.nil_append]

theorem fixedPlaces_whole (h : Decimal.multiples mag (-1) = n * 10) :
    fixedPlaces 1 mag = decimal n ++ ".0".toList := by
  have hlen : (decimal n ++ ['0']).length - 1 = (decimal n).length := by
    rw [List.length_append, List.length_singleton, Nat.add_sub_cancel]
  have hplaces : -((1 : ℕ) : ℤ) = -1 := rfl
  unfold fixedPlaces
  simp only [hplaces, h, decimalPad_tenths, hlen, List.take_left, List.drop_left]
  rfl

/-- A whole number with one zero behind the point. -/
def wholeText (k : ℤ) : List Char := signedDecimal k ++ ".0".toList

/-- Close to a whole number, not further than a thirty-second. -/
def Beside (x : Binary64) (k : ℤ) : Prop := |x.worth - k * 2 ^ unitExp| ≤ 2 ^ unitExp / 32

/-- Rounding leads no further away: the bounds have few bits. -/
theorem beside_of_isNearest {q : ℚ} (hx : IsNearest x q) (hk : k.natAbs ≤ 2 ^ 40)
    (h : |q - k * 2 ^ unitExp| ≤ 2 ^ unitExp / 32) : Beside x k := by
  have hplace : (2 : ℚ) ^ unitExp = 32 * 2 ^ (unitExp - 5) := by
    have hsum : 5 + (unitExp - 5) = unitExp := rfl
    rw [← hsum, pow_add]
    norm_num
  have hbits : (2 : ℕ) ^ 53 = 2 * hiddenBit := by rw [hiddenBit_eq, ← pow_succ']
  have hbelow : (32 * k - 1).natAbs ≤ 2 * hiddenBit := by omega
  have habove : (32 * k + 1).natAbs ≤ 2 * hiddenBit := by omega
  have hs : unitExp - 5 ≤ 2045 := by decide
  rw [Beside, abs_le]
  rw [abs_le] at h
  obtain ⟨hlow, hhigh⟩ := h
  have hbetween := hx.worth_between hbelow habove hs
  rw [hplace] at hlow hhigh ⊢
  push_cast at hbetween
  generalize (2 : ℚ) ^ (unitExp - 5) = place at *
  obtain ⟨hge, hle⟩ := hbetween (by linarith) (by linarith)
  constructor <;> linarith

theorem Beside.isFinite (h : Beside x k) (hk : k.natAbs ≤ 2 ^ 40) : x.isFinite = true := by
  have hone : (0 : ℚ) < 2 ^ unitExp := by positivity
  have hwhole : |k * (2 : ℚ) ^ unitExp| ≤ 2 ^ 40 * 2 ^ unitExp := by
    rw [abs_mul, abs_of_pos hone, ← Int.cast_abs, ← Nat.cast_natAbs]
    exact mul_le_mul_of_nonneg_right (by exact_mod_cast hk) hone.le
  have hsum := (abs_sub_abs_le_abs_sub x.worth (k * 2 ^ unitExp)).trans h
  apply isFinite_of_worth_le
  linarith

theorem Beside.fixedPlaces_eq (h : Beside x k) :
    fixedPlaces 1 x.mag = decimal k.natAbs ++ ".0".toList := by
  have hone : (0 : ℚ) < 2 ^ unitExp := by positivity
  have hcast : ((2 ^ unitExp : ℕ) : ℚ) = 2 ^ unitExp := Nat.cast_pow 2 unitExp
  have hmag : |x.worth| = units x.mag := by
    rw [worth_eq_units]
    split_ifs
    · rw [abs_neg, Nat.abs_cast]
    · exact Nat.abs_cast _
  have hwhole : |k * (2 : ℚ) ^ unitExp| = k.natAbs * 2 ^ unitExp := by
    rw [abs_mul, abs_of_pos hone, Nat.cast_natAbs, Int.cast_abs]
  have hnear := (abs_abs_sub_abs_le x.worth (k * 2 ^ unitExp)).trans h
  rw [hmag, hwhole, abs_le] at hnear
  obtain ⟨hlow, hhigh⟩ := hnear
  refine fixedPlaces_whole (Decimal.multiples_tenths ?_ ?_)
  · rw [← Nat.cast_lt (α := ℚ)]
    push_cast
    linarith
  · rw [← Nat.cast_lt (α := ℚ)]
    push_cast
    linarith

/-- The sign of a word beside another number than zero is that of the number. -/
theorem Beside.isNeg_iff (h : Beside x k) (hk : k ≠ 0) : x.isNeg = true ↔ k < 0 := by
  have hone : (0 : ℚ) < 2 ^ unitExp := by positivity
  have hunits : (0 : ℚ) ≤ units x.mag := Nat.cast_nonneg _
  obtain ⟨hlow, hhigh⟩ := abs_le.mp h
  constructor
  · intro hn
    rw [worth_of_isNeg hn] at hlow
    by_contra hneg
    have hge : (1 : ℚ) ≤ k := by exact_mod_cast (show 1 ≤ k by omega)
    have hmul : 1 * (2 : ℚ) ^ unitExp ≤ k * 2 ^ unitExp := mul_le_mul_of_nonneg_right hge hone.le
    linarith
  · intro hneg
    by_contra hn
    rw [worth_of_not_isNeg (Bool.eq_false_iff.mpr hn)] at hhigh
    have hle : (k : ℚ) ≤ -1 := by exact_mod_cast (show k ≤ -1 by omega)
    have hmul : k * (2 : ℚ) ^ unitExp ≤ -1 * 2 ^ unitExp := mul_le_mul_of_nonneg_right hle hone.le
    linarith

/-- Beside a whole number it is this number that is written, but zero keeps the sign of the word. -/
theorem Beside.signed_eq (h : Beside x k) (hk : k.natAbs ≤ 2 ^ 40) :
    x.signed [] (fixedPlaces 1) =
      if k = 0 ∧ x.isNeg = true then "-0.0".toList else wholeText k := by
  have hx := h.isFinite hk
  have hsign : x.signed [] (fixedPlaces 1) =
      (if x.isNeg = true then ['-'] else []) ++ (decimal k.natAbs ++ ".0".toList) := by
    simp only [signed, isNaN_of_isFinite hx, isInf_of_isFinite hx, Bool.false_eq_true, if_false,
      h.fixedPlaces_eq]
  rw [hsign, wholeText, signedDecimal, List.append_assoc]
  by_cases h0 : k = 0
  · subst h0
    have hzero : decimal (0 : ℤ).natAbs = ['0'] := decimal_of_lt (by decide)
    rw [hzero]
    cases x.isNeg <;> rfl
  · have hnot : ¬(k = 0 ∧ x.isNeg = true) := fun hand => h0 hand.1
    rw [if_neg hnot]
    simp only [h.isNeg_iff h0]

end BucketOverflow
