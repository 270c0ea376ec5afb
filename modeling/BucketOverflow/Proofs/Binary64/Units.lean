import BucketOverflow.Binary64.Rounding
import BucketOverflow.Proofs.Binary64.Words

/-! The worth of a word in units. A magnitude is a binade and a significand in it; its worth grows
strictly, by the spacing of its binade at every step. -/
namespace BucketOverflow.Binary64

theorem hiddenBit_eq : hiddenBit = 2 ^ 52 := by decide

theorem units_eq (m : ℕ) : units m = significand m * 2 ^ shiftOf m := Nat.shiftLeft_eq _ _

theorem shiftOf_mono {m n : ℕ} (h : m ≤ n) : shiftOf m ≤ shiftOf n :=
  Nat.sub_le_sub_right (Nat.div_le_div_right h) 1

/-- Each magnitude splits into a binade and a significand. -/
theorem shiftOf_add_significand (m : ℕ) : shiftOf m * hiddenBit + significand m = m := by
  unfold significand shiftOf hiddenBit
  omega

theorem significand_lt (m : ℕ) : significand m < 2 * hiddenBit := by
  unfold significand shiftOf hiddenBit
  omega

/-- Above the first binade significands have their top bit. -/
theorem hiddenBit_le_significand (m : ℕ) : shiftOf m = 0 ∨ hiddenBit ≤ significand m := by
  unfold significand shiftOf hiddenBit
  omega

/-- The worth of a binade and a significand; a full significand opens the next binade. -/
theorem units_place {d h : ℕ} (hh : h ≤ 2 * hiddenBit) (hd : d = 0 ∨ hiddenBit ≤ h) :
    units (d * hiddenBit + h) = h * 2 ^ d := by
  rw [units_eq]
  rcases hh.lt_or_eq with hlt | rfl
  · have hs : shiftOf (d * hiddenBit + h) = d := by
      unfold shiftOf hiddenBit at *
      omega
    have hm : significand (d * hiddenBit + h) = h := by
      rw [significand, hs]
      omega
    rw [hs, hm]
  · have hs : shiftOf (d * hiddenBit + 2 * hiddenBit) = d + 1 := by
      unfold shiftOf hiddenBit
      omega
    have hm : significand (d * hiddenBit + 2 * hiddenBit) = hiddenBit := by
      rw [significand, hs]
      unfold hiddenBit
      omega
    rw [hs, hm]
    ring

@[simp] theorem units_zero : units 0 = 0 := rfl

theorem units_succ (m : ℕ) : units (m + 1) = units m + 2 ^ shiftOf m := by
  have hlt := significand_lt m
  have hle := hiddenBit_le_significand m
  have h := units_place (d := shiftOf m) (h := significand m + 1) (by omega) (by omega)
  rw [← Nat.add_assoc, shiftOf_add_significand] at h
  rw [h, units_eq]
  ring

theorem units_strictMono : StrictMono units := by
  apply strictMono_nat_of_lt_succ
  intro m
  rw [units_succ]
  exact Nat.lt_add_of_pos_right (by positivity)

theorem units_pos {m : ℕ} (hm : 0 < m) : 0 < units m := units_strictMono hm

theorem units_one : units one.mag = 2 ^ unitExp := by
  have h := units_place (d := 1022) (h := hiddenBit) (by decide) (.inr le_rfl)
  rw [show 1022 * hiddenBit + hiddenBit = one.mag from rfl] at h
  rw [h, hiddenBit_eq, ← pow_add, show 52 + 1022 = unitExp from rfl]

theorem units_infinite : units infinite = 2 ^ (1024 + unitExp) := by
  have h := units_place (d := 2046) (h := hiddenBit) (by decide) (.inr le_rfl)
  rw [show 2046 * hiddenBit + hiddenBit = infinite from rfl] at h
  rw [h, hiddenBit_eq, ← pow_add, show 52 + 2046 = 1024 + unitExp from rfl]

/-- Up to 53 bits on any unit below the top binade are the worth of a magnitude. -/
theorem exists_units {a : ℕ} (ha : a ≤ 2 * hiddenBit) {s : ℕ} (hs : s ≤ 2045) :
    ∃ m ≤ infinite, units m = a * 2 ^ s := by
  induction s generalizing a with
  | zero =>
    refine ⟨a, ha.trans (by decide), ?_⟩
    simpa using units_place (d := 0) ha (.inl rfl)
  | succ s ih =>
    rcases Nat.lt_or_ge a hiddenBit with hlt | hge
    · obtain ⟨m, hm, hu⟩ := ih (a := 2 * a) (by omega) (by omega)
      exact ⟨m, hm, by rw [hu]; ring⟩
    · refine ⟨(s + 1) * hiddenBit + a, ?_, units_place ha (.inr hge)⟩
      have htop : infinite = 2047 * hiddenBit := rfl
      have := Nat.mul_le_mul_right hiddenBit hs
      omega

/-- The worth at an integer key. -/
def worthAt (k : ℤ) : ℚ := k.sign * units k.natAbs

/-- The worth of a word in units; the worth of an infinity is where the next binade would begin. -/
def worth (x : Binary64) : ℚ := worthAt x.key

@[simp] theorem worthAt_zero : worthAt 0 = 0 := by simp [worthAt]

@[simp] theorem worthAt_natCast (m : ℕ) : worthAt m = units m := by
  rcases Nat.eq_zero_or_pos m with rfl | hm
  · simp
  · simp [worthAt, Int.sign_eq_one_of_pos (show (0 : ℤ) < m by exact_mod_cast hm)]

@[simp] theorem worthAt_neg (k : ℤ) : worthAt (-k) = -worthAt k := by simp [worthAt]

theorem worthAt_strictMono : StrictMono worthAt := by
  intro a b hab
  obtain ⟨m, rfl | rfl⟩ := a.eq_nat_or_neg <;> obtain ⟨n, rfl | rfl⟩ := b.eq_nat_or_neg <;>
    simp only [worthAt_neg, worthAt_natCast]
  · exact_mod_cast units_strictMono (by exact_mod_cast hab)
  · omega
  · have h : units 0 < units m + units n := by
      rcases Nat.eq_zero_or_pos m with rfl | hm
      · have := units_pos (show 0 < n by omega)
        simpa using this
      · have := units_pos hm
        simp only [units_zero]
        omega
    have : (0 : ℚ) < units m + units n := by exact_mod_cast h
    linarith
  · have : units n < units m := units_strictMono (by omega)
    have : (units n : ℚ) < units m := by exact_mod_cast this
    linarith

theorem worthAt_le_iff {a b : ℤ} : worthAt a ≤ worthAt b ↔ a ≤ b := worthAt_strictMono.le_iff_le

theorem worthAt_lt_iff {a b : ℤ} : worthAt a < worthAt b ↔ a < b := worthAt_strictMono.lt_iff_lt

@[simp] theorem worth_neg (x : Binary64) : (-x).worth = -x.worth := by simp [worth]

@[simp] theorem worth_zero (neg : Bool) : (zero neg).worth = 0 := by simp [worth]

theorem worth_one : one.worth = 2 ^ unitExp := by
  rw [worth, key_of_not_isNeg isNeg_one, worthAt_natCast, units_one]
  exact Nat.cast_pow 2 unitExp

theorem worth_of_isNeg {x : Binary64} (h : x.isNeg = true) : x.worth = -(units x.mag : ℚ) := by
  rw [worth, key_of_isNeg h, worthAt_neg, worthAt_natCast]

theorem worth_of_not_isNeg {x : Binary64} (h : x.isNeg = false) : x.worth = units x.mag := by
  rw [worth, key_of_not_isNeg h, worthAt_natCast]

theorem worth_nonneg {x : Binary64} (h : x.isNeg = false) : 0 ≤ x.worth := by
  rw [worth_of_not_isNeg h]
  positivity

theorem worth_le_worth {x y : Binary64} (h : x ≤ y) : x.worth ≤ y.worth :=
  worthAt_le_iff.mpr (key_le h)

theorem worth_lt_iff {x y : Binary64} (hx : x.isFinite = true) (hy : y.isFinite = true) :
    x < y ↔ x.worth < y.worth := by
  rw [lt_iff, worth, worth, worthAt_lt_iff]
  simp [isNaN_of_isFinite hx, isNaN_of_isFinite hy]

theorem isNeg_of_worth_pos {x : Binary64} (h : 0 < x.worth) : x.isNeg = false := by
  rw [worth, ← worthAt_zero, worthAt_lt_iff] at h
  exact isNeg_of_key_pos h

/-- A word without sign lies at least one spacing below a greater one; the spacing below any word up
to there will do. -/
theorem spacing_le {w x y : Binary64} (hx : x.isNeg = false) (hxy : x < y)
    (hw : w.isNeg = false) (hwy : w ≤ y) : (2 : ℚ) ^ shiftOf (w.mag - 1) ≤ y.worth - x.worth := by
  have hkey := (lt_iff.mp hxy).2.2
  have hle := key_le hwy
  rw [key_of_not_isNeg hx] at hkey
  have hy : y.isNeg = false := isNeg_of_key_pos (by omega)
  rw [key_of_not_isNeg hy] at hkey
  rw [key_of_not_isNeg hw, key_of_not_isNeg hy] at hle
  obtain ⟨m, hm⟩ : ∃ m, y.mag = m + 1 := ⟨y.mag - 1, by omega⟩
  have hbelow : units x.mag ≤ units m := units_strictMono.monotone (by omega)
  have hshift : 2 ^ shiftOf (w.mag - 1) ≤ 2 ^ shiftOf m :=
    Nat.pow_le_pow_right (by decide) (shiftOf_mono (by omega))
  have hstep := units_succ m
  rw [worth_of_not_isNeg hx, worth_of_not_isNeg hy, hm, le_sub_iff_add_le]
  exact_mod_cast (show 2 ^ shiftOf (w.mag - 1) + units x.mag ≤ units (m + 1) by omega)

/-- A finite word is its signed significand shifted by its scale. -/
theorem worth_eq_signedAt (x : Binary64) {s : ℕ} (hs : s ≤ x.scale) :
    x.worth = x.signedAt s * 2 ^ s := by
  have hunits : x.signif * 2 ^ (x.scale - s) * 2 ^ s = units x.mag := by
    rw [mul_assoc, ← pow_add, Nat.sub_add_cancel hs, units_eq]
    rfl
  cases h : x.isNeg with
  | false =>
    rw [worth_of_not_isNeg h, ← hunits, signedAt, Nat.shiftLeft_eq]
    simp [h]
  | true =>
    rw [worth_of_isNeg h, ← hunits, signedAt, Nat.shiftLeft_eq]
    simp [h]

end BucketOverflow.Binary64
