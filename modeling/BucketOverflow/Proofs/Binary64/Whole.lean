import BucketOverflow.Proofs.Binary64.Arithmetic

/-! Rounding to whole numbers. Up to 52 bits before the point `ceil` and `floor` are those of the
exact value, and counting in whole numbers, half away from zero, keeps the order of the words. -/
namespace BucketOverflow.Binary64

variable {x y : Binary64} {n : ℕ} {k : ℤ} {q : ℚ}

theorem units_mag_le (h : |x.worth| ≤ q) : (units x.mag : ℚ) ≤ q := by
  rw [worth_eq_units] at h
  split_ifs at h <;> simpa using h

/-- Words within 53 bits before the point are finite. -/
theorem isFinite_of_worth_le (h : |x.worth| ≤ 2 ^ 53 * 2 ^ unitExp) : x.isFinite = true := by
  have hle : units x.mag ≤ 2 ^ (53 + unitExp) := by
    rw [← pow_add] at h
    exact_mod_cast units_mag_le h
  have htop : units x.mag < units infinite := by
    rw [units_infinite]
    exact hle.trans_lt (Nat.pow_lt_pow_right (by decide) (by decide))
  exact isFinite_iff.mpr (units_strictMono.lt_iff_lt.mp htop)

/-! Whole numbers of 53 bits -/

theorem isFinite_of_whole (hx : x.worth = k * 2 ^ unitExp) (hk : k.natAbs ≤ 2 ^ 53) :
    x.isFinite = true := by
  apply isFinite_of_worth_le
  rw [hx, abs_mul, abs_of_pos (show (0 : ℚ) < 2 ^ unitExp by positivity)]
  have : |(k : ℚ)| ≤ 2 ^ 53 := by
    rw [← Int.cast_abs, ← Nat.cast_natAbs]
    exact_mod_cast hk
  gcongr

theorem isFinite_ofNat_of_le (hn : n ≤ 2 ^ 53) : (ofNat n).isFinite = true :=
  (fits_ofNat (a := 1) (s := 53) (by rwa [one_mul]) (by decide) (by decide)).finite

/-- A whole number of at most 53 bits at some place is a word, whatever its sign. -/
theorem exists_worthAt_int {s : ℕ} (hk : k.natAbs ≤ 2 * hiddenBit) (hs : s ≤ 2045) :
    ∃ j : ℤ, (k * 2 ^ s : ℚ) = worthAt j ∧ roundKey (worthAt j) = j := by
  obtain ⟨j, hj, hround⟩ := exists_worthAt hk hs
  rcases Int.natAbs_eq k with h | h
  · exact ⟨j, by rw [← hj, ← Int.cast_natCast, ← h], hround⟩
  · refine ⟨-j, ?_, by rw [worthAt_neg, roundKey_neg, hround]⟩
    rw [worthAt_neg, ← hj, ← neg_mul, ← Int.cast_natCast, ← Int.cast_neg, ← h]

/-- A whole number of at most 53 bits is rounded to itself. -/
theorem IsNearest.worth_eq_whole (hx : IsNearest x (k * 2 ^ unitExp)) (hk : k.natAbs ≤ 2 ^ 53) :
    x.worth = k * 2 ^ unitExp := by
  have hexp : unitExp ≤ 2045 := by decide
  obtain ⟨j, hj, hround⟩ := exists_worthAt_int (hk.trans (by decide)) hexp
  rw [worth, hx.key_eq, hj, hround]

/-- Bounds of at most 53 bits, of either sign, hold after rounding. -/
theorem IsNearest.worth_between {s : ℕ} {j : ℤ} (hx : IsNearest x q) (hj : j.natAbs ≤ 2 * hiddenBit)
    (hk : k.natAbs ≤ 2 * hiddenBit) (hs : s ≤ 2045) (hlow : j * 2 ^ s ≤ q) (hhigh : q ≤ k * 2 ^ s) :
    j * 2 ^ s ≤ x.worth ∧ x.worth ≤ k * 2 ^ s := by
  obtain ⟨i, hi, hround⟩ := exists_worthAt_int hj hs
  obtain ⟨i', hi', hround'⟩ := exists_worthAt_int hk hs
  rw [worth, hx.key_eq, hi, hi', worthAt_le_iff, worthAt_le_iff, ← hround, ← hround']
  exact ⟨roundKey_mono (hi ▸ hlow), roundKey_mono (hi' ▸ hhigh)⟩

/-- Words that are whole numbers compare as the numbers do. -/
theorem le_iff_of_whole {j : ℤ} (hx : x.worth = j * 2 ^ unitExp) (hy : y.worth = k * 2 ^ unitExp)
    (hj : j.natAbs ≤ 2 ^ 53) (hk : k.natAbs ≤ 2 ^ 53) : x ≤ y ↔ j ≤ k := by
  have hone : (0 : ℚ) < 2 ^ unitExp := by positivity
  have hworth : x.worth ≤ y.worth ↔ j ≤ k := by
    rw [hx, hy, mul_le_mul_iff_left₀ hone, Int.cast_le]
  rw [← hworth]
  exact ⟨worth_le_worth, fun h => le_of_key (isNaN_of_isFinite (isFinite_of_whole hx hj))
    (isNaN_of_isFinite (isFinite_of_whole hy hk)) (worthAt_le_iff.mp h)⟩

theorem worth_sub_one (hx : x.worth = k * 2 ^ unitExp) (hk : k.natAbs < 2 ^ 53) :
    (x - one).worth = (k - 1 : ℤ) * 2 ^ unitExp := by
  have h := isNearest_sub (isFinite_of_whole hx hk.le) (show one.isFinite = true by decide)
  rw [hx, worth_one, ← sub_one_mul, ← Int.cast_one, ← Int.cast_sub] at h
  exact h.worth_eq_whole (by omega)

/-- A whole number of at most 53 bits with a sign is a word. -/
theorem worth_ofMag_whole (neg : Bool) (hn : n ≤ 2 ^ 53) :
    (ofMag neg (nearest n 1 unitExp)).worth = (if neg then -(n : ℤ) else n : ℤ) * 2 ^ unitExp := by
  have h := isNearest_ofMag neg (show (0 : ℚ) ≤ n * 2 ^ unitExp by positivity)
  rw [← nearest_one_eq] at h
  apply IsNearest.worth_eq_whole _ (by split_ifs <;> omega)
  cases neg with
  | false => simpa only [Bool.false_eq_true, ↓reduceIte, Int.cast_natCast] using h
  | true => simpa only [↓reduceIte, Int.cast_neg, Int.cast_natCast, neg_mul] using h

/-- A word that is worth something from nothing to a bound. -/
structure Upto (x : Binary64) (q : ℚ) : Prop where
  finite : x.isFinite = true
  nonneg : 0 ≤ x.worth
  le : x.worth ≤ q

/-- Rounding keeps what a whole number of at most 53 bits bounds. -/
theorem upto_of_isNearest (hx : IsNearest x q) (h0 : 0 ≤ q) (hq : q ≤ n * 2 ^ unitExp)
    (hn : n ≤ 2 ^ 53) : Upto x (n * 2 ^ unitExp) := by
  have hbits : n ≤ 2 * hiddenBit := hn.trans (by decide)
  have hnonneg : 0 ≤ x.worth := by
    have h := hx.le_worth (a := 0) (s := 0) (Nat.zero_le _) (Nat.zero_le _)
      (by simpa only [Nat.cast_zero, zero_mul] using h0)
    simpa only [Nat.cast_zero, zero_mul] using h
  have hle := hx.worth_le hbits (by decide) hq
  refine ⟨isFinite_of_worth_le ?_, hnonneg, hle⟩
  rw [abs_of_nonneg hnonneg]
  exact hle.trans (mul_le_mul_of_nonneg_right (by exact_mod_cast hn) (by positivity))

/-! Rounding to a whole number -/

/-- The whole part of a magnitude, and one more when `bump` says so and a fraction is lost. -/
def wholeMag (bump : Bool) (m : ℕ) : ℕ :=
  if bump && wholePart m <<< unitExp != units m then wholePart m + 1 else wholePart m

theorem toWhole_eq (bump : Bool) (hx : x.isFinite = true) :
    x.toWhole bump = ofMag x.isNeg (nearest (wholeMag bump x.mag) 1 unitExp) := if_pos hx

theorem isNeg_toWhole (bump : Bool) (hx : x.isFinite = true) :
    (x.toWhole bump).isNeg = x.isNeg := by
  rw [toWhole_eq bump hx]
  exact isNeg_ofMag _ ((nearest_le_infinite _ _ _).trans_lt infinite_lt)

theorem wholeMag_eq (m : ℕ) : (wholeMag false m : ℤ) = ⌊(units m : ℚ) / 2 ^ unitExp⌋ ∧
    (wholeMag true m : ℤ) = ⌈(units m : ℚ) / 2 ^ unitExp⌉ := by
  have hcast : (2 : ℚ) ^ unitExp = (2 ^ unitExp : ℕ) := (Nat.cast_pow 2 unitExp).symm
  have hone : 0 < 2 ^ unitExp := by positivity
  rw [wholeMag, wholeMag, wholePart, hcast, Nat.shiftRight_eq_div_pow, Nat.shiftLeft_eq]
  clear hcast
  generalize 2 ^ unitExp = one at *
  generalize units m = u
  have hpos : (0 : ℚ) < one := by exact_mod_cast hone
  have hmod : ((u % one : ℕ) : ℚ) < one := by exact_mod_cast Nat.mod_lt u hone
  have hsplit : (u : ℚ) / one = (u / one : ℕ) + (u % one : ℕ) / one := by
    rw [add_div' _ _ _ hpos.ne', div_left_inj' hpos.ne']
    exact_mod_cast (Nat.div_add_mod' u one).symm
  have hexact : u / one * one = u ↔ u % one = 0 := by
    have := Nat.div_add_mod' u one
    omega
  rw [hsplit]
  generalize u / one = k at *
  generalize u % one = r at *
  constructor
  · have hfrac : (r : ℚ) / one < 1 := (div_lt_one hpos).mpr hmod
    rw [Int.floor_natCast_add, Int.floor_eq_zero_iff.mpr ⟨by positivity, hfrac⟩]
    simp
  · rw [Int.ceil_natCast_add]
    rcases Nat.eq_zero_or_pos r with rfl | hr
    · simp [hexact]
    · have hfrac : ⌈(r : ℚ) / one⌉ = 1 := by
        rw [Int.ceil_eq_iff]
        push_cast
        rw [sub_self, div_le_one hpos]
        exact ⟨by positivity, hmod.le⟩
      simp [hexact, hr.ne', hfrac]

theorem wholeMag_le (bump : Bool) {m : ℕ} (h : (units m : ℚ) ≤ 2 ^ 52 * 2 ^ unitExp) :
    wholeMag bump m ≤ 2 ^ 52 := by
  obtain ⟨hdown, hup⟩ := wholeMag_eq m
  have hq : (units m : ℚ) / 2 ^ unitExp ≤ (2 ^ 52 : ℕ) := by
    rw [div_le_iff₀ (by positivity)]
    exact_mod_cast h
  have hceil : wholeMag true m ≤ 2 ^ 52 := by
    zify
    rw [hup]
    exact Int.ceil_le.mpr hq
  cases bump with
  | true => exact hceil
  | false =>
    have := Int.floor_le_ceil ((units m : ℚ) / 2 ^ unitExp)
    omega

theorem worth_toWhole (bump : Bool) (h : |x.worth| ≤ 2 ^ 52 * 2 ^ unitExp) :
    (x.toWhole bump).worth =
      (if x.isNeg then -(wholeMag bump x.mag : ℤ) else wholeMag bump x.mag : ℤ) * 2 ^ unitExp := by
  have hx : x.isFinite = true := by
    apply isFinite_of_worth_le (h.trans _)
    gcongr <;> norm_num
  rw [toWhole_eq bump hx]
  exact worth_ofMag_whole _ ((wholeMag_le bump (units_mag_le h)).trans (by decide))

theorem worth_ceil (h : |x.worth| ≤ 2 ^ 52 * 2 ^ unitExp) :
    x.ceil.worth = ⌈x.worth / 2 ^ unitExp⌉ * 2 ^ unitExp := by
  obtain ⟨hdown, hup⟩ := wholeMag_eq x.mag
  rw [ceil, worth_toWhole _ h, worth_eq_units]
  cases x.isNeg with
  | false => simp only [Bool.false_eq_true, ↓reduceIte, Bool.not_false, hup]
  | true => simp only [↓reduceIte, Bool.not_true, hdown, neg_div, Int.ceil_neg]

theorem worth_floor (h : |x.worth| ≤ 2 ^ 52 * 2 ^ unitExp) :
    x.floor.worth = ⌊x.worth / 2 ^ unitExp⌋ * 2 ^ unitExp := by
  obtain ⟨hdown, hup⟩ := wholeMag_eq x.mag
  rw [floor, worth_toWhole _ h, worth_eq_units]
  cases x.isNeg with
  | false => simp only [Bool.false_eq_true, ↓reduceIte, hdown]
  | true => simp only [↓reduceIte, hup, neg_div, Int.floor_neg]

/-! Rounding to a natural number -/

/-- The natural number nearest to a ratio, halves going up. -/
def halfUp (num den : ℕ) : ℕ := (2 * num + den) / (den * 2)

theorem halfUp_mono {num num' den : ℕ} (h : num ≤ num') : halfUp num den ≤ halfUp num' den :=
  Nat.div_le_div_right (by omega)

theorem halfUp_mul (n : ℕ) {den : ℕ} (hden : 0 < den) : halfUp (n * den) den = n := by
  have hsplit : 2 * (n * den) + den = den + n * (den * 2) := by ring
  rw [halfUp, hsplit, Nat.add_mul_div_right _ _ (by omega), Nat.div_eq_of_lt (by omega), zero_add]

theorem halfUp_zero {den : ℕ} (hden : 0 < den) : halfUp 0 den = 0 :=
  Nat.div_eq_of_lt (by omega)

theorem roundToNat_of_isFinite (hx : x.isFinite = true) : x.roundToNat =
    if x.isNeg then 0 else Nat.min 0xffffffffffffffff (halfUp (units x.mag) (2 ^ unitExp)) := by
  simp only [roundToNat, isNaN_of_isFinite hx, isInf_of_isFinite hx, Bool.false_or,
    Bool.false_eq_true, ↓reduceIte, Nat.shiftRight_eq_div_pow, Nat.one_shiftLeft, halfUp, pow_succ]

/-- Rounding keeps order. -/
theorem roundToNat_mono (hx : x.isFinite = true) (hy : y.isFinite = true)
    (h : x.worth ≤ y.worth) : x.roundToNat ≤ y.roundToNat := by
  rw [roundToNat_of_isFinite hx, roundToNat_of_isFinite hy]
  cases hxn : x.isNeg with
  | true => exact Nat.zero_le _
  | false =>
    rw [worth_of_not_isNeg hxn] at h
    cases hyn : y.isNeg with
    | true =>
      -- then both are worth nothing
      rw [worth_of_isNeg hyn] at h
      have hzero : units x.mag = 0 := by
        have := (units y.mag).cast_nonneg (α := ℚ)
        have hle : (units x.mag : ℚ) ≤ 0 := by linarith
        exact Nat.le_zero.mp (by exact_mod_cast hle)
      have hround : halfUp 0 (2 ^ unitExp) = 0 := halfUp_zero (by positivity)
      simp only [Bool.false_eq_true, ↓reduceIte, hzero, hround, Nat.min_zero, le_refl]
    | false =>
      rw [worth_of_not_isNeg hyn] at h
      have hle : units x.mag ≤ units y.mag := by exact_mod_cast h
      simp only [Bool.false_eq_true, ↓reduceIte]
      exact min_le_min_left _ (halfUp_mono hle)

/-- Rounding does not pass a natural number. -/
theorem roundToNat_le (hx : x.isFinite = true) (h : x.worth ≤ n * 2 ^ unitExp) :
    x.roundToNat ≤ n := by
  rw [roundToNat_of_isFinite hx]
  cases hn : x.isNeg with
  | true => exact Nat.zero_le n
  | false =>
    rw [worth_of_not_isNeg hn] at h
    have hle : units x.mag ≤ n * 2 ^ unitExp := by
      rw [← Nat.cast_le (α := ℚ), Nat.cast_mul, Nat.cast_pow, Nat.cast_ofNat]
      exact h
    simp only [Bool.false_eq_true, ↓reduceIte]
    calc Nat.min _ (halfUp (units x.mag) (2 ^ unitExp))
        ≤ halfUp (units x.mag) (2 ^ unitExp) := Nat.min_le_right _ _
      _ ≤ halfUp (n * 2 ^ unitExp) (2 ^ unitExp) := halfUp_mono hle
      _ = n := halfUp_mul n (by positivity)

end BucketOverflow.Binary64
