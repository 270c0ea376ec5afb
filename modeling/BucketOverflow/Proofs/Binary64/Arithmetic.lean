import BucketOverflow.Proofs.Binary64.Nearest

/-! The operations on words. Each gives the word nearest to the exact result on the worth of its
operands, and the sign that the exact result has. -/
namespace BucketOverflow.Binary64

variable {x y z w : Binary64}

theorem worth_eq_units (x : Binary64) :
    x.worth = if x.isNeg then -(units x.mag : ℚ) else units x.mag := by
  cases h : x.isNeg with
  | false => exact worth_of_not_isNeg h
  | true => exact worth_of_isNeg h

theorem units_cast (m : ℕ) : (units m : ℚ) = significand m * 2 ^ shiftOf m := by
  rw [units_eq]
  push_cast
  rfl

theorem nearest_one_eq (n shift : ℕ) : nearest n 1 shift = nearestMag (n * 2 ^ shift) := by
  rcases Nat.eq_zero_or_pos n with rfl | hn
  · simp [nearest]
  · rw [nearest_eq one_pos (.inl hn), Nat.cast_one, div_one]

theorem isNearest_ofNat (n : ℕ) : IsNearest (ofNat n) (n * 2 ^ unitExp) := by
  rw [ofNat, nearest_one_eq]
  exact isNearest_ofMag false (by positivity)

@[simp] theorem isNeg_ofNat (n : ℕ) : (ofNat n).isNeg = false :=
  isNeg_ofMag _ ((nearest_le_infinite _ _ _).trans_lt infinite_lt)

@[simp] theorem isNaN_ofNat (n : ℕ) : (ofNat n).isNaN = false := (isNearest_ofNat n).not_nan

/-! Sums and differences -/

/-- Either operand's significand at the lesser scale. -/
theorem worth_add_worth (x y : Binary64) :
    x.worth + y.worth = (x.signedAt (Nat.min x.scale y.scale) +
      y.signedAt (Nat.min x.scale y.scale) : ℤ) * 2 ^ Nat.min x.scale y.scale := by
  rw [x.worth_eq_signedAt (Nat.min_le_left _ _), y.worth_eq_signedAt (Nat.min_le_right _ _)]
  push_cast
  ring

theorem add_of_isFinite (hx : x.isFinite = true) (hy : y.isFinite = true) :
    x + y = if x.worth + y.worth = 0 then zero (x.isNeg && y.isNeg)
      else ofMag (decide (x.worth + y.worth < 0)) (nearestMag |x.worth + y.worth|) := by
  change add x y = _
  have hpow : (0 : ℚ) < 2 ^ Nat.min x.scale y.scale := by positivity
  simp only [worth_add_worth, add, isNaN_of_isFinite hx, isNaN_of_isFinite hy,
    isInf_of_isFinite hx, isInf_of_isFinite hy, Bool.or_self, Bool.false_eq_true, ↓reduceIte]
  generalize Nat.min x.scale y.scale = s at *
  generalize x.signedAt s + y.signedAt s = total
  have hzero : ((total : ℚ) * 2 ^ s = 0) ↔ total = 0 := by
    rw [mul_eq_zero_iff_right hpow.ne', Int.cast_eq_zero]
  have hneg : ((total : ℚ) * 2 ^ s < 0) ↔ total < 0 := by
    rw [mul_neg_iff]
    simp [hpow, hpow.le]
  have habs : |(total : ℚ) * 2 ^ s| = total.natAbs * 2 ^ s := by
    rw [abs_mul, abs_of_pos hpow, Nat.cast_natAbs, Int.cast_abs]
  simp only [hzero, hneg, habs, nearest_one_eq]

theorem isNearest_add (hx : x.isFinite = true) (hy : y.isFinite = true) :
    IsNearest (x + y) (x.worth + y.worth) := by
  rw [add_of_isFinite hx hy]
  split_ifs with h0
  · rw [h0]
    exact ⟨isNaN_of_isFinite (isFinite_zero _), key_zero _⟩
  · have h := isNearest_ofMag (decide (x.worth + y.worth < 0)) (abs_nonneg (x.worth + y.worth))
    convert h using 1
    rcases lt_or_ge (x.worth + y.worth) 0 with hn | hn
    · simp [hn, abs_of_neg hn]
    · simp [not_lt.mpr hn, abs_of_nonneg hn]

/-- A sum is negative when its worth is, or when both terms are and it vanishes. -/
theorem isNeg_add (hx : x.isFinite = true) (hy : y.isFinite = true) :
    (x + y).isNeg = (decide (x.worth + y.worth < 0) || x.isNeg && y.isNeg) := by
  rw [add_of_isFinite hx hy]
  split_ifs with h0
  · simp [h0]
  · rw [isNeg_ofMag _ ((nearestMag_le_infinite _).trans_lt infinite_lt)]
    cases hxn : x.isNeg with
    | false => simp
    | true =>
      cases hyn : y.isNeg with
      | false => simp
      | true =>
        have : x.worth + y.worth ≤ 0 := by
          rw [worth_of_isNeg hxn, worth_of_isNeg hyn]
          linarith [(units x.mag).cast_nonneg (α := ℚ), (units y.mag).cast_nonneg (α := ℚ)]
        simp [lt_of_le_of_ne this h0]

theorem isNeg_add_of_not_isNeg (hx : x.isFinite = true) (hy : y.isFinite = true)
    (hxn : x.isNeg = false) (hyn : y.isNeg = false) : (x + y).isNeg = false := by
  have := add_nonneg (worth_nonneg hxn) (worth_nonneg hyn)
  simp [isNeg_add hx hy, hxn, not_lt.mpr this]

theorem isNearest_sub (hx : x.isFinite = true) (hy : y.isFinite = true) :
    IsNearest (x - y) (x.worth - y.worth) := by
  have h := isNearest_add hx (y := -y) (by simpa using hy)
  rwa [worth_neg, ← sub_eq_add_neg] at h

/-- A difference has a minus sign if it is negative, or if a negative zero is left as it is. -/
theorem isNeg_sub (hx : x.isFinite = true) (hy : y.isFinite = true) :
    (x - y).isNeg = (decide (x.worth - y.worth < 0) || x.isNeg && !y.isNeg) := by
  have h := isNeg_add hx (y := -y) (by simpa using hy)
  rwa [worth_neg, ← sub_eq_add_neg, isNeg_neg] at h

theorem not_nan_of_sub (h : (x - y).isNaN = false) : x.isNaN = false ∧ y.isNaN = false := by
  have hnan : nan.isNaN = true := by decide
  change (add x (-y)).isNaN = false at h
  cases hx : x.isNaN with
  | true => simp [add, hx, hnan] at h
  | false =>
    cases hy : y.isNaN with
    | true => simp [add, hy, hnan] at h
    | false => exact ⟨rfl, rfl⟩

/-- Words of opposite values. The zeros are opposite to each other and to themselves, and a NaN is
opposite to a NaN. -/
def Opposite (x y : Binary64) : Prop := x.isNaN = true ∧ y.isNaN = true ∨ y.eqv (-x) = true

theorem Opposite.abs_eq (h : Opposite x y) (hx : x.isNaN = false) : y.abs = x.abs := by
  rcases h with ⟨hnan, -⟩ | h
  · rw [hx] at hnan
    cases hnan
  · obtain ⟨-, -, hkey⟩ := eqv_iff.mp h
    have hmag := congrArg Int.natAbs hkey
    rw [natAbs_key, natAbs_key, mag_neg] at hmag
    exact ext_mag (by rw [isNeg_abs, isNeg_abs]) (by rw [mag_abs, mag_abs, hmag])

/-- Differences the one way and the other are opposite, also those of infinities and of NaN. -/
theorem opposite_sub (x y : Binary64) : Opposite (x - y) (y - x) := by
  have hnan : nan.isNaN = true := by decide
  change Opposite (add x (-y)) (add y (-x))
  rw [Opposite, eqv_iff, isNaN_neg, key_neg]
  cases hx : x.isNaN with
  | true => simp [add, hx, hnan]
  | false =>
    cases hy : y.isNaN with
    | true => simp [add, hy, hnan]
    | false =>
      cases hxi : x.isInf with
      | true =>
        cases hyi : y.isInf with
        | true =>
          -- a NaN for infinities of one sign
          cases hxn : x.isNeg <;> cases hyn : y.isNeg <;>
            simp [add, hx, hy, hxi, hyi, hxn, hyn, hnan, key, isInf_iff.mp hxi, isInf_iff.mp hyi]
        | false => simp [add, hx, hy, hxi, hyi]
      | false =>
        cases hyi : y.isInf with
        | true => simp [add, hx, hy, hxi, hyi]
        | false =>
          have hxf := isFinite_of_not_isInf hx (by simp [hxi])
          have hyf := isFinite_of_not_isInf hy (by simp [hyi])
          have hxy := isNearest_sub hxf hyf
          have hyx := isNearest_sub hyf hxf
          refine .inr ⟨hyx.not_nan, hxy.not_nan, ?_⟩
          calc (y - x).key = roundKey (y.worth - x.worth) := hyx.key_eq
            _ = -roundKey (x.worth - y.worth) := by rw [← neg_sub, roundKey_neg]
            _ = -(x - y).key := by rw [hxy.key_eq]

/-! Products and quotients -/

theorem mul_of_isFinite (hx : x.isFinite = true) (hy : y.isFinite = true) :
    x * y = ofMag (x.isNeg != y.isNeg)
      (nearestMag (units x.mag * units y.mag / 2 ^ unitExp)) := by
  change mul x y = _
  have hunits : ((x.signif * y.signif : ℕ) : ℚ) * 2 ^ (x.scale + y.scale) =
      units x.mag * units y.mag := by
    rw [units_cast, units_cast, pow_add, signif, signif, scale, scale]
    push_cast
    ring
  simp only [mul, isNaN_of_isFinite hx, isNaN_of_isFinite hy, isInf_of_isFinite hx,
    isInf_of_isFinite hy, nearestDyadic_eq, hunits, Bool.or_self, Bool.false_eq_true, ↓reduceIte]

theorem isNearest_mul (hx : x.isFinite = true) (hy : y.isFinite = true) :
    IsNearest (x * y) (x.worth * y.worth / 2 ^ unitExp) := by
  rw [mul_of_isFinite hx hy]
  convert isNearest_ofMag (x.isNeg != y.isNeg)
    (show (0 : ℚ) ≤ units x.mag * units y.mag / 2 ^ unitExp by positivity) using 1
  rw [worth_eq_units x, worth_eq_units y]
  cases x.isNeg <;> cases y.isNeg <;> simp <;> ring

theorem isNeg_mul (hx : x.isFinite = true) (hy : y.isFinite = true) :
    (x * y).isNeg = (x.isNeg != y.isNeg) := by
  rw [mul_of_isFinite hx hy]
  exact isNeg_ofMag _ ((nearestMag_le_infinite _).trans_lt infinite_lt)

theorem mul_eq_zero_of_worth (hx : x.isFinite = true) (hy : y.isFinite = true)
    (h : x.worth * y.worth = 0) : x * y = zero (x.isNeg != y.isNeg) := by
  have hmul := isNearest_mul hx hy
  rw [h, zero_div] at hmul
  have hkey : (x * y).key = 0 := hmul.key_eq
  apply ext_mag
  · rw [isNeg_mul hx hy, isNeg_zero]
  · rw [← natAbs_key, hkey, mag_zero]
    rfl

theorem div_of_isFinite (hx : x.isFinite = true) (hy : y.isFinite = true) (h0 : y.mag ≠ 0) :
    x / y = ofMag (x.isNeg != y.isNeg)
      (nearestMag (units x.mag * 2 ^ unitExp / units y.mag)) := by
  change div x y = _
  have hzero : y.isZero = false := by simpa [isZero] using h0
  have hnum : x.signif <<< (x.scale + unitExp) = units x.mag * 2 ^ unitExp := by
    rw [Nat.shiftLeft_eq, pow_add, ← mul_assoc, units_eq]
    rfl
  have hden : y.signif <<< y.scale = units y.mag := rfl
  have hpos : 0 < units y.mag := units_pos (Nat.pos_of_ne_zero h0)
  have hround : nearest (units x.mag * 2 ^ unitExp) (units y.mag) 0 = _ :=
    nearest_eq hpos (.inr rfl)
  rw [pow_zero, mul_one] at hround
  simp only [div, isNaN_of_isFinite hx, isNaN_of_isFinite hy, isInf_of_isFinite hx,
    isInf_of_isFinite hy, hzero, hnum, hden, hround, Bool.or_self, Bool.false_eq_true, ↓reduceIte]
  push_cast
  rfl

theorem isNearest_div (hx : x.isFinite = true) (hy : y.isFinite = true) (h0 : y.mag ≠ 0) :
    IsNearest (x / y) (x.worth * 2 ^ unitExp / y.worth) := by
  rw [div_of_isFinite hx hy h0]
  convert isNearest_ofMag (x.isNeg != y.isNeg)
    (show (0 : ℚ) ≤ units x.mag * 2 ^ unitExp / units y.mag by positivity) using 1
  rw [worth_eq_units x, worth_eq_units y]
  cases x.isNeg <;> cases y.isNeg <;> simp [neg_div, div_neg]

theorem isNeg_div (hx : x.isFinite = true) (hy : y.isFinite = true) (h0 : y.mag ≠ 0) :
    (x / y).isNeg = (x.isNeg != y.isNeg) := by
  rw [div_of_isFinite hx hy h0]
  exact isNeg_ofMag _ ((nearestMag_le_infinite _).trans_lt infinite_lt)

theorem not_nan_of_div (h : (x / y).isNaN = false) : x.isNaN = false := by
  have hnan : nan.isNaN = true := by decide
  change (div x y).isNaN = false at h
  cases hx : x.isNaN with
  | true => simp [div, hx, hnan] at h
  | false => rfl

/-! Words without sign below a bound of at most 53 bits -/

/-- A finite word without sign that is worth at most `a * 2 ^ s` units. -/
structure Fits (x : Binary64) (a s : ℕ) : Prop where
  finite : x.isFinite = true
  not_neg : x.isNeg = false
  worth_le : x.worth ≤ a * 2 ^ s

variable {a b s t : ℕ} {q : ℚ}

theorem Fits.not_nan (h : Fits x a s) : x.isNaN = false := isNaN_of_isFinite h.finite

theorem Fits.worth_nonneg (h : Fits x a s) : 0 ≤ x.worth := Binary64.worth_nonneg h.not_neg

theorem Fits.mono (h : Fits x a s) (hq : (a * 2 ^ s : ℚ) ≤ b * 2 ^ t) : Fits x b t :=
  ⟨h.finite, h.not_neg, h.worth_le.trans hq⟩

/-- Below the top binade a bound on an exact result is a bound on the rounded one. -/
theorem IsNearest.fits (hx : IsNearest x q) (hn : x.isNeg = false) (ha : a ≤ 2 * hiddenBit)
    (hs : s ≤ 2044) (hq : q ≤ a * 2 ^ s) : Fits x a s := by
  have hle := hx.worth_le ha (hs.trans (by decide)) hq
  refine ⟨?_, hn, hle⟩
  have htop : a * 2 ^ s < units infinite := by
    rw [units_infinite]
    calc a * 2 ^ s ≤ 2 ^ 53 * 2 ^ s := Nat.mul_le_mul_right _ (ha.trans (by decide))
      _ = 2 ^ (53 + s) := (pow_add _ _ _).symm
      _ < 2 ^ (1024 + unitExp) := Nat.pow_lt_pow_right (by decide) (by unfold unitExp; omega)
  rw [worth_of_not_isNeg hn] at hle
  have : units x.mag < units infinite := lt_of_le_of_lt (by exact_mod_cast hle) htop
  exact isFinite_iff.mpr (units_strictMono.lt_iff_lt.mp this)

theorem Fits.add (hx : Fits x a s) (hy : Fits y b s) (hab : a + b ≤ 2 * hiddenBit)
    (hs : s ≤ 2044) : Fits (x + y) (a + b) s := by
  apply (isNearest_add hx.finite hy.finite).fits
    (isNeg_add_of_not_isNeg hx.finite hy.finite hx.not_neg hy.not_neg) hab hs
  push_cast
  linarith [hx.worth_le, hy.worth_le]

theorem Fits.mul (hx : Fits x a s) (hy : Fits y b t) (hab : a * b ≤ 2 * hiddenBit)
    (hlow : unitExp ≤ s + t) (hs : s + t - unitExp ≤ 2044) :
    Fits (x * y) (a * b) (s + t - unitExp) := by
  apply (isNearest_mul hx.finite hy.finite).fits _ hab hs
  · have hpow : (2 : ℚ) ^ s * 2 ^ t = 2 ^ (s + t - unitExp) * 2 ^ unitExp := by
      rw [← pow_add, pow_sub_mul_pow 2 hlow]
    rw [div_le_iff₀ (by positivity)]
    calc x.worth * y.worth ≤ a * 2 ^ s * (b * 2 ^ t) :=
          mul_le_mul hx.worth_le hy.worth_le hy.worth_nonneg
            (hx.worth_nonneg.trans hx.worth_le)
      _ = a * b * (2 ^ s * 2 ^ t) := by ring
      _ = ↑(a * b) * 2 ^ (s + t - unitExp) * 2 ^ unitExp := by
        rw [hpow]
        push_cast
        ring
  · rw [isNeg_mul hx.finite hy.finite, hx.not_neg, hy.not_neg]
    rfl

theorem fits_ofNat {n : ℕ} (hn : n ≤ a * 2 ^ s) (ha : a ≤ 2 * hiddenBit)
    (hs : s + unitExp ≤ 2044) : Fits (ofNat n) a (s + unitExp) := by
  apply (isNearest_ofNat n).fits (isNeg_ofNat n) ha hs
  rw [pow_add, ← mul_assoc]
  have : (n : ℚ) ≤ a * 2 ^ s := by exact_mod_cast hn
  gcongr

/-- Natural numbers of 53 bits are words. -/
theorem worth_ofNat {n : ℕ} (hn : n ≤ 2 * hiddenBit) : (ofNat n).worth = n * 2 ^ unitExp :=
  worth_eq_of_isNearest hn (by decide) (isNearest_ofNat n)

theorem one_le_ofNat {n : ℕ} (hn : 0 < n) : one ≤ ofNat n := by
  apply (isNearest_ofNat n).word_le (isNaN_of_isFinite isFinite_one)
  rw [worth_one]
  have : (1 : ℚ) ≤ n := by exact_mod_cast hn
  exact le_mul_of_one_le_left (by positivity) this

theorem ofNat_mono {m n : ℕ} (h : m ≤ n) : ofNat m ≤ ofNat n := by
  apply (isNearest_ofNat m).le (isNearest_ofNat n)
  have : (m : ℚ) ≤ n := by exact_mod_cast h
  gcongr

theorem max_ofNat (m n : ℕ) : max (ofNat m) (ofNat n) = ofNat (m ⊔ n) := by
  have hlt : ofNat m < ofNat n ↔ (ofNat m).key < (ofNat n).key := by simp [lt_iff]
  simp only [max, isNaN_ofNat, Bool.false_eq_true, if_false, hlt]
  rcases le_total m n with hle | hle
  · have hkey := key_le (ofNat_mono hle)
    rw [sup_of_le_right hle]
    split_ifs with h
    · rfl
    · exact eq_of_key_eq (isNeg_ofNat m) (isNeg_ofNat n) (le_antisymm hkey (not_lt.mp h))
  · rw [sup_of_le_left hle, if_neg (not_lt.mpr (key_le (ofNat_mono hle)))]

end BucketOverflow.Binary64
