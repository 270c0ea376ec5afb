import BucketOverflow.Proofs.Binary64.Arithmetic

/-! Doubling. From the least normal magnitude on, twice a number is rounded one binade higher, to
twice the worth. Below it that can fail by a unit, but not for whole numbers of units, which are
magnitudes there. A product with a natural number is whole, so rounding commutes with doubling
it. -/
namespace BucketOverflow.Binary64

variable {x y : Binary64} {m n : ℕ} {q : ℚ}

/-! Magnitudes one binade higher -/

theorem units_add_hiddenBit (hm : hiddenBit ≤ m) : units (m + hiddenBit) = 2 * units m := by
  have hs : shiftOf (m + hiddenBit) = shiftOf m + 1 := by
    unfold shiftOf hiddenBit at *
    omega
  have hsignif : significand (m + hiddenBit) = significand m := by
    rw [significand, significand, hs, Nat.add_one_mul, Nat.add_sub_add_right]
  rw [units_eq, units_eq, hs, hsignif]
  ring

theorem halfway_add_hiddenBit (hm : hiddenBit ≤ m) : halfway (m + hiddenBit) = 2 * halfway m := by
  have hsucc := units_add_hiddenBit (m := m + 1) (by omega)
  rw [Nat.add_right_comm] at hsucc
  rw [halfway, halfway, units_add_hiddenBit hm, hsucc]
  push_cast
  ring

theorem roundsPast_two_mul (hm : hiddenBit ≤ m) :
    RoundsPast (m + hiddenBit) (2 * q) ↔ RoundsPast m q := by
  have hodd : (m + hiddenBit) % 2 = m % 2 := by
    unfold hiddenBit
    omega
  rw [RoundsPast, RoundsPast, halfway_add_hiddenBit hm, hodd]
  simp

theorem units_of_le (hm : m ≤ 2 * hiddenBit) : units m = m := by
  simpa using units_place (d := 0) hm (.inl rfl)

theorem hiddenBit_le_nearestMag (hq : hiddenBit ≤ q) : hiddenBit ≤ nearestMag q := by
  have hle := nearestMag_mono (Nat.cast_nonneg (units hiddenBit)) (q := q) ?_
  · rwa [nearestMag_units (by decide)] at hle
  · rwa [units_of_le (by omega)]

/-- Where twice a number is finite, there is a binade above the number. -/
theorem nearestMag_add_hiddenBit_le (hq : 0 ≤ q) (hfin : nearestMag (2 * q) < infinite) :
    nearestMag q + hiddenBit ≤ infinite := by
  by_contra hlt
  have hsplit : infinite = 2046 * hiddenBit + hiddenBit := rfl
  have hpast := (lt_nearestMag_iff hq (m := 2046 * hiddenBit) (by omega)).mp (by omega)
  have hle : (units infinite : ℚ) ≤ 2 * q := by
    have hhalf := units_lt_halfway (2046 * hiddenBit)
    rw [hsplit, units_add_hiddenBit (by omega)]
    push_cast
    rcases hpast with hpast | ⟨hpast, -⟩ <;> linarith
  have hmono := nearestMag_mono (Nat.cast_nonneg _) hle
  rw [nearestMag_units le_rfl] at hmono
  exact absurd hfin hmono.not_gt

/-- Twice a number from the least normal magnitude on is rounded one binade higher. -/
theorem nearestMag_two_mul (hq : hiddenBit ≤ q) (hfin : nearestMag (2 * q) < infinite) :
    nearestMag (2 * q) = nearestMag q + hiddenBit := by
  have hq0 : 0 ≤ q := (Nat.cast_nonneg _).trans hq
  have hbit := hiddenBit_le_nearestMag hq
  have htop := nearestMag_add_hiddenBit_le hq0 hfin
  apply eq_of_forall_lt_iff (nearestMag_le_infinite _) htop
  intro k hk
  rw [lt_nearestMag_iff (by linarith) hk]
  rcases lt_or_ge k (2 * hiddenBit) with hlt | hge
  · refine iff_of_true (roundsPast_of_lt hlt ?_) (by omega)
    rw [units_of_le le_rfl]
    push_cast
    linarith
  · obtain ⟨m, rfl⟩ := Nat.exists_eq_add_of_le' (show hiddenBit ≤ k by omega)
    rw [roundsPast_two_mul (by omega), ← lt_nearestMag_iff hq0 (by omega)]
    omega

/-- Rounding commutes with doubling a whole number of units. -/
theorem units_nearestMag_two_mul (hfin : nearestMag (2 * n) < infinite) :
    units (nearestMag (2 * n)) = 2 * units (nearestMag n) := by
  rcases lt_or_ge n hiddenBit with hlt | hge
  · -- the number and its double are magnitudes themselves
    have hexact {k : ℕ} (hk : k ≤ 2 * hiddenBit) : units (nearestMag k) = k := by
      have hround := nearestMag_units (hk.trans (by decide))
      rw [units_of_le hk] at hround
      rw [hround, units_of_le hk]
    have htwo := hexact (k := 2 * n) (by omega)
    push_cast at htwo
    rw [htwo, hexact (by omega)]
  · have hq : (hiddenBit : ℚ) ≤ n := Nat.cast_le.mpr hge
    rw [nearestMag_two_mul hq hfin, units_add_hiddenBit (hiddenBit_le_nearestMag hq)]

/-! Words -/

/-- What is nearest to twice a whole number of units is worth twice what is nearest to it. -/
theorem IsNearest.worth_two_mul (hx : IsNearest x n) (hy : IsNearest y (2 * n))
    (hfin : y.isFinite = true) : y.worth = 2 * x.worth := by
  have hn : (0 : ℚ) ≤ 2 * n := by positivity
  rw [isFinite_iff, hy.mag_eq hn] at hfin
  rw [hy.worth_eq hn, hx.worth_eq (Nat.cast_nonneg n), units_nearestMag_two_mul hfin]
  push_cast
  rfl

/-- A natural number is rounded to a multiple of one. -/
theorem exists_worth_ofNat (n : ℕ) : ∃ k : ℕ, (ofNat n).worth = k * 2 ^ unitExp := by
  rcases le_total n (2 * hiddenBit) with hle | hge
  · exact ⟨n, worth_ofNat hle⟩
  · -- above 53 bits the spacing is a multiple of one
    have hworth := worth_le_worth (ofNat_mono hge)
    have hplace := units_place (d := unitExp) (h := 2 * hiddenBit) le_rfl (.inr (by omega))
    rw [worth_ofNat le_rfl, worth_of_not_isNeg (isNeg_ofNat n)] at hworth
    have hmag : unitExp * hiddenBit + 2 * hiddenBit ≤ (ofNat n).mag := by
      rw [← units_strictMono.le_iff_le, hplace]
      exact_mod_cast hworth
    have hshift : unitExp ≤ shiftOf (ofNat n).mag := by
      unfold shiftOf unitExp hiddenBit at *
      omega
    refine ⟨significand (ofNat n).mag * 2 ^ (shiftOf (ofNat n).mag - unitExp), ?_⟩
    rw [worth_of_not_isNeg (isNeg_ofNat n), units_cast]
    push_cast
    rw [mul_assoc, pow_sub_mul_pow 2 hshift]

theorem worth_ofNat_two_mul (hfin : (ofNat (2 * n)).isFinite = true) :
    (ofNat (2 * n)).worth = 2 * (ofNat n).worth := by
  refine IsNearest.worth_two_mul (n := n * 2 ^ unitExp) ?_ ?_ hfin
  · exact_mod_cast isNearest_ofNat n
  · have h := isNearest_ofNat (2 * n)
    push_cast at h ⊢
    rwa [mul_assoc] at h

/-- Twice a word without sign, where it is finite, is worth twice as much. -/
theorem eq_two_mul (hx : x.isFinite = true) (hxn : x.isNeg = false) (hy : y.isFinite = true)
    (hyn : y.isNeg = false) (h : y.worth = 2 * x.worth) : y = 2 * x := by
  have htwo : (2 : Binary64).worth = 2 * 2 ^ unitExp := worth_ofNat (n := 2) (by decide)
  have hfin : (2 : Binary64).isFinite = true :=
    (fits_ofNat (n := 2) (a := 2) (s := 0) (by decide) (by decide) (by decide)).finite
  have hmul := isNearest_mul hfin hx
  rw [htwo, mul_right_comm, mul_div_cancel_right₀ _ (by positivity), ← h] at hmul
  refine (hmul.eq_of_worth (isNaN_of_isFinite hy) ?_).symm
  rw [isNeg_mul hfin hx, hxn, hyn]
  rfl

/-- Doubling a factor that is a natural number doubles the product. -/
theorem ofNat_two_mul_mul (hfin : (ofNat (2 * n) * x).isFinite = true)
    (hn : (ofNat (2 * n)).isFinite = true) (hn' : (ofNat n).isFinite = true)
    (hx : x.isFinite = true) (hxn : x.isNeg = false)
    (hfin' : (ofNat n * x).isFinite = true) : ofNat (2 * n) * x = 2 * (ofNat n * x) := by
  obtain ⟨k, hk⟩ := exists_worth_ofNat n
  have hpow : (2 : ℚ) ^ unitExp ≠ 0 := by positivity
  have hsmall := isNearest_mul hn' hx
  have hlarge := isNearest_mul hn hx
  -- in units the product is a whole number
  rw [worth_of_not_isNeg hxn] at hsmall hlarge
  rw [hk, mul_right_comm, mul_div_cancel_right₀ _ hpow, ← Nat.cast_mul] at hsmall
  rw [worth_ofNat_two_mul hn, hk, mul_assoc, mul_div_assoc, mul_right_comm,
    mul_div_cancel_right₀ _ hpow, ← Nat.cast_mul] at hlarge
  refine eq_two_mul hfin' ?_ hfin ?_ (hsmall.worth_two_mul hlarge hfin)
  · rw [isNeg_mul hn' hx, isNeg_ofNat, hxn]
    rfl
  · rw [isNeg_mul hn hx, isNeg_ofNat, hxn]
    rfl

end BucketOverflow.Binary64
