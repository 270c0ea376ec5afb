import BucketOverflow.Proofs.Binary64.Relative
import BucketOverflow.Proofs.Json.Numbers

/-! How far a written word moves when it is read. The reader rounds the digits, the power of ten and
their quotient, and far below one rounds twice; three roundings above the first binade move a number
by at most three places, and below it they lose less than one. -/
namespace BucketOverflow.Json
open Text Binary64 Decimal

variable {s k : ℕ} {e : ℤ} {x f : Binary64} {d : Decimal}

theorem isNeg_powerOfTen (k : ℕ) : (powerOfTen k).isNeg = false := isNeg_ofNat _

theorem powerOfTen_mono {j : ℕ} (h : j ≤ k) : powerOfTen j ≤ powerOfTen k :=
  ofNat_mono (Nat.pow_le_pow_right (by decide) h)

/-- The greatest power of ten that is a word, and those below it. -/
theorem isFinite_powerOfTen (hk : k ≤ 308) : (powerOfTen k).isFinite = true := by
  have htop : (powerOfTen 308).mag < infinite := by decide +kernel
  have hle := key_le (powerOfTen_mono hk)
  rw [key_of_not_isNeg (isNeg_powerOfTen _), key_of_not_isNeg (isNeg_powerOfTen _)] at hle
  exact isFinite_iff.mpr (by omega)

theorem isFinite_ofNat_of_lt (hs : s < significandLimit) : (Binary64.ofNat s).isFinite = true := by
  have hf : Fits (Binary64.ofNat s) 1 (64 + unitExp) :=
    fits_ofNat (by rw [one_mul]; exact hs.le) (by decide) (by decide)
  exact hf.finite

/-- The exact value of a significand and an exponent, in units. -/
def scaled (s : ℕ) (e : ℤ) : ℚ := s * 10 ^ e * 2 ^ unitExp

theorem scaled_nonneg (s : ℕ) (e : ℤ) : 0 ≤ scaled s e := by
  have := ten_zpow_pos e
  unfold scaled
  positivity

theorem scaled_zero (s : ℕ) : scaled s 0 = s * 2 ^ unitExp := by rw [scaled, zpow_zero, mul_one]

theorem scaled_add (s k : ℕ) (e : ℤ) :
    scaled s (e + k) = scaled s e * ((10 ^ k : ℕ) * 2 ^ unitExp) / 2 ^ unitExp := by
  rw [scaled, scaled, zpow_add₀ (by norm_num), zpow_natCast, eq_div_iff (by positivity)]
  push_cast
  ring

theorem scaled_sub (s k : ℕ) (e : ℤ) :
    scaled s (e - k) = scaled s e * 2 ^ unitExp / ((10 ^ k : ℕ) * 2 ^ unitExp) := by
  rw [scaled, scaled, zpow_sub₀ (by norm_num), zpow_natCast, eq_div_iff (by positivity)]
  push_cast
  field_simp

/-! Steps of a reading -/

/-- A word on the way to the value of a significand and an exponent. -/
structure Approximates (c : ℚ) (s : ℕ) (e : ℤ) (x : Binary64) : Prop where
  finite : x.isFinite = true
  not_neg : x.isNeg = false
  worth_pos : 0 < x.worth
  near : Near c x.worth (scaled s e)

/-- A word rounded from a number near the value of a significand and an exponent. -/
structure Rounds (c : ℚ) (s : ℕ) (e : ℤ) (x : Binary64) (q : ℚ) : Prop where
  nearest : IsNearest x q
  not_neg : x.isNeg = false
  nonneg : 0 ≤ q
  near : Near c q (scaled s e)

variable {c q : ℚ}

theorem Rounds.mono {d : ℚ} (h : Rounds c s e x q) (hcd : c ≤ d) : Rounds d s e x q :=
  ⟨h.nearest, h.not_neg, h.nonneg, h.near.mono hcd h.nonneg (scaled_nonneg s e)⟩

theorem approximates_ofNat (hs0 : 0 < s) (hs : s < significandLimit) :
    Approximates (1 + roundoff) s 0 (.ofNat s) where
  finite := isFinite_ofNat_of_lt hs
  not_neg := isNeg_ofNat s
  worth_pos := worth_ofNat_pos hs0
  near := by
    rw [scaled_zero]
    exact near_ofNat hs0 (isFinite_ofNat_of_lt hs)

theorem ten_pow_pos (k : ℕ) : 0 < 10 ^ k := Nat.pow_pos (by decide)

theorem worth_powerOfTen_pos (k : ℕ) : 0 < (powerOfTen k).worth := worth_ofNat_pos (ten_pow_pos k)

theorem near_powerOfTen (hk : k ≤ 308) :
    Near (1 + roundoff) (powerOfTen k).worth ((10 ^ k : ℕ) * 2 ^ unitExp) :=
  near_ofNat (ten_pow_pos k) (isFinite_powerOfTen hk)

/-- Powers of ten of at most 53 bits, trailing zeros apart, are words. -/
theorem worth_powerOfTen (hk : k ≤ 22) :
    (powerOfTen k).worth = (10 ^ k : ℕ) * 2 ^ unitExp := by
  have hfive : 5 ^ k ≤ 2 * hiddenBit :=
    (Nat.pow_le_pow_right (by decide) hk).trans (by decide)
  have hten : ((10 ^ k : ℕ) : ℚ) * 2 ^ unitExp = (5 ^ k : ℕ) * 2 ^ (k + unitExp) := by
    rw [show (10 : ℕ) = 5 * 2 by rfl, mul_pow, pow_add]
    push_cast
    ring
  have hnear := isNearest_ofNat (10 ^ k)
  rw [hten] at hnear ⊢
  exact worth_eq_of_isNearest hfive (by unfold unitExp; omega) hnear

/-- Multiplying by a power of ten that is within a factor of its word. -/
theorem Approximates.mul_of_near {d : ℚ} (h : Approximates c s e x) (hk : k ≤ 308)
    (hten : Near d (powerOfTen k).worth ((10 ^ k : ℕ) * 2 ^ unitExp)) :
    ∃ q, Rounds (c * d) s (e + k) (x * powerOfTen k) q := by
  have hp := isFinite_powerOfTen hk
  have hwx := h.worth_pos
  have hwp := worth_powerOfTen_pos k
  have hu : (0 : ℚ) < 2 ^ unitExp := by positivity
  refine ⟨_, isNearest_mul h.finite hp, ?_, by positivity, ?_⟩
  · rw [isNeg_mul h.finite hp, h.not_neg, isNeg_powerOfTen]
    rfl
  · rw [scaled_add, ← mul_one (c * d)]
    have hprod := h.near.mul hten hwx.le (scaled_nonneg s e) hwp.le (by positivity)
    have hten : (0 : ℚ) ≤ (10 ^ k : ℕ) * 2 ^ unitExp := by positivity
    have hv := mul_nonneg (scaled_nonneg s e) hten
    exact hprod.div (near_self le_rfl hu.le) (by positivity) hv hu hu

/-- Dividing by a power of ten that is within a factor of its word. -/
theorem Approximates.div_of_near {d : ℚ} (h : Approximates c s e x) (hk : k ≤ 308)
    (hten : Near d (powerOfTen k).worth ((10 ^ k : ℕ) * 2 ^ unitExp)) :
    ∃ q, Rounds (c * d) s (e - k) (x / powerOfTen k) q := by
  have hp := isFinite_powerOfTen hk
  have h0 : (powerOfTen k).mag ≠ 0 := mag_ofNat_ne_zero (ten_pow_pos k)
  have hwx := h.worth_pos
  have hwp := worth_powerOfTen_pos k
  have hu : (0 : ℚ) < 2 ^ unitExp := by positivity
  refine ⟨_, isNearest_div h.finite hp h0, ?_, by positivity, ?_⟩
  · rw [isNeg_div h.finite hp h0, h.not_neg, isNeg_powerOfTen]
    rfl
  · rw [scaled_sub, ← mul_one c]
    have hnum := h.near.mul (near_self le_rfl hu.le) hwx.le (scaled_nonneg s e) hu.le hu.le
    have hv := mul_nonneg (scaled_nonneg s e) hu.le
    exact hnum.div hten (by positivity) hv hwp (by positivity)

theorem near_powerOfTen_exact (hk : k ≤ 22) :
    Near 1 (powerOfTen k).worth ((10 ^ k : ℕ) * 2 ^ unitExp) := by
  rw [worth_powerOfTen hk]
  exact near_self le_rfl (by positivity)

/-! Exponents below the least power of ten -/

theorem scaled_mono {n : ℕ} {i : ℤ} (hs : s ≤ n) (he : e ≤ i) : scaled s e ≤ scaled n i := by
  have hs : (s : ℚ) ≤ n := by exact_mod_cast hs
  have he : (10 : ℚ) ^ e ≤ 10 ^ i := zpow_le_zpow_right₀ (by norm_num) he
  have := ten_zpow_pos e
  unfold scaled
  gcongr

theorem scaled_le_iff (s n : ℕ) (e : ℤ) :
    scaled s e ≤ n ↔ 10 ^ e.toNat * (s * 2 ^ unitExp) ≤ n * 10 ^ (-e).toNat := by
  rw [← ten_zpow_mul_le_iff, scaled]
  push_cast
  rw [mul_comm (s : ℚ), mul_assoc]

theorem le_scaled_iff (s n : ℕ) (e : ℤ) :
    n ≤ scaled s e ↔ n * 10 ^ (-e).toNat ≤ 10 ^ e.toNat * (s * 2 ^ unitExp) := by
  rw [← le_ten_zpow_mul_iff, scaled]
  push_cast
  rw [mul_comm (s : ℚ), mul_assoc]

theorem isFinite_div_powerOfTen (h : Approximates c s e x) (hk : k ≤ 308) :
    (x / powerOfTen k).isFinite = true := by
  have hu : (0 : ℚ) < 2 ^ unitExp := by positivity
  have hwp := worth_powerOfTen_pos k
  have hone : (2 : ℚ) ^ unitExp ≤ (powerOfTen k).worth := by
    have := worth_le_worth (one_le_ofNat (ten_pow_pos k))
    rwa [worth_one] at this
  have hnear := isNearest_div h.finite (isFinite_powerOfTen hk) (mag_ofNat_ne_zero (ten_pow_pos k))
  refine hnear.isFinite (isFinite_iff.mp h.finite) ?_
  have hnonneg : 0 ≤ x.worth * 2 ^ unitExp / (powerOfTen k).worth :=
    div_nonneg (mul_nonneg h.worth_pos.le hu.le) hwp.le
  rw [abs_of_nonneg hnonneg, ← worth_of_not_isNeg h.not_neg, div_le_iff₀ hwp]
  exact mul_le_mul_of_nonneg_left hone h.worth_pos.le

/-- A significand divided by the greatest power of ten; a small one leaves the normal range. -/
theorem approximates_div_top (hs0 : 0 < s) (hs : s < significandLimit) :
    Approximates ((1 + 8 * roundoff) * (1 + roundoff) ^ 2) s (-308)
        (.ofNat s / powerOfTen 308) ∧
      (5 ≤ s → Approximates ((1 + roundoff) ^ 3) s (-308) (.ofNat s / powerOfTen 308)) := by
  have hs' := approximates_ofNat hs0 hs
  have hu := roundoff_pos
  obtain ⟨q, hq⟩ := hs'.div_of_near le_rfl (near_powerOfTen le_rfl)
  rw [show (0 : ℤ) - (308 : ℕ) = -308 by rfl, ← sq] at hq
  have hfin := isFinite_div_powerOfTen hs' (k := 308) le_rfl
  have hc : (0 : ℚ) < (1 + roundoff) ^ 2 := by positivity
  have hlow : (2 ^ 50 : ℚ) ≤ q := by
    apply hq.near.le_of_mul_le hc
    have hone : ((2 ^ 50 + 1 : ℕ) : ℚ) ≤ scaled 1 (-308) := by
      rw [le_scaled_iff]
      decide +kernel
    refine le_trans ?_ (hone.trans (scaled_mono hs0 le_rfl))
    rw [roundoff]
    norm_num
  have hfirst := hq.nearest.near_of_bits hfin hlow
  have hpos : 0 < (Binary64.ofNat s / powerOfTen 308).worth := by
    have hle := hfirst.ge_mul
    have : (0 : ℚ) < 2 ^ 50 := by positivity
    exact pos_of_mul_pos_left ((this.trans_le hlow).trans_le hle) (by positivity)
  refine ⟨⟨hfin, hq.not_neg, hpos, hfirst.trans hq.near (by positivity) hc.le⟩, fun h5 => ?_⟩
  have hhigh : (2 ^ 53 : ℚ) ≤ q := by
    apply hq.near.le_of_mul_le hc
    have hfive : ((2 ^ 53 + 3 : ℕ) : ℚ) ≤ scaled 5 (-308) := by
      rw [le_scaled_iff]
      decide +kernel
    refine le_trans ?_ (hfive.trans (scaled_mono h5 le_rfl))
    rw [roundoff]
    norm_num
  have h := (hq.nearest.near hfin hhigh).trans hq.near (by positivity) hc.le
  rw [← pow_succ'] at h
  exact ⟨hfin, hq.not_neg, hpos, h⟩

/-- A value among small magnitudes. -/
def Small (s : ℕ) (e : ℤ) : Prop := scaled s e ≤ (2 ^ 50 - 2 : ℕ)

/-- Far below one the division takes two steps. Above the first binade their errors come to three
roundoffs; the rest is small. -/
theorem rounds_div_twice (hs0 : 0 < s) (hs : s < significandLimit) (hk0 : 0 < k) (hk : k ≤ 52) :
    ∃ q, Rounds ((1 + roundoff) ^ 3) s (-308 - k)
        (.ofNat s / powerOfTen 308 / powerOfTen k) q ∨
      Small s (-308 - k) ∧ Rounds ((1 + 8 * roundoff) ^ 2) s (-308 - k)
        (.ofNat s / powerOfTen 308 / powerOfTen k) q := by
  obtain ⟨hany, hlarge⟩ := approximates_div_top hs0 hs
  by_cases hcase : 5 ≤ s ∧ k ≤ 22
  · obtain ⟨q, hq⟩ := (hlarge hcase.1).div_of_near (by omega) (near_powerOfTen_exact hcase.2)
    rw [mul_one] at hq
    exact ⟨q, .inl hq⟩
  · obtain ⟨q, hq⟩ := hany.div_of_near (by omega) (near_powerOfTen (k := k) (by omega))
    refine ⟨q, .inr ⟨?_, hq.nearest, hq.not_neg, hq.nonneg, ?_⟩⟩
    · rcases not_and_or.mp hcase with h4 | h22
      · refine (scaled_mono (n := 4) (i := -309) (by omega) (by omega)).trans ?_
        rw [scaled_le_iff]
        decide +kernel
      · refine (scaled_mono (n := significandLimit) (i := -331) hs.le (by omega)).trans ?_
        rw [scaled_le_iff]
        decide +kernel
    · refine hq.near.mono ?_ hq.nonneg (scaled_nonneg _ _)
      rw [roundoff]
      norm_num

/-! The whole reading -/

theorem scale_natCast (hs : s < significandLimit) (hk : k ≤ 30) :
    scale 3 (.ofNat s) k = some (.ofNat s * powerOfTen k) := by
  obtain ⟨f, hf⟩ := scale_isSome hs (e := k) (by omega)
  have hval := hf
  rw [scale, if_pos (by omega), if_pos (by omega)] at hval
  dsimp only at hval
  split_ifs at hval
  rw [hf, ← hval]
  rfl

theorem scale_neg (n : ℕ) (f : Binary64) (hk0 : 0 < k) (hk : k ≤ 308) :
    scale (n + 1) f (-k) = some (f / powerOfTen k) := by
  rw [scale, if_pos (by omega), if_neg (by omega), Int.natAbs_neg, Int.natAbs_natCast]

/-- A significand and an exponent scaled, with at most three roundoffs of error, or small. -/
theorem scale_rounds (hs0 : 0 < s) (hs : s < significandLimit) (hlow : -360 ≤ e) (hhigh : e ≤ 30) :
    ∃ f q, scale 3 (.ofNat s) e = some f ∧ (Rounds ((1 + roundoff) ^ 3) s e f q ∨
      Small s e ∧ Rounds ((1 + 8 * roundoff) ^ 2) s e f q) := by
  have hstart := approximates_ofNat hs0 hs
  have hcube : (1 + roundoff) * (1 + roundoff) ≤ (1 + roundoff) ^ 3 := by
    rw [roundoff]
    norm_num
  rcases le_or_gt 0 e with he | he
  · obtain ⟨k, rfl⟩ := Int.eq_ofNat_of_zero_le he
    obtain ⟨q, hq⟩ := hstart.mul_of_near (by omega) (near_powerOfTen (k := k) (by omega))
    rw [zero_add] at hq
    exact ⟨_, q, scale_natCast hs (by omega), .inl (hq.mono hcube)⟩
  obtain ⟨k, rfl⟩ : ∃ k : ℕ, e = -k := ⟨e.natAbs, by omega⟩
  by_cases hk : k ≤ 308
  · obtain ⟨q, hq⟩ := hstart.div_of_near hk (near_powerOfTen hk)
    rw [zero_sub] at hq
    exact ⟨_, q, scale_neg 2 _ (by omega) hk, .inl (hq.mono hcube)⟩
  · obtain ⟨j, rfl⟩ : ∃ j, k = 308 + j := ⟨k - 308, by omega⟩
    have hzero : (Binary64.ofNat s).isZero = false := by
      simpa [isZero] using mag_ofNat_ne_zero hs0
    have hsplit : -((308 + j : ℕ) : ℤ) = -308 - j := by omega
    have hrest : (-308 - j + 308 : ℤ) = -j := by omega
    obtain ⟨q, hq⟩ := rounds_div_twice (k := j) hs0 hs (by omega) (by omega)
    rw [hsplit]
    refine ⟨_, q, ?_, hq⟩
    rw [scale, if_neg (by omega), if_neg (by rw [hzero]; exact Bool.false_ne_true),
      if_neg (by omega), hrest]
    exact scale_neg 1 _ (by omega) (by omega)

theorem Rounds.within {m : ℕ} (h : Rounds (c ^ k) s e f q) (hc : 0 ≤ c) (hk : 0 < k) (h0 : 0 < m)
    (hm : m < infinite) (hgrow : ∀ i < m + k, halfway i * c < halfway (i + 1))
    (hback : nearestMag (scaled s e) = m) : Within k (ofMag false m) f := by
  have hlt : m < 2 ^ 63 := hm.trans infinite_lt
  obtain ⟨hle, hge⟩ :=
    places_le_of_near hc hk h0 hm hgrow h.nonneg (scaled_nonneg s e) hback h.near
  rw [← h.nearest.mag_eq h.nonneg] at hle hge
  refine ⟨h.nearest.not_nan, ?_, ?_, ?_⟩
  · rw [h.not_neg, isNeg_ofMag _ hlt]
  · rwa [mag_ofMag _ hlt]
  · rwa [mag_ofMag _ hlt]

/-- A significand and an exponent that stand for a word are read at most three places off it. -/
theorem scale_within {m : ℕ} (h0 : 0 < m) (hm : m < infinite) (hs0 : 0 < s)
    (hs : s < significandLimit) (hlow : -360 ≤ e) (hhigh : e ≤ 30)
    (hback : nearestMag (scaled s e) = m) :
    ∃ f, scale 3 (.ofNat s) e = some f ∧ Within 3 (ofMag false m) f := by
  obtain ⟨f, q, hf, hq⟩ := scale_rounds hs0 hs hlow hhigh
  have hu := roundoff_pos
  refine ⟨f, hf, ?_⟩
  rcases hq with hq | ⟨hsmall, hq⟩
  · exact hq.within (by positivity) (by omega) h0 hm (fun i _ => halfway_mul_lt i) hback
  · have hle : m ≤ 2 ^ 50 - 2 := by
      have hunits : units (2 ^ 50 - 2) = 2 ^ 50 - 2 := rfl
      rw [← hback, ← nearestMag_units (m := 2 ^ 50 - 2) (by decide), hunits]
      exact nearestMag_mono (scaled_nonneg s e) hsmall
    exact (hq.within (by positivity) (by omega) h0 hm
      (fun i hi => halfway_mul_lt_of_lt (by omega)) hback).mono (by omega)

/-- Digits of 53 bits over a power of ten that is a word are read exactly. -/
theorem scale_exact {m : ℕ} (hm : m < infinite) (hs0 : 0 < s) (hs : s ≤ 2 * hiddenBit)
    (hlow : -22 ≤ e) (hhigh : e ≤ 22) (hback : nearestMag (scaled s e) = m) :
    scale 3 (.ofNat s) e = some (ofMag false m) := by
  have hlim : s < significandLimit := hs.trans_lt (by decide)
  have hstart : Approximates 1 s 0 (.ofNat s) := by
    refine ⟨isFinite_ofNat_of_lt hlim, isNeg_ofNat s, worth_ofNat_pos hs0, ?_⟩
    rw [scaled_zero, worth_ofNat hs]
    exact near_self le_rfl (by positivity)
  have hexact {f : Binary64} {q : ℚ} (h : Rounds (1 * 1) s e f q) : f = ofMag false m := by
    have hq : q = scaled s e := by
      have hle := h.near.le_mul
      have hge := h.near.ge_mul
      rw [mul_one, mul_one] at hle hge
      exact le_antisymm hle hge
    have hlt : m < 2 ^ 63 := hm.trans infinite_lt
    refine ext_mag (h.not_neg.trans (isNeg_ofMag _ hlt).symm) ?_
    rw [mag_ofMag _ hlt, h.nearest.mag_eq h.nonneg, hq, hback]
  rcases le_or_gt 0 e with he | he
  · obtain ⟨k, rfl⟩ := Int.eq_ofNat_of_zero_le he
    obtain ⟨q, hq⟩ := hstart.mul_of_near (by omega) (near_powerOfTen_exact (k := k) (by omega))
    rw [zero_add] at hq
    rw [scale_natCast hlim (by omega), hexact hq]
  · obtain ⟨k, rfl⟩ : ∃ k : ℕ, e = -k := ⟨e.natAbs, by omega⟩
    obtain ⟨q, hq⟩ := hstart.div_of_near (by omega) (near_powerOfTen_exact (k := k) (by omega))
    rw [zero_sub] at hq
    rw [scale_neg 2 _ (by omega) (by omega), hexact hq]

/-! Words -/

theorem scaled_significant (d : Decimal) :
    scaled (significant d).1 (significant d).2 = d.worth := by
  unfold significant
  split_ifs with h
  · obtain ⟨k, hk⟩ := Int.eq_ofNat_of_zero_le h.1
    simp only [scaled, Decimal.worth, hk, Int.toNat_natCast, zpow_natCast, zpow_neg, zpow_one]
    push_cast
    ring
  · rfl

theorem significant_pos (hpos : 0 < d.digits) : 0 < (significant d).1 := by
  unfold significant
  split_ifs
  · exact Nat.mul_pos hpos (Nat.pow_pos (by decide))
  · exact hpos

theorem reread_of_scale (h : scale 3 (.ofNat (significantOf x).1) (significantOf x).2 = some f) :
    reread x = if x.isNeg then -f else f := by
  simp only [reread, h, Option.getD_some]

/-- A word with the sign that its magnitude was read with. -/
theorem within_signed (h : Within k (ofMag false x.mag) f) :
    Within k x (if x.isNeg then -f else f) := by
  have hfree := h.isNeg_eq
  have hle := h.mag_le
  have hge := h.le_mag
  rw [isNeg_ofMag _ x.mag_lt] at hfree
  rw [mag_ofMag _ x.mag_lt] at hle hge
  cases hx : x.isNeg with
  | false => exact ⟨h.not_nan, by rw [hx]; exact hfree, hle, hge⟩
  | true =>
    refine ⟨?_, ?_, ?_, ?_⟩
    · simpa using h.not_nan
    · simp [hfree, hx]
    · simpa using hle
    · simpa using hge

/-- What the digits of a positive finite word scale to. -/
structure Scales (x : Binary64) : Prop where
  mag_pos : 0 < x.mag
  mag_lt : x.mag < infinite
  pos : 0 < (significantOf x).1
  back : nearestMag (scaled (significantOf x).1 (significantOf x).2) = x.mag

theorem scales_of_not_isZero (hx : x.isFinite = true) (hzero : x.isZero = false) : Scales x := by
  have h0 : 0 < x.mag := Nat.pos_of_ne_zero (by simpa [isZero] using hzero)
  have hmag := isFinite_iff.mp hx
  have hback := shortest_readsBack .even h0 hmag
  have hdef : significantOf x = significant (shortest .even x.mag) := by simp [significantOf, hzero]
  refine ⟨h0, hmag, ?_, ?_⟩
  · simpa [hdef] using significant_pos hback.digits_pos
  · rw [hdef, scaled_significant, hback.nearest]

/-- A zero of either sign is read exactly. -/
theorem reread_of_isZero (hzero : x.isZero = true) : reread x = x := by
  have hscale : scale 3 (.ofNat 0) (-1) = some (zero false) := by decide +kernel
  have hx : x.mag = 0 := isZero_iff.mp hzero
  have hdef : significantOf x = (0, -1) := by simp [significantOf, hzero]
  rw [reread_of_scale (f := zero false) (by rw [hdef]; exact hscale)]
  cases hneg : x.isNeg with
  | false => exact ext_mag (by simp [hneg]) (by simp [hx])
  | true => exact ext_mag (by simp [hneg]) (by simp [hx])

/-- A moderate word is read at most three places off. -/
theorem within_reread (hx : Moderate x) : Within 3 x (reread x) := by
  cases hzero : x.isZero with
  | true =>
    rw [reread_of_isZero hzero]
    exact within_self (isNaN_of_isFinite hx.finite)
  | false =>
    have hd := significantOf_bounds hx
    have hs := scales_of_not_isZero hx.finite hzero
    obtain ⟨f, hf, hwithin⟩ :=
      scale_within hs.mag_pos hs.mag_lt hs.pos hd.lt_limit hd.low hd.high hs.back
    rw [reread_of_scale hf]
    exact within_signed hwithin

/-- Three places off, only the least three words could be read as zero, and they are not. -/
theorem mag_reread_eq_zero_iff (hx : Moderate x) (hn : x.isNeg = false) :
    (reread x).mag = 0 ↔ x.mag = 0 := by
  have hleast : ∀ m ∈ [1, 2, 3], (reread (ofMag false m)).mag ≠ 0 := by decide +kernel
  constructor
  · intro h0
    by_contra hpos
    have hle := (within_reread hx).le_mag
    have hmem : x.mag ∈ [1, 2, 3] := by
      simp only [List.mem_cons, List.not_mem_nil, or_false]
      omega
    have hself : ofMag false x.mag = x :=
      ext_mag ((isNeg_ofMag _ x.mag_lt).trans hn.symm) (mag_ofMag _ x.mag_lt)
    refine hleast _ hmem ?_
    rw [hself, h0]
  · intro h0
    rw [reread_of_isZero (isZero_iff.mpr h0), h0]

/-- A word of at most 53 bits of digits and a small exponent is read exactly. -/
theorem reread_of_short (hx : x.isFinite = true) (hs : (significantOf x).1 ≤ 2 * hiddenBit)
    (hlow : -22 ≤ (significantOf x).2) (hhigh : (significantOf x).2 ≤ 22) : reread x = x := by
  cases hzero : x.isZero with
  | true => exact reread_of_isZero hzero
  | false =>
    have hsc := scales_of_not_isZero hx hzero
    have hscale := scale_exact hsc.mag_lt hsc.pos hs hlow hhigh hsc.back
    rw [reread_of_scale hscale]
    cases hneg : x.isNeg with
    | false =>
      exact ext_mag (by simp [hneg, isNeg_ofMag _ x.mag_lt]) (by simp [mag_ofMag _ x.mag_lt])
    | true =>
      exact ext_mag (by simp [hneg, isNeg_ofMag _ x.mag_lt]) (by simp [mag_ofMag _ x.mag_lt])

end BucketOverflow.Json
