import Mathlib.Tactic.GCongr
import BucketOverflow.Proofs.Binary64.Arithmetic
import BucketOverflow.Proofs.Decimal.Shortest

/-! Relative errors. One rounding of a number above the first binade changes it by a factor of at
most `1 + 2 ^ -53`, and midpoints grow by more than that factor from one magnitude to the next; so
numbers that lie `k` such factors apart round at most `k` places apart. -/
namespace BucketOverflow.Binary64
open Decimal

/-- Two numbers that a factor of at most `c` leads from one to the other. -/
structure Near (c p q : ℚ) : Prop where
  le_mul : p ≤ q * c
  ge_mul : q ≤ p * c

variable {c d p q r s : ℚ} {m n k : ℕ} {x : Binary64}

theorem Near.trans (h : Near c p q) (h' : Near d q r) (hc : 0 ≤ c) (hd : 0 ≤ d) :
    Near (c * d) p r where
  le_mul := by
    calc p ≤ q * c := h.le_mul
      _ ≤ r * d * c := mul_le_mul_of_nonneg_right h'.le_mul hc
      _ = r * (c * d) := by ring
  ge_mul := by
    calc r ≤ q * d := h'.ge_mul
      _ ≤ p * c * d := mul_le_mul_of_nonneg_right h.ge_mul hd
      _ = p * (c * d) := by ring

theorem Near.mono (h : Near c p q) (hcd : c ≤ d) (hp : 0 ≤ p) (hq : 0 ≤ q) : Near d p q where
  le_mul := h.le_mul.trans (mul_le_mul_of_nonneg_left hcd hq)
  ge_mul := h.ge_mul.trans (mul_le_mul_of_nonneg_left hcd hp)

theorem Near.le_of_mul_le (h : Near c p q) (hc : 0 < c) (hr : r * c ≤ q) : r ≤ p :=
  le_of_mul_le_mul_right (hr.trans h.ge_mul) hc

theorem near_self (hc : 1 ≤ c) (hp : 0 ≤ p) : Near c p p :=
  ⟨le_mul_of_one_le_right hp hc, le_mul_of_one_le_right hp hc⟩

theorem Near.mul (h : Near c p q) (h' : Near d r s) (hp : 0 ≤ p) (hq : 0 ≤ q) (hr : 0 ≤ r)
    (hs : 0 ≤ s) : Near (c * d) (p * r) (q * s) where
  le_mul := by
    calc p * r ≤ q * c * (s * d) := mul_le_mul h.le_mul h'.le_mul hr (hp.trans h.le_mul)
      _ = q * s * (c * d) := by ring
  ge_mul := by
    calc q * s ≤ p * c * (r * d) := mul_le_mul h.ge_mul h'.ge_mul hs (hq.trans h.ge_mul)
      _ = p * r * (c * d) := by ring

theorem Near.mul_right (h : Near c p q) (hr : 0 ≤ r) : Near c (p * r) (q * r) where
  le_mul := by
    calc p * r ≤ q * c * r := mul_le_mul_of_nonneg_right h.le_mul hr
      _ = q * r * c := by ring
  ge_mul := by
    calc q * r ≤ p * c * r := mul_le_mul_of_nonneg_right h.ge_mul hr
      _ = p * r * c := by ring

theorem Near.inv (h : Near c p q) (hp : 0 < p) (hq : 0 < q) : Near c p⁻¹ q⁻¹ := by
  have hpq : 0 ≤ p⁻¹ * q⁻¹ := by positivity
  constructor
  · calc p⁻¹ = q * (p⁻¹ * q⁻¹) := by field_simp
      _ ≤ p * c * (p⁻¹ * q⁻¹) := mul_le_mul_of_nonneg_right h.ge_mul hpq
      _ = q⁻¹ * c := by field_simp
  · calc q⁻¹ = p * (p⁻¹ * q⁻¹) := by field_simp
      _ ≤ q * c * (p⁻¹ * q⁻¹) := mul_le_mul_of_nonneg_right h.le_mul hpq
      _ = p⁻¹ * c := by field_simp

theorem Near.div (h : Near c p q) (h' : Near d r s) (hp : 0 ≤ p) (hq : 0 ≤ q) (hr : 0 < r)
    (hs : 0 < s) : Near (c * d) (p / r) (q / s) := by
  rw [div_eq_mul_inv, div_eq_mul_inv]
  exact h.mul (h'.inv hr hs) hp hq (inv_nonneg.mpr hr.le) (inv_nonneg.mpr hs.le)

/-! One rounding -/

/-- Half of the spacing of significands, relative to the least significand. -/
def roundoff : ℚ := 1 / 2 ^ 53

theorem roundoff_pos : 0 < roundoff := by unfold roundoff; positivity

/-- What rounds to a magnitude lies between its midpoints. -/
theorem halfway_bounds (h0 : 0 < m) (hm : m < infinite) (hq : 0 ≤ q) (h : nearestMag q = m) :
    halfway (m - 1) ≤ q ∧ q ≤ halfway m := by
  obtain ⟨hlow, hhigh⟩ := (nearestMag_eq_iff h0 hm hq).mp h
  constructor
  · rcases hlow with hlt | ⟨heq, -⟩
    · exact hlt.le
    · exact heq.le
  · exact not_lt.mp fun hlt => hhigh (.inl hlt)

theorem halfway_eq (m : ℕ) : halfway m = (significand m + 1 / 2) * 2 ^ shiftOf m := by
  have := four_mul_halfway m
  linarith

/-- Above the first binade a magnitude is within one roundoff of what rounds to it. -/
theorem near_nearestMag (hm : nearestMag q < infinite) (hs : shiftOf (nearestMag q) ≠ 0)
    (hq : 0 ≤ q) : Near (1 + roundoff) (units (nearestMag q)) q := by
  generalize hmag : nearestMag q = m at *
  have h0 : 0 < m := Nat.pos_of_ne_zero fun h => hs (by rw [h]; rfl)
  obtain ⟨hlow, hhigh⟩ := halfway_bounds h0 hm hq hmag
  have hpow : (0 : ℚ) < 2 ^ shiftOf m := by positivity
  have hsig : (2 : ℚ) ^ 52 ≤ significand m := by
    have := (hiddenBit_le_significand m).resolve_left hs
    rw [hiddenBit_eq] at this
    exact_mod_cast this
  have hpred := four_mul_halfway_pred h0
  rw [halfway_eq] at hhigh
  rw [units_cast]
  constructor
  · -- below a least significand the midpoint is only a quarter away
    have hle : (significand m : ℚ) ≤ halfway (m - 1) / 2 ^ shiftOf m * (1 + roundoff) := by
      rw [show halfway (m - 1) = (4 * halfway (m - 1)) / 4 by ring, hpred, div_right_comm,
        mul_div_cancel_right₀ _ hpow.ne']
      split_ifs with hb
      · rw [hb.1, hiddenBit_eq, roundoff]
        norm_num
      · have hlt : (2 : ℚ) ^ 52 + 1 ≤ significand m := by
          have hne : significand m ≠ 2 ^ 52 := fun h => hb ⟨h.trans hiddenBit_eq.symm, hs⟩
          have hge : 2 ^ 52 ≤ significand m := by exact_mod_cast hsig
          exact_mod_cast (show 2 ^ 52 + 1 ≤ significand m by omega)
        rw [roundoff]
        linarith
    calc (significand m : ℚ) * 2 ^ shiftOf m
        ≤ halfway (m - 1) / 2 ^ shiftOf m * (1 + roundoff) * 2 ^ shiftOf m :=
          mul_le_mul_of_nonneg_right hle hpow.le
      _ = halfway (m - 1) * (1 + roundoff) := by
          field_simp
      _ ≤ q * (1 + roundoff) := by
          have := roundoff_pos
          gcongr
  · have hle : (significand m + 1 / 2 : ℚ) ≤ significand m * (1 + roundoff) := by
      rw [roundoff]
      linarith
    calc q ≤ (significand m + 1 / 2) * 2 ^ shiftOf m := hhigh
      _ ≤ significand m * (1 + roundoff) * 2 ^ shiftOf m :=
          mul_le_mul_of_nonneg_right hle hpow.le
      _ = significand m * 2 ^ shiftOf m * (1 + roundoff) := by ring

/-- A magnitude of at least 51 bits is within eight roundoffs of what rounds to it. -/
theorem near_nearestMag_of_bits (hm : nearestMag q < infinite)
    (hs : 2 ^ 50 ≤ significand (nearestMag q)) (hq : 0 ≤ q) :
    Near (1 + 8 * roundoff) (units (nearestMag q)) q := by
  generalize hmag : nearestMag q = m at *
  have h0 : 0 < m := Nat.pos_of_ne_zero fun h => by
    rw [h] at hs
    exact absurd hs (by decide)
  obtain ⟨hlow, hhigh⟩ := halfway_bounds h0 hm hq hmag
  have hpow : (0 : ℚ) < 2 ^ shiftOf m := by positivity
  have hsig : (2 : ℚ) ^ 50 ≤ significand m := by exact_mod_cast hs
  have hpred : (significand m - 1 / 2) * 2 ^ shiftOf m ≤ halfway (m - 1) := by
    have := four_mul_halfway_pred h0
    split_ifs at this <;> linarith
  rw [halfway_eq] at hhigh
  rw [units_cast]
  constructor
  · have hle : (significand m : ℚ) ≤ (significand m - 1 / 2) * (1 + 8 * roundoff) := by
      rw [roundoff]
      linarith
    calc (significand m : ℚ) * 2 ^ shiftOf m
        ≤ (significand m - 1 / 2) * (1 + 8 * roundoff) * 2 ^ shiftOf m :=
          mul_le_mul_of_nonneg_right hle hpow.le
      _ = (significand m - 1 / 2) * 2 ^ shiftOf m * (1 + 8 * roundoff) := by ring
      _ ≤ q * (1 + 8 * roundoff) := by
          have := roundoff_pos
          exact mul_le_mul_of_nonneg_right (hpred.trans hlow) (by linarith)
  · have hle : (significand m + 1 / 2 : ℚ) ≤ significand m * (1 + 8 * roundoff) := by
      rw [roundoff]
      linarith
    calc q ≤ (significand m + 1 / 2) * 2 ^ shiftOf m := hhigh
      _ ≤ significand m * (1 + 8 * roundoff) * 2 ^ shiftOf m :=
          mul_le_mul_of_nonneg_right hle hpow.le
      _ = significand m * 2 ^ shiftOf m * (1 + 8 * roundoff) := by ring

/-! Places -/

/-- From one midpoint to the next is more than a roundoff. -/
theorem halfway_mul_lt (m : ℕ) : halfway m * (1 + roundoff) < halfway (m + 1) := by
  have hpow : (0 : ℚ) < 2 ^ shiftOf m := by positivity
  have hsig : (significand m : ℚ) + 1 ≤ 2 ^ 53 := by
    have := significand_lt m
    rw [hiddenBit_eq, ← pow_succ'] at this
    exact_mod_cast this
  have hstep : (2 : ℚ) ^ shiftOf m ≤ 2 ^ shiftOf (m + 1) :=
    pow_le_pow_right₀ (by norm_num) (shiftOf_mono m.le_succ)
  have hnext : halfway m + 2 ^ shiftOf m ≤ halfway (m + 1) := by
    have h1 : (units (m + 1) : ℚ) = units m + 2 ^ shiftOf m := by
      rw [units_succ]
      push_cast
      rfl
    have h2 : (units (m + 1 + 1) : ℚ) = units (m + 1) + 2 ^ shiftOf (m + 1) := by
      rw [units_succ (m + 1)]
      push_cast
      rfl
    unfold halfway
    linarith
  have hround : halfway m * roundoff < 2 ^ shiftOf m := by
    have hfactor : (significand m + 1 / 2 : ℚ) * roundoff < 1 := by
      rw [roundoff]
      linarith
    calc halfway m * roundoff = (significand m + 1 / 2) * roundoff * 2 ^ shiftOf m := by
          rw [halfway_eq]
          ring
      _ < 1 * 2 ^ shiftOf m := mul_lt_mul_of_pos_right hfactor hpow
      _ = 2 ^ shiftOf m := one_mul _
  linarith

/-- Small magnitudes are far apart. -/
theorem halfway_mul_lt_of_lt (hm : m < 2 ^ 50) :
    halfway m * (1 + 8 * roundoff) < halfway (m + 1) := by
  have hunits {n : ℕ} (hn : n ≤ 2 ^ 50 + 1) : (units n : ℚ) = n := by
    have hbit : n < hiddenBit := hn.trans_lt (by decide)
    have := units_place (d := 0) (h := n) (by omega) (.inl rfl)
    simp only [zero_mul, zero_add, pow_zero, mul_one] at this
    rw [this]
  have hle : (m : ℚ) + 1 ≤ 2 ^ 50 := by exact_mod_cast hm
  rw [halfway, halfway, hunits (by omega), hunits (by omega), hunits (by omega), roundoff]
  push_cast
  linarith

/-- Over midpoints that grow by more than a factor, `k` such factors lead less than `k` on. -/
theorem halfway_mul_pow_lt (hc : 0 ≤ c) (hk : 0 < k)
    (hgrow : ∀ i < k, halfway (n + i) * c < halfway (n + i + 1)) :
    halfway n * c ^ k < halfway (n + k) := by
  induction k with
  | zero => exact absurd hk (Nat.lt_irrefl 0)
  | succ k ih =>
    have hlast := hgrow k k.lt_succ_self
    rcases Nat.eq_zero_or_pos k with rfl | hpos
    · simpa using hlast
    have hprev := ih hpos fun i hi => hgrow i (Nat.lt_succ_of_lt hi)
    calc halfway n * c ^ (k + 1) = halfway n * c ^ k * c := by ring
      _ ≤ halfway (n + k) * c := mul_le_mul_of_nonneg_right hprev.le hc
      _ < halfway (n + (k + 1)) := hlast

/-- Numbers that lie `k` factors apart round at most `k` places apart. -/
theorem places_le_of_near (hc : 0 ≤ c) (hk : 0 < k) (h0 : 0 < m) (hm : m < infinite)
    (hgrow : ∀ i < m + k, halfway i * c < halfway (i + 1)) (hq : 0 ≤ q) (hp : 0 ≤ p)
    (hp' : nearestMag p = m) (h : Near (c ^ k) q p) :
    nearestMag q ≤ m + k ∧ m ≤ nearestMag q + k := by
  obtain ⟨hlow, hhigh⟩ := halfway_bounds h0 hm hp hp'
  have hpow : 0 ≤ c ^ k := pow_nonneg hc k
  constructor
  · by_contra hlt
    have htop : m + k < infinite := (not_le.mp hlt).trans_le (nearestMag_le_infinite q)
    have hpast := (lt_nearestMag_iff hq htop).mp (not_le.mp hlt)
    have hle : halfway (m + k) ≤ q := hpast.elim le_of_lt fun heq => heq.1.le
    have := halfway_mul_pow_lt hc hk fun i hi => hgrow (m + i) (by omega)
    linarith [h.le_mul, mul_le_mul_of_nonneg_right hhigh hpow]
  · by_contra hlt
    obtain ⟨n, rfl⟩ : ∃ n, m = n + k + 1 := ⟨m - k - 1, by omega⟩
    have hpast : ¬RoundsPast n q := by
      rw [← lt_nearestMag_iff hq (by omega)]
      omega
    have hle : q ≤ halfway n := not_lt.mp fun hlt => hpast (.inl hlt)
    have := halfway_mul_pow_lt hc hk fun i hi => hgrow (n + i) (by omega)
    rw [Nat.add_sub_cancel] at hlow
    linarith [h.ge_mul, mul_le_mul_of_nonneg_right hle hpow]

/-! Words -/

/-- A word above the first binade is within a roundoff of what it is nearest to. -/
theorem IsNearest.near (hx : IsNearest x q) (hfin : x.isFinite = true) (hq : 2 ^ 53 ≤ q) :
    Near (1 + roundoff) x.worth q := by
  have hq0 : 0 ≤ q := le_trans (by positivity) hq
  have hmag : 2 * hiddenBit ≤ nearestMag q := by
    rw [← nearestMag_units (m := 2 * hiddenBit) (by decide)]
    refine nearestMag_mono (by positivity) (le_trans (le_of_eq ?_) hq)
    exact_mod_cast (show units (2 * hiddenBit) = 2 ^ 53 from rfl)
  rw [hx.worth_eq hq0]
  refine near_nearestMag ?_ ?_ hq0
  · rw [← hx.mag_eq hq0]
    exact isFinite_iff.mp hfin
  · unfold shiftOf hiddenBit at *
    omega

theorem IsNearest.neg (hx : IsNearest x q) : IsNearest (-x) (-q) :=
  ⟨by rw [isNaN_neg, hx.not_nan], by rw [key_neg, hx.key_eq, roundKey_neg]⟩

/-- Rounding moves a number by at most a roundoff of it, and by a unit in the first binade. -/
theorem IsNearest.abs_sub_le (hx : IsNearest x q) (hfin : x.isFinite = true) :
    |x.worth - q| ≤ roundoff * |q| + 1 := by
  wlog h0 : 0 ≤ q generalizing x q
  · have h := this hx.neg (by simpa using hfin) (by linarith)
    rwa [worth_neg, abs_neg, ← neg_sub', abs_neg] at h
  have hr := roundoff_pos
  rw [abs_of_nonneg h0]
  rcases le_or_gt (2 ^ 53) q with hbig | hsmall
  · obtain ⟨hle, hge⟩ := hx.near hfin hbig
    rcases le_total x.worth q with hxq | hxq
    · rw [abs_of_nonpos (by linarith)]
      nlinarith
    · rw [abs_of_nonneg (by linarith)]
      nlinarith
  · -- whole numbers of units are words here
    have hceil : ⌈q⌉₊ ≤ 2 * hiddenBit := by
      apply Nat.ceil_le.mpr
      exact hsmall.le.trans (by unfold hiddenBit; norm_num)
    have hup := hx.worth_le (s := 0) hceil (by decide) (by simpa using Nat.le_ceil q)
    have hdown := hx.le_worth (s := 0) ((Nat.floor_le_ceil q).trans hceil) (by decide)
      (by simpa using Nat.floor_le h0)
    have h1 := Nat.ceil_lt_add_one h0
    have h2 := Nat.lt_floor_add_one q
    have h3 := mul_nonneg hr.le h0
    rw [pow_zero, mul_one] at hup hdown
    rw [abs_le]
    constructor <;> linarith

theorem IsNearest.near_of_bits (hx : IsNearest x q) (hfin : x.isFinite = true) (hq : 2 ^ 50 ≤ q) :
    Near (1 + 8 * roundoff) x.worth q := by
  have hq0 : 0 ≤ q := le_trans (by positivity) hq
  have hmag : 2 ^ 50 ≤ nearestMag q := by
    rw [← nearestMag_units (m := 2 ^ 50) (by decide)]
    refine nearestMag_mono (by positivity) (le_trans (le_of_eq ?_) hq)
    exact_mod_cast (show units (2 ^ 50) = 2 ^ 50 from rfl)
  rw [hx.worth_eq hq0]
  refine near_nearestMag_of_bits ?_ ?_ hq0
  · rw [← hx.mag_eq hq0]
    exact isFinite_iff.mp hfin
  · unfold significand shiftOf hiddenBit
    omega

theorem worth_ofNat_pos (hn : 0 < n) : 0 < (ofNat n).worth := by
  have h1 := worth_le_worth (one_le_ofNat hn)
  rw [worth_one] at h1
  exact lt_of_lt_of_le (by positivity) h1

theorem mag_ofNat_ne_zero (hn : 0 < n) : (ofNat n).mag ≠ 0 := by
  intro h0
  have := worth_ofNat_pos hn
  rw [worth_of_not_isNeg (isNeg_ofNat n), h0] at this
  simp at this

/-- A positive natural number in range is within a roundoff of its word. -/
theorem near_ofNat (hn : 0 < n) (hfin : (ofNat n).isFinite = true) :
    Near (1 + roundoff) (ofNat n).worth (n * 2 ^ unitExp) := by
  refine (isNearest_ofNat n).near hfin ?_
  have h1 : (1 : ℚ) ≤ n := by exact_mod_cast hn
  calc (2 : ℚ) ^ 53 ≤ 2 ^ unitExp := pow_le_pow_right₀ (by norm_num) (by decide)
    _ ≤ n * 2 ^ unitExp := le_mul_of_one_le_left (by positivity) h1

/-- Words of one sign that are at most `k` places apart. -/
structure Within (k : ℕ) (x y : Binary64) : Prop where
  not_nan : y.isNaN = false
  isNeg_eq : y.isNeg = x.isNeg
  mag_le : y.mag ≤ x.mag + k
  le_mag : x.mag ≤ y.mag + k

theorem Within.mono {y : Binary64} (h : Within k x y) (hkn : k ≤ n) : Within n x y :=
  ⟨h.not_nan, h.isNeg_eq, h.mag_le.trans (Nat.add_le_add_left hkn _),
    h.le_mag.trans (Nat.add_le_add_left hkn _)⟩

theorem within_self (hx : x.isNaN = false) : Within k x x :=
  ⟨hx, rfl, Nat.le_add_right _ _, Nat.le_add_right _ _⟩

end BucketOverflow.Binary64
