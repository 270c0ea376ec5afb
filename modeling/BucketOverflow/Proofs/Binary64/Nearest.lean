import BucketOverflow.Proofs.Binary64.Units

/-! Rounding to nearest. A rational number of units rounds past a magnitude exactly when it lies
beyond the midpoint to the next one, or at the midpoint of an odd one. So rounding depends on the
number alone, keeps order, and fixes every magnitude. -/
namespace BucketOverflow.Binary64

/-- An integer lies below the nearest one exactly when its upper midpoint does, ties to even. -/
theorem lt_halfEven_iff {num den : ℕ} (hden : 0 < den) (k : ℕ) :
    k < halfEven num den ↔
      (2 * k + 1) * den < 2 * num ∨ (2 * k + 1) * den = 2 * num ∧ k % 2 = 1 := by
  have hr := Nat.mod_lt num hden
  have hsum := Nat.div_add_mod' num den
  unfold halfEven
  generalize num / den = q at *
  generalize num % den = r at *
  rcases lt_trichotomy k q with hk | rfl | hk
  · have hmul : (k + 1) * den ≤ q * den := Nat.mul_le_mul_right den hk
    have hlt : (2 * k + 1) * den < 2 * num := by nlinarith
    dsimp only
    split_ifs <;> omega
  · have hmul : (2 * k + 1) * den = 2 * (k * den) + den := by ring
    dsimp only
    split_ifs <;> omega
  · have hmul : (q + 1) * den ≤ k * den := Nat.mul_le_mul_right den hk
    have hgt : 2 * num < (2 * k + 1) * den := by nlinarith
    dsimp only
    split_ifs <;> omega

/-- The midpoint between a magnitude and the next. -/
def halfway (m : ℕ) : ℚ := (units m + units (m + 1)) / 2

/-- A number of units that rounds past a magnitude. -/
def RoundsPast (m : ℕ) (q : ℚ) : Prop := halfway m < q ∨ halfway m = q ∧ m % 2 = 1

theorem units_lt_halfway (m : ℕ) : (units m : ℚ) < halfway m := by
  have h : (units m : ℚ) < units (m + 1) := by exact_mod_cast units_strictMono m.lt_succ_self
  unfold halfway
  linarith

theorem halfway_lt_units_succ (m : ℕ) : halfway m < units (m + 1) := by
  have h : (units m : ℚ) < units (m + 1) := by exact_mod_cast units_strictMono m.lt_succ_self
  unfold halfway
  linarith

theorem RoundsPast.mono {m : ℕ} {p q : ℚ} (hp : RoundsPast m p) (hpq : p ≤ q) :
    RoundsPast m q := by
  rcases hp with hp | ⟨hp, hodd⟩
  · exact .inl (hp.trans_le hpq)
  · rcases hpq.lt_or_eq with hlt | rfl
    · exact .inl (hp.trans_lt hlt)
    · exact .inr ⟨hp, hodd⟩

/-- A number of units rounds past the magnitudes below the greatest that it reaches, and past none
above. -/
theorem roundsPast_of_lt {m n : ℕ} {q : ℚ} (hmn : m < n) (hq : units n ≤ q) : RoundsPast m q := by
  have h : (units (m + 1) : ℚ) ≤ units n := by exact_mod_cast units_strictMono.monotone hmn
  exact .inl ((halfway_lt_units_succ m).trans_le (h.trans hq))

theorem not_roundsPast_of_le {m n : ℕ} {q : ℚ} (hnm : n ≤ m) (hq : q ≤ units n) :
    ¬RoundsPast m q := by
  have h : (units n : ℚ) ≤ units m := by exact_mod_cast units_strictMono.monotone hnm
  have hlt := (hq.trans h).trans_lt (units_lt_halfway m)
  rintro (hp | ⟨hp, -⟩) <;> linarith

/-- A quotient scaled into its binade has at most 53 bits. -/
theorem quotient_lt {num den shift drop : ℕ} (hden : 0 < den)
    (hd : drop = (num / den).log2 + shift - 52) :
    (num * 2 ^ shift / den : ℚ) < 2 * hiddenBit * 2 ^ drop := by
  have hlt : num < 2 ^ ((num / den).log2 + 1) * den :=
    (Nat.div_lt_iff_lt_mul hden).mp Nat.lt_log2_self
  have hpow : 2 ^ ((num / den).log2 + 1) * 2 ^ shift ≤ 2 ^ 53 * 2 ^ drop := by
    rw [← pow_add, ← pow_add]
    exact Nat.pow_le_pow_right (by decide) (by omega)
  have hnat : num * 2 ^ shift < 2 * hiddenBit * 2 ^ drop * den := by
    calc num * 2 ^ shift < 2 ^ ((num / den).log2 + 1) * den * 2 ^ shift :=
          Nat.mul_lt_mul_of_pos_right hlt (by positivity)
      _ = 2 ^ ((num / den).log2 + 1) * 2 ^ shift * den := by ring
      _ ≤ 2 ^ 53 * 2 ^ drop * den := Nat.mul_le_mul_right _ hpow
      _ = 2 * hiddenBit * 2 ^ drop * den := by rw [hiddenBit_eq]; ring
  rw [div_lt_iff₀ (by exact_mod_cast hden)]
  exact_mod_cast hnat

/-- Above the first binade it has all 53 of them. -/
theorem le_quotient {num den shift drop : ℕ} (hden : 0 < den) (hs : den ≤ num ∨ shift = 0)
    (hd : drop = (num / den).log2 + shift - 52) :
    drop = 0 ∨ (hiddenBit * 2 ^ drop : ℚ) ≤ num * 2 ^ shift / den := by
  by_cases hle : den ≤ num
  · rcases Nat.eq_zero_or_pos drop with h0 | h0
    · exact .inl h0
    have hq : num / den ≠ 0 := (Nat.div_pos hle hden).ne'
    have hlog : 2 ^ (num / den).log2 * den ≤ num :=
      (Nat.le_div_iff_mul_le hden).mp (Nat.log2_self_le hq)
    have hnat : hiddenBit * 2 ^ drop * den ≤ num * 2 ^ shift := by
      calc hiddenBit * 2 ^ drop * den = 2 ^ (52 + drop) * den := by rw [hiddenBit_eq, pow_add]
        _ = 2 ^ (num / den).log2 * den * 2 ^ shift := by
          rw [show 52 + drop = (num / den).log2 + shift by omega, pow_add]
          ring
        _ ≤ num * 2 ^ shift := Nat.mul_le_mul_right _ hlog
    right
    rw [le_div_iff₀ (by exact_mod_cast hden)]
    exact_mod_cast hnat
  · left
    rw [Nat.div_eq_of_lt (not_le.mp hle), hs.resolve_left hle] at hd
    simpa using hd

/-- The significand of a quotient scaled into a binade, by midpoints. -/
theorem lt_scaled_halfEven_iff {den : ℕ} (hden : 0 < den) (num shift drop k : ℕ) :
    k < halfEven (num <<< (shift - drop)) (den <<< (drop - shift)) ↔
      ((2 * k + 1) * 2 ^ drop / 2 : ℚ) < num * 2 ^ shift / den ∨
        ((2 * k + 1) * 2 ^ drop / 2 : ℚ) = num * 2 ^ shift / den ∧ k % 2 = 1 := by
  have hden' : (0 : ℚ) < den := by exact_mod_cast hden
  have hscale : (2 : ℚ) ^ (drop - shift) * 2 ^ shift = 2 ^ (shift - drop) * 2 ^ drop := by
    rw [← pow_add, ← pow_add]
    congr 1
    omega
  have hdown : (0 : ℚ) < 2 ^ (drop - shift) := by positivity
  have hdrop : (0 : ℚ) < 2 ^ drop := by positivity
  rw [Nat.shiftLeft_eq, Nat.shiftLeft_eq, lt_halfEven_iff (Nat.mul_pos hden (by positivity))]
  -- both sides of the comparison differ by one positive factor
  have hdiff : (num * 2 ^ shift / den - (2 * k + 1) * 2 ^ drop / 2 : ℚ) *
      (2 * den * 2 ^ (drop - shift)) = (2 * (num * 2 ^ (shift - drop)) -
        (2 * k + 1) * (den * 2 ^ (drop - shift))) * 2 ^ drop := by
    field_simp
    linear_combination 2 * num * hscale
  have hlt : ((2 * k + 1) * (den * 2 ^ (drop - shift)) < 2 * (num * 2 ^ (shift - drop))) ↔
      ((2 * k + 1) * 2 ^ drop / 2 : ℚ) < num * 2 ^ shift / den := by
    rw [← sub_pos (b := ((2 * k + 1) * 2 ^ drop / 2 : ℚ)),
      ← mul_pos_iff_of_pos_right (by positivity : (0 : ℚ) < 2 * den * 2 ^ (drop - shift)), hdiff,
      mul_pos_iff_of_pos_right hdrop, sub_pos]
    exact_mod_cast Iff.rfl
  have heq : ((2 * k + 1) * (den * 2 ^ (drop - shift)) = 2 * (num * 2 ^ (shift - drop))) ↔
      ((2 * k + 1) * 2 ^ drop / 2 : ℚ) = num * 2 ^ shift / den := by
    rw [eq_comm (a := ((2 * k + 1) * 2 ^ drop / 2 : ℚ)),
      ← sub_eq_zero (b := ((2 * k + 1) * 2 ^ drop / 2 : ℚ)),
      ← mul_eq_zero_iff_right (by positivity : (2 * den * 2 ^ (drop - shift) : ℚ) ≠ 0), hdiff,
      mul_eq_zero_iff_right hdrop.ne', sub_eq_zero, eq_comm]
    exact_mod_cast Iff.rfl
  rw [hlt, heq]

theorem units_place_cast {d k : ℕ} (hk : k ≤ 2 * hiddenBit) (hd : d = 0 ∨ hiddenBit ≤ k) :
    (units (d * hiddenBit + k) : ℚ) = k * 2 ^ d := by
  rw [units_place hk hd]
  push_cast
  rfl

theorem halfway_place {d k : ℕ} (hk : k < 2 * hiddenBit) (hd : d = 0 ∨ hiddenBit ≤ k) :
    halfway (d * hiddenBit + k) = (2 * k + 1) * 2 ^ d / 2 := by
  rw [halfway, add_assoc, units_place_cast hk.le hd, units_place_cast hk (by omega)]
  push_cast
  ring

/-- A significand rounded from a number of units, in the binade of that number. -/
structure RoundedAt (drop h : ℕ) (q : ℚ) : Prop where
  lt_iff (k : ℕ) : k < h ↔ ((2 * k + 1) * 2 ^ drop / 2 : ℚ) < q ∨
    ((2 * k + 1) * 2 ^ drop / 2 : ℚ) = q ∧ k % 2 = 1
  lt : q < 2 * hiddenBit * 2 ^ drop
  le : drop = 0 ∨ hiddenBit * 2 ^ drop ≤ q

section
variable {drop h m k : ℕ} {q : ℚ} (hr : RoundedAt drop h q)
include hr

theorem RoundedAt.le_top : h ≤ 2 * hiddenBit := by
  have hscale : (0 : ℚ) < 2 ^ drop := by positivity
  have hlt := hr.lt
  rw [← not_lt, hr.lt_iff]
  rintro (hk | ⟨hk, -⟩) <;> push_cast at hk <;> linarith

theorem RoundedAt.hiddenBit_le (h0 : drop ≠ 0) : hiddenBit ≤ h := by
  have hscale : (0 : ℚ) < 2 ^ drop := by positivity
  have hq := hr.le.resolve_left h0
  have hpast : hiddenBit - 1 < h := by
    rw [hr.lt_iff]
    left
    rw [Nat.cast_sub (by decide)]
    push_cast
    linarith
  omega

/-- In a lower binade: the number is at least the least word of its own. -/
theorem RoundedAt.past_lower (h0 : drop ≠ 0) (hm : m < drop * hiddenBit + hiddenBit) :
    m < drop * hiddenBit + h ↔ RoundsPast m q := by
  have hbit := hr.hiddenBit_le h0
  refine iff_of_true (by omega) (roundsPast_of_lt hm ?_)
  rw [units_place_cast (by omega) (.inr le_rfl)]
  exact hr.le.resolve_left h0

theorem RoundedAt.past_upper (hm : drop * hiddenBit + 2 * hiddenBit ≤ m) :
    m < drop * hiddenBit + h ↔ RoundsPast m q := by
  have htop := hr.le_top
  refine iff_of_false (by omega) (not_roundsPast_of_le hm ?_)
  rw [units_place_cast le_rfl (.inr (by omega))]
  push_cast
  exact hr.lt.le

/-- In the binade of the number itself. -/
theorem RoundedAt.past_same (hk : k < 2 * hiddenBit) (hd : drop = 0 ∨ hiddenBit ≤ k) :
    drop * hiddenBit + k < drop * hiddenBit + h ↔ RoundsPast (drop * hiddenBit + k) q := by
  have hodd : (drop * hiddenBit + k) % 2 = k % 2 := by
    unfold hiddenBit
    omega
  rw [RoundsPast, halfway_place hk hd, hodd, ← hr.lt_iff]
  omega

/-- A rounded significand and its binade pass the magnitudes that the number rounds past. -/
theorem RoundedAt.past (m : ℕ) : m < drop * hiddenBit + h ↔ RoundsPast m q := by
  by_cases hlower : drop ≠ 0 ∧ m < drop * hiddenBit + hiddenBit
  · exact hr.past_lower hlower.1 hlower.2
  by_cases hupper : drop * hiddenBit + 2 * hiddenBit ≤ m
  · exact hr.past_upper hupper
  have hd : drop = 0 ∨ drop * hiddenBit + hiddenBit ≤ m :=
    or_iff_not_imp_left.mpr fun h0 => not_lt.mp fun hm => hlower ⟨h0, hm⟩
  obtain ⟨k, rfl⟩ := Nat.exists_eq_add_of_le (show drop * hiddenBit ≤ m by
    rcases hd with rfl | hd <;> omega)
  exact hr.past_same (by omega) (hd.imp_right fun hd => by omega)

end

/-- Rounding passes exactly the magnitudes that the quotient rounds past. -/
theorem lt_nearest_iff {num den shift m : ℕ} (hden : 0 < den) (hs : den ≤ num ∨ shift = 0)
    (hm : m < infinite) :
    m < nearest num den shift ↔ RoundsPast m (num * 2 ^ shift / den) := by
  rcases Nat.eq_zero_or_pos num with rfl | hnum
  · have h : ¬RoundsPast m 0 := not_roundsPast_of_le (Nat.zero_le m) (by simp)
    simpa [nearest] using h
  generalize hdrop : (num / den).log2 + shift - 52 = drop
  have hrounded : RoundedAt drop (halfEven (num <<< (shift - drop)) (den <<< (drop - shift)))
      (num * 2 ^ shift / den) :=
    ⟨lt_scaled_halfEven_iff hden num shift drop, quotient_lt hden hdrop.symm,
      le_quotient hden hs hdrop.symm⟩
  have hnearest : nearest num den shift = Nat.min infinite (drop * hiddenBit +
      halfEven (num <<< (shift - drop)) (den <<< (drop - shift))) := by
    simp only [nearest, hnum.ne', ↓reduceIte, hdrop]
  rw [hnearest, ← hrounded.past m]
  exact Nat.lt_min.trans (and_iff_right hm)

theorem nearest_le_infinite (num den shift : ℕ) : nearest num den shift ≤ infinite := by
  unfold nearest
  split_ifs
  · exact Nat.zero_le _
  · exact Nat.min_le_left _ _

/-- The magnitude nearest to a rational number of units; a negative number has magnitude zero. -/
def nearestMag (q : ℚ) : ℕ := nearest q.num.toNat q.den 0

theorem nearestMag_le_infinite (q : ℚ) : nearestMag q ≤ infinite := nearest_le_infinite _ _ _

theorem lt_nearestMag_iff {q : ℚ} {m : ℕ} (hq : 0 ≤ q) (hm : m < infinite) :
    m < nearestMag q ↔ RoundsPast m q := by
  have hnum : (q.num.toNat : ℚ) = q.num := by
    exact_mod_cast Int.toNat_of_nonneg (Rat.num_nonneg.mpr hq)
  rw [nearestMag, lt_nearest_iff q.pos (.inr rfl) hm, hnum, pow_zero, mul_one, Rat.num_div_den]

/-- Magnitudes that pass the same magnitudes are equal. -/
theorem eq_of_forall_lt_iff {a b : ℕ} (ha : a ≤ infinite) (hb : b ≤ infinite)
    (h : ∀ m < infinite, m < a ↔ m < b) : a = b := by
  apply Nat.le_antisymm
  · by_contra hlt
    have := (h b (by omega)).mp (by omega)
    omega
  · by_contra hlt
    have := (h a (by omega)).mpr (by omega)
    omega

/-- Rounding depends on the quotient alone. -/
theorem nearest_eq {num den shift : ℕ} (hden : 0 < den) (hs : den ≤ num ∨ shift = 0) :
    nearest num den shift = nearestMag (num * 2 ^ shift / den) := by
  apply eq_of_forall_lt_iff (nearest_le_infinite _ _ _) (nearestMag_le_infinite _)
  intro m hm
  rw [lt_nearest_iff hden hs hm, lt_nearestMag_iff (by positivity) hm]

@[simp] theorem nearestMag_zero : nearestMag 0 = 0 := rfl

theorem nearestDyadic_eq (m up down : ℕ) :
    nearestDyadic m up down = nearestMag (m * 2 ^ up / 2 ^ down) := by
  unfold nearestDyadic
  rcases Nat.eq_zero_or_pos m with rfl | hm
  · simp [nearest]
  have hs : 1 <<< (down - up) ≤ m ∨ up - down = 0 := by
    rcases Nat.le_total up down with h | h
    · exact .inr (Nat.sub_eq_zero_of_le h)
    · rw [Nat.sub_eq_zero_of_le h]
      exact .inl hm
  rw [nearest_eq (by simp [Nat.shiftLeft_eq]) hs, Nat.shiftLeft_eq]
  congr 1
  push_cast
  rw [one_mul, div_eq_div_iff (by positivity) (by positivity), mul_assoc, mul_assoc, ← pow_add,
    ← pow_add]
  congr 2
  omega

theorem nearestDyadic_lt (m up down : ℕ) : nearestDyadic m up down < 2 ^ 63 :=
  (nearest_le_infinite _ _ _).trans_lt infinite_lt

theorem nearestMag_mono {p q : ℚ} (hp : 0 ≤ p) (hpq : p ≤ q) : nearestMag p ≤ nearestMag q := by
  by_contra hlt
  have hm : nearestMag q < infinite := (not_le.mp hlt).trans_le (nearestMag_le_infinite p)
  have h := (lt_nearestMag_iff hp hm).mp (not_le.mp hlt)
  exact lt_irrefl _ ((lt_nearestMag_iff (hp.trans hpq) hm).mpr (h.mono hpq))

/-- Rounding fixes magnitudes. -/
theorem nearestMag_units {m : ℕ} (hm : m ≤ infinite) : nearestMag (units m) = m := by
  apply eq_of_forall_lt_iff (nearestMag_le_infinite _) hm
  intro k hk
  rw [lt_nearestMag_iff (by positivity) hk]
  constructor
  · intro h
    by_contra hle
    exact not_roundsPast_of_le (not_lt.mp hle) le_rfl h
  · intro hlt
    exact roundsPast_of_lt hlt le_rfl

/-! Signed rounding -/

/-- The key nearest to a rational number of units. -/
def roundKey (q : ℚ) : ℤ := if q < 0 then -(nearestMag (-q) : ℤ) else nearestMag q

theorem roundKey_of_nonneg {q : ℚ} (hq : 0 ≤ q) : roundKey q = nearestMag q :=
  if_neg (not_lt.mpr hq)

@[simp] theorem roundKey_zero : roundKey 0 = 0 := rfl

@[simp] theorem roundKey_neg (q : ℚ) : roundKey (-q) = -roundKey q := by
  rcases lt_trichotomy q 0 with hq | rfl | hq
  · rw [roundKey_of_nonneg (by linarith), roundKey, if_pos hq, neg_neg]
  · simp
  · rw [roundKey_of_nonneg hq.le, roundKey, if_pos (by linarith), neg_neg]

theorem natAbs_roundKey (q : ℚ) : (roundKey q).natAbs = nearestMag |q| := by
  rcases le_total 0 q with hq | hq
  · rw [roundKey_of_nonneg hq, abs_of_nonneg hq, Int.natAbs_natCast]
  · rw [abs_of_nonpos hq, ← Int.natAbs_neg, ← roundKey_neg, roundKey_of_nonneg (by linarith),
      Int.natAbs_natCast]

theorem roundKey_mono {p q : ℚ} (hpq : p ≤ q) : roundKey p ≤ roundKey q := by
  rcases le_total 0 p with hp | hp
  · rw [roundKey_of_nonneg hp, roundKey_of_nonneg (hp.trans hpq)]
    exact_mod_cast nearestMag_mono hp hpq
  have hneg {r : ℚ} (hr : r ≤ 0) : roundKey r = -(nearestMag (-r) : ℤ) := by
    rw [← roundKey_of_nonneg (by linarith), roundKey_neg, neg_neg]
  rcases le_total 0 q with hq | hq
  · rw [hneg hp, roundKey_of_nonneg hq]
    omega
  · rw [hneg hp, hneg hq]
    have := nearestMag_mono (show 0 ≤ -q by linarith) (neg_le_neg hpq)
    omega

theorem roundKey_worthAt {k : ℤ} (hk : k.natAbs ≤ infinite) : roundKey (worthAt k) = k := by
  obtain ⟨m, rfl | rfl⟩ := k.eq_nat_or_neg
  · rw [worthAt_natCast, roundKey_of_nonneg (by positivity), nearestMag_units (by simpa using hk)]
  · rw [worthAt_neg, roundKey_neg, worthAt_natCast, roundKey_of_nonneg (by positivity),
      nearestMag_units (by simpa using hk)]

/-- A word that is not NaN and nearest to a rational number of units. -/
structure IsNearest (x : Binary64) (q : ℚ) : Prop where
  not_nan : x.isNaN = false
  key_eq : x.key = roundKey q

variable {x y : Binary64} {p q : ℚ}

/-- Rounding keeps order. -/
theorem IsNearest.le (hx : IsNearest x p) (hy : IsNearest y q) (hpq : p ≤ q) : x ≤ y := by
  apply le_of_key hx.not_nan hy.not_nan
  rw [hx.key_eq, hy.key_eq]
  exact roundKey_mono hpq

/-- Rounding fixes words. -/
theorem isNearest_worth (hx : x.isNaN = false) : IsNearest x x.worth := by
  refine ⟨hx, ?_⟩
  rw [worth, roundKey_worthAt]
  rw [natAbs_key]
  exact isNaN_eq_false_iff.mp hx

theorem IsNearest.abs (hx : IsNearest x q) : IsNearest x.abs |q| := by
  refine ⟨by rw [isNaN_abs, hx.not_nan], ?_⟩
  rw [key_of_not_isNeg (isNeg_abs x), mag_abs, roundKey_of_nonneg (abs_nonneg q),
    ← natAbs_roundKey, ← hx.key_eq, natAbs_key]

theorem IsNearest.mag_eq (hx : IsNearest x q) (hq : 0 ≤ q) : x.mag = nearestMag q := by
  rw [← natAbs_key, hx.key_eq, roundKey_of_nonneg hq, Int.natAbs_natCast]

theorem IsNearest.worth_eq (hx : IsNearest x q) (hq : 0 ≤ q) : x.worth = units (nearestMag q) := by
  rw [worth, hx.key_eq, roundKey_of_nonneg hq, worthAt_natCast]

/-- What is nearest to a number between two words lies between them. -/
theorem IsNearest.le_word (hx : IsNearest x q) (hy : y.isNaN = false) (h : q ≤ y.worth) : x ≤ y :=
  hx.le (isNearest_worth hy) h

theorem IsNearest.word_le (hx : IsNearest x q) (hy : y.isNaN = false) (h : y.worth ≤ q) : y ≤ x :=
  (isNearest_worth hy).le hx h

theorem IsNearest.eq_of_worth (hx : IsNearest x y.worth) (hy : y.isNaN = false)
    (hs : x.isNeg = y.isNeg) : x = y := by
  have hk : x.key = y.key := hx.key_eq.trans (isNearest_worth hy).key_eq.symm
  exact ext_mag hs (by rw [← natAbs_key x, hk, natAbs_key])

/-- A number of at most 53 bits is the worth of a word. -/
theorem exists_worthAt {a s : ℕ} (ha : a ≤ 2 * hiddenBit) (hs : s ≤ 2045) :
    ∃ k : ℤ, (a * 2 ^ s : ℚ) = worthAt k ∧ roundKey (worthAt k) = k := by
  obtain ⟨m, hm, hu⟩ := exists_units ha hs
  refine ⟨m, ?_, roundKey_worthAt (by simpa using hm)⟩
  rw [worthAt_natCast, hu]
  push_cast
  rfl

/-- A number of at most 53 bits is rounded to itself. -/
theorem worth_eq_of_isNearest {a s : ℕ} (ha : a ≤ 2 * hiddenBit) (hs : s ≤ 2045)
    (hx : IsNearest x (a * 2 ^ s)) : x.worth = a * 2 ^ s := by
  obtain ⟨k, hk, hround⟩ := exists_worthAt ha hs
  rw [worth, hx.key_eq, hk, hround]

/-- What is nearest to a number within a bound of at most 53 bits stays within it. -/
theorem IsNearest.worth_le {a s : ℕ} (hx : IsNearest x q) (ha : a ≤ 2 * hiddenBit)
    (hs : s ≤ 2045) (hq : q ≤ a * 2 ^ s) : x.worth ≤ a * 2 ^ s := by
  obtain ⟨k, hk, hround⟩ := exists_worthAt ha hs
  rw [worth, hx.key_eq, hk, worthAt_le_iff, ← hround]
  exact roundKey_mono (hk ▸ hq)

theorem IsNearest.le_worth {a s : ℕ} (hx : IsNearest x q) (ha : a ≤ 2 * hiddenBit)
    (hs : s ≤ 2045) (hq : a * 2 ^ s ≤ q) : a * 2 ^ s ≤ x.worth := by
  obtain ⟨k, hk, hround⟩ := exists_worthAt ha hs
  rw [worth, hx.key_eq, hk, worthAt_le_iff, ← hround]
  exact roundKey_mono (hk ▸ hq)

/-- A number of units within the worth of a finite magnitude stays finite. -/
theorem IsNearest.isFinite (hx : IsNearest x q) {m : ℕ} (hm : m < infinite) (hq : |q| ≤ units m) :
    x.isFinite = true := by
  rw [isFinite_iff, ← natAbs_key, hx.key_eq, natAbs_roundKey]
  calc nearestMag |q| ≤ nearestMag (units m) := nearestMag_mono (abs_nonneg q) hq
    _ = m := nearestMag_units hm.le
    _ < infinite := hm

/-- A sign and a nearest magnitude form the nearest word. -/
theorem isNearest_ofMag (neg : Bool) (hq : 0 ≤ q) :
    IsNearest (ofMag neg (nearestMag q)) (if neg then -q else q) := by
  have hlt : nearestMag q < 2 ^ 63 := (nearestMag_le_infinite q).trans_lt infinite_lt
  constructor
  · rw [isNaN_eq_false_iff, mag_ofMag _ hlt]
    exact nearestMag_le_infinite q
  · cases neg with
    | false =>
      rw [key_of_not_isNeg (isNeg_ofMag _ hlt), mag_ofMag _ hlt]
      exact (roundKey_of_nonneg hq).symm
    | true =>
      rw [key_of_isNeg (isNeg_ofMag _ hlt), mag_ofMag _ hlt, ← roundKey_of_nonneg hq,
        ← roundKey_neg]
      rfl

end BucketOverflow.Binary64
