import BucketOverflow.Proofs.Binary64.Exponential
import BucketOverflow.Proofs.Binary64.Library
import BucketOverflow.Proofs.Binary64.Logarithm
import BucketOverflow.Proofs.Binary64.Relative

/-! The library of the platform is lawful. What is left to show is that its decimal logarithm keeps
order. For one exponent that is the order of its steps. From one exponent to the next the steps take
different words, and the logarithms on either side are further apart than the steps can go wrong. -/
namespace BucketOverflow.Binary64.Platform

variable {x y a b : Binary64} {l l' : Binary64} {q : ℚ} {k : ℤ} {m n : ℕ}

/-! Words up to a whole number -/

/-- A word of either sign that is worth at most a whole number. -/
def Span (n : ℕ) (x : Binary64) : Prop := |x.worth| ≤ n * 2 ^ unitExp

theorem Span.finite (h : Span n x) (hn : n ≤ 2 ^ 53) : x.isFinite = true := by
  apply isFinite_of_worth_le
  have hn' : (n : ℚ) ≤ 2 ^ 53 := by exact_mod_cast hn
  exact h.trans (mul_le_mul_of_nonneg_right hn' (by positivity))

theorem span_of_isNearest (hx : IsNearest x q) (hn : n ≤ 2 ^ 53) (hq : |q| ≤ n * 2 ^ unitExp) :
    Span n x := by
  have hwhole : (n : ℤ).natAbs ≤ 2 * hiddenBit := hn.trans (by decide)
  have h := hx.worth_between (j := -n) (k := n) (s := unitExp) (by simpa using hwhole) hwhole
    (by decide) (by simpa using (abs_le.mp hq).1) (by simpa using (abs_le.mp hq).2)
  exact abs_le.mpr (by simpa using h)

theorem Span.mul (hx : Span m x) (hy : Span n y) (hm : m ≤ 2 ^ 53) (hn : n ≤ 2 ^ 53)
    (hmn : m * n ≤ 2 ^ 53) : Span (m * n) (x * y) := by
  apply span_of_isNearest (isNearest_mul (hx.finite hm) (hy.finite hn)) hmn
  have hone : (0 : ℚ) < 2 ^ unitExp := by positivity
  unfold Span at hx hy
  generalize (2 : ℚ) ^ unitExp = one at *
  rw [abs_div, abs_of_pos hone, abs_mul, div_le_iff₀ hone, Nat.cast_mul]
  calc |x.worth| * |y.worth| ≤ m * one * (n * one) :=
        mul_le_mul hx hy (abs_nonneg _) (by positivity)
    _ = m * n * one * one := by ring

theorem Span.add (hx : Span m x) (hy : Span n y) (hmn : m + n ≤ 2 ^ 53) :
    Span (m + n) (x + y) := by
  apply span_of_isNearest (isNearest_add (hx.finite (by omega)) (hy.finite (by omega))) hmn
  rw [Nat.cast_add, add_mul]
  exact (abs_add_le _ _).trans (add_le_add hx hy)

theorem span_of_le (hx : -one ≤ x) (hx' : x ≤ one) : Span 1 x := by
  have h := worth_le_worth hx
  have h' := worth_le_worth hx'
  rw [worth_neg, worth_one] at h
  rw [worth_one] at h'
  exact abs_le.mpr (by simpa using ⟨h, h'⟩)

theorem worth_ofInt (hk : k.natAbs ≤ 2 ^ 53) : (ofInt k).worth = k * 2 ^ unitExp := by
  rw [ofInt, worth_ofMag_whole _ hk]
  have hsign : (if decide (k < 0) then -(k.natAbs : ℤ) else k.natAbs) = k := by
    simp only [decide_eq_true_eq]
    split_ifs <;> omega
  rw [hsign]

theorem span_ofInt (hk : k.natAbs ≤ n) (hn : n ≤ 2 ^ 53) : Span n (ofInt k) := by
  have hone : (0 : ℚ) ≤ 2 ^ unitExp := by positivity
  rw [Span, worth_ofInt (hk.trans hn), abs_mul, abs_of_nonneg hone]
  have : |(k : ℚ)| ≤ n := by
    rw [← Int.cast_abs, ← Nat.cast_natAbs]
    exact_mod_cast hk
  gcongr

/-! The constants -/

/-- A word by its significand and the binary places of that behind the point. -/
theorem worth_of_places {t : ℕ} (hn : significand x.mag = n) (ht : t + shiftOf x.mag = unitExp) :
    x.worth = (if x.isNeg then -n else n : ℚ) / 2 ^ t * 2 ^ unitExp := by
  rw [worth_eq_units, units_eq, hn, ← ht, Nat.cast_mul, Nat.cast_pow, Nat.cast_ofNat, pow_add]
  have hpos : (2 : ℚ) ^ t ≠ 0 := by positivity
  split_ifs <;> field_simp

theorem worth_log10TwoLow : log10TwoLow.worth = 7317194349292342 / 2 ^ 94 * 2 ^ unitExp := by
  rw [worth_of_places (n := 7317194349292342) (t := 94) (by decide) (by decide),
    if_neg (by decide), Nat.cast_ofNat]

theorem worth_log10TwoHigh : log10TwoHigh.worth = 661971961083 / 2 ^ 41 * 2 ^ unitExp := by
  rw [worth_of_places (n := 661971961083 * 2 ^ 13) (t := 54) (by decide) (by decide),
    if_neg (by decide)]
  norm_num

theorem span_log10TwoLow : Span 1 log10TwoLow := span_of_le (by decide) (by decide)

theorem span_log10TwoHigh : Span 1 log10TwoHigh := span_of_le (by decide) (by decide)

theorem span_log10E : Span 1 log10E := span_of_le (by decide) (by decide)

/-! One exponent -/

theorem add_le_add_word (hx : x.isFinite = true) (hy : y.isFinite = true) (ha : a.isFinite = true)
    (h : x ≤ y) : a + x ≤ a + y :=
  (isNearest_add ha hx).le (isNearest_add ha hy) (by linarith [worth_le_worth h])

theorem add_word_le_add (hx : x.isFinite = true) (hy : y.isFinite = true) (ha : a.isFinite = true)
    (h : x ≤ y) : x + a ≤ y + a :=
  (isNearest_add hx ha).le (isNearest_add hy ha) (by linarith [worth_le_worth h])

theorem log10E_mul_le (hl : Span 1 l) (hl' : Span 1 l') (h : l ≤ l') :
    log10E * l ≤ log10E * l' := by
  apply (isNearest_mul rfl (hl.finite (by decide))).le (isNearest_mul rfl (hl'.finite (by decide)))
  apply div_le_div_of_nonneg_right _ (by positivity)
  exact mul_le_mul_of_nonneg_left (worth_le_worth h) (worth_nonneg rfl)

/-- A factor that is at most one keeps a word within its bound. -/
theorem Span.mul_one (hx : Span m x) (hy : Span 1 y) (hm : m ≤ 2 ^ 53) : Span m (x * y) := by
  have h := hx.mul hy hm (by decide) (by omega)
  rwa [Nat.mul_one] at h

theorem span_low (hk : k.natAbs ≤ 1074) : Span 1074 (ofInt k * log10TwoLow) :=
  (span_ofInt hk (by decide)).mul_one span_log10TwoLow (by decide)

theorem span_high (hk : k.natAbs ≤ 1074) : Span 1074 (ofInt k * log10TwoHigh) :=
  (span_ofInt hk (by decide)).mul_one span_log10TwoHigh (by decide)

theorem span_log10E_mul (hl : Span 1 l) : Span 1 (log10E * l) :=
  span_log10E.mul_one hl (by decide)

theorem span_low_add (hk : k.natAbs ≤ 1074) (hl : Span 1 l) :
    Span 1075 (ofInt k * log10TwoLow + log10E * l) := by
  have h := (span_low hk).add (span_log10E_mul hl) (by decide)
  exact h

/-- For one exponent the steps keep the order of the logarithms that they are given. -/
theorem log10Parts_mono (hk : k.natAbs ≤ 1074) (hl : Span 1 l) (hl' : Span 1 l') (h : l ≤ l') :
    log10Parts k l ≤ log10Parts k l' := by
  have hlow : ofInt k * log10TwoLow + log10E * l ≤ ofInt k * log10TwoLow + log10E * l' :=
    add_le_add_word ((span_log10E_mul hl).finite (by decide))
      ((span_log10E_mul hl').finite (by decide)) ((span_low hk).finite (by decide))
      (log10E_mul_le hl hl' h)
  exact add_word_le_add ((span_low_add hk hl).finite (by decide))
    ((span_low_add hk hl').finite (by decide)) ((span_high hk).finite (by decide)) hlow

/-! The next exponent -/

/-- The high part is so short that its product with an exponent is exact. -/
theorem worth_high (hk : k.natAbs ≤ 1074) :
    (ofInt k * log10TwoHigh).worth = k * log10TwoHigh.worth := by
  have hone : (2 : ℚ) ^ unitExp ≠ 0 := by positivity
  have hbits : (k * 661971961083).natAbs ≤ 2 * hiddenBit := by
    rw [Int.natAbs_mul]
    exact (Nat.mul_le_mul_right _ hk).trans (by decide)
  have h := isNearest_mul ((span_ofInt hk (by decide)).finite (by decide))
    (span_log10TwoHigh.finite (by decide))
  have hworth : log10TwoHigh.worth = 661971961083 * 2 ^ 1033 := by
    rw [worth_log10TwoHigh, show unitExp = 41 + 1033 from rfl, pow_add, ← mul_assoc,
      div_mul_cancel₀ _ (by positivity)]
  rw [worth_ofInt (hk.trans (by decide)), hworth, mul_right_comm, mul_div_assoc, div_self hone,
    mul_one, ← mul_assoc] at h
  obtain ⟨j, hj, hround⟩ := exists_worthAt_int hbits (show 1033 ≤ 2045 by decide)
  push_cast at hj
  rw [hworth, worth, h.key_eq, ← mul_assoc, hj, hround]

/-- One item is far more than the last place of a word. -/
theorem one_le_item : (1 : ℚ) ≤ 2 ^ unitExp / 2 ^ 100 := by
  rw [le_div_iff₀ (by positivity), one_mul]
  exact pow_le_pow_right₀ (by norm_num) (by decide)

/-- The low part is small beside an item, at every exponent. -/
theorem abs_mul_low_le (hk : k.natAbs ≤ 1074) :
    |k * log10TwoLow.worth| ≤ 2 ^ unitExp / 2 ^ 31 := by
  have hk' : |(k : ℚ)| ≤ 1074 := by
    rw [← Int.cast_abs, ← Nat.cast_natAbs]
    exact_mod_cast hk
  have hlow : 0 ≤ log10TwoLow.worth := worth_nonneg rfl
  have hone : (0 : ℚ) < 2 ^ unitExp := by positivity
  rw [abs_mul, abs_of_nonneg hlow]
  apply (mul_le_mul_of_nonneg_right hk' hlow).trans
  rw [worth_log10TwoLow]
  generalize (2 : ℚ) ^ unitExp = item at *
  linarith

theorem abs_low_sub_le (hk : k.natAbs ≤ 1074) :
    |(ofInt k * log10TwoLow).worth - k * log10TwoLow.worth| ≤ 2 ^ unitExp / 2 ^ 80 := by
  have hone : (0 : ℚ) < 2 ^ unitExp := by positivity
  have hitem := one_le_item
  have hsmall := abs_mul_low_le hk
  have h := (isNearest_mul ((span_ofInt hk (by decide)).finite (by decide))
    (span_log10TwoLow.finite (by decide))).abs_sub_le ((span_low hk).finite (by decide))
  rw [worth_ofInt (hk.trans (by decide)), mul_right_comm, mul_div_assoc, div_self hone.ne',
    mul_one] at h
  generalize (2 : ℚ) ^ unitExp = item at *
  unfold roundoff at h
  linarith

/-- The two small steps go wrong by a roundoff of the logarithm, and by little more. -/
theorem abs_low_add_sub_le (hk : k.natAbs ≤ 1074) (hl : Span 1 l) :
    |(ofInt k * log10TwoLow + log10E * l).worth - (k * log10TwoLow.worth + (log10E * l).worth)| ≤
      roundoff * |(log10E * l).worth| + 2 ^ unitExp / 2 ^ 75 := by
  have hone : (0 : ℚ) < 2 ^ unitExp := by positivity
  have hitem := one_le_item
  have hsmall := abs_le.mp (abs_mul_low_le hk)
  have hlow := abs_le.mp (abs_low_sub_le hk)
  have h := (isNearest_add ((span_low hk).finite (by decide))
    ((span_log10E_mul hl).finite (by decide))).abs_sub_le ((span_low_add hk hl).finite (by decide))
  have hsum := abs_add_le (ofInt k * log10TwoLow).worth (log10E * l).worth
  have hpart : |(ofInt k * log10TwoLow).worth| ≤ 2 ^ unitExp / 2 ^ 30 := by
    rw [abs_le]
    generalize (2 : ℚ) ^ unitExp = item at *
    constructor <;> linarith
  generalize (2 : ℚ) ^ unitExp = item at *
  unfold roundoff at *
  rw [abs_le] at h ⊢
  constructor <;> linarith

/-- Where two logarithms are further apart than the steps can go wrong, the next exponent with the
second comes after the exponent with the first. -/
theorem log10Parts_le_succ (hk : k.natAbs ≤ 1074) (hk' : (k + 1).natAbs ≤ 1074) (hl : Span 1 l)
    (hl' : Span 1 l') (hgap : (log10E * l).worth + roundoff * (|(log10E * l).worth| +
      |(log10E * l').worth|) + 2 ^ unitExp / 2 ^ 70 ≤
        (log10E * l').worth + (log10TwoHigh.worth + log10TwoLow.worth)) :
    log10Parts k l ≤ log10Parts (k + 1) l' := by
  have h := abs_le.mp (abs_low_add_sub_le hk hl)
  have h' := abs_le.mp (abs_low_add_sub_le hk' hl')
  have hone : (0 : ℚ) < 2 ^ unitExp := by positivity
  apply (isNearest_add ((span_low_add hk hl).finite (by decide))
    ((span_high hk).finite (by decide))).le
    (isNearest_add ((span_low_add hk' hl').finite (by decide))
      ((span_high hk').finite (by decide)))
  rw [worth_high hk, worth_high hk']
  push_cast at h' ⊢
  generalize (2 : ℚ) ^ unitExp = item at *
  linarith [h.2, h'.1]

/-! Exponents and fractions -/

/-- The binade that the fractions of an exponent lie in, counted in significands. -/
def binade (k : ℤ) : ℕ := if k < 0 then 1022 else 1023

/-- The exponent that the steps take. -/
def step (k : ℤ) : ℤ := if k < 0 then k + 1 else k

theorem log10Mag_eq (m : ℕ) :
    log10Mag m = log10Parts (step (exponent m)) (ln (fraction m)) := rfl

theorem log2_significand_le (m : ℕ) : (significand m).log2 ≤ 52 := by
  rcases Nat.eq_zero_or_pos (significand m) with h0 | h0
  · simp [h0]
  · have hlt := significand_lt m
    rw [hiddenBit_eq, ← pow_succ'] at hlt
    exact Nat.lt_succ_iff.mp ((Nat.log2_lt h0.ne').mpr hlt)

theorem exponent_bounds (hm : m < infinite) : -1074 ≤ exponent m ∧ exponent m ≤ 1023 := by
  have hlog := log2_significand_le m
  have hshift : shiftOf m ≤ 2045 := by
    unfold shiftOf hiddenBit
    unfold infinite at hm
    omega
  unfold exponent unitExp
  omega

theorem natAbs_step_le (hm : m < infinite) : (step (exponent m)).natAbs ≤ 1074 := by
  have h := exponent_bounds hm
  unfold step
  split_ifs <;> omega

theorem fraction_eq (m : ℕ) : fraction m =
    (binade (exponent m) - 1) * hiddenBit + significand m * 2 ^ (52 - (significand m).log2) := by
  rw [fraction, Nat.shiftLeft_eq, binade]
  split_ifs <;> rfl

theorem fraction_bounds (hm : 0 < m) : binade (exponent m) * hiddenBit ≤ fraction m ∧
    fraction m < (binade (exponent m) + 1) * hiddenBit := by
  have hlow := Nat.log2_self_le (significand_pos hm).ne'
  have hhigh := Nat.lt_log2_self (n := significand m)
  have hlog := log2_significand_le m
  have h52 : 2 ^ (significand m).log2 * 2 ^ (52 - (significand m).log2) = hiddenBit := by
    rw [← pow_add, hiddenBit_eq, Nat.add_sub_cancel' hlog]
  have h1 := Nat.mul_le_mul_right (2 ^ (52 - (significand m).log2)) hlow
  have h2 := Nat.mul_lt_mul_of_pos_right hhigh
    (show 0 < 2 ^ (52 - (significand m).log2) by positivity)
  rw [h52] at h1
  rw [pow_succ, mul_right_comm, h52] at h2
  have hbinade : (binade (exponent m) - 1) * hiddenBit + hiddenBit =
      binade (exponent m) * hiddenBit := by
    rw [← Nat.succ_mul, binade]
    split_ifs <;> rfl
  rw [fraction_eq, Nat.succ_mul]
  omega

theorem fraction_pos (hm : 0 < m) : 0 < fraction m := by
  have h := (fraction_bounds hm).1
  unfold binade hiddenBit at h
  split_ifs at h <;> omega

theorem log2_succ (hn : 0 < n) : (n + 1).log2 = n.log2 ∨ n + 1 = 2 ^ (n.log2 + 1) := by
  have hlow := Nat.log2_self_le hn.ne'
  rcases (Nat.succ_le_of_lt (Nat.lt_log2_self (n := n))).lt_or_eq with hlt | heq
  · exact .inl ((Nat.log2_eq_iff n.succ_ne_zero).mpr ⟨hlow.trans n.le_succ, hlt⟩)
  · exact .inr heq

/-- A significand that is a power of two is the start of its binade. -/
theorem fraction_of_two_pow (h : significand m = 2 ^ n) (hn : n ≤ 52) :
    fraction m = binade (exponent m) * hiddenBit := by
  have hbinade : (binade (exponent m) - 1) * hiddenBit + hiddenBit =
      binade (exponent m) * hiddenBit := by
    rw [← Nat.succ_mul, binade]
    split_ifs <;> rfl
  rw [fraction_eq, h, Nat.log2_two_pow, ← pow_add, Nat.add_sub_cancel' hn, ← hiddenBit_eq, hbinade]

/-- Either the exponent stays and the fraction grows, or the next exponent begins. -/
theorem exponent_succ (hm : 0 < m) :
    exponent (m + 1) = exponent m ∧ fraction m ≤ fraction (m + 1) ∨
      exponent (m + 1) = exponent m + 1 ∧
        fraction (m + 1) = binade (exponent (m + 1)) * hiddenBit := by
  have hpos := significand_pos hm
  have htop := log2_significand_le (m + 1)
  rcases place_succ m with ⟨hs, hk⟩ | ⟨hs, hk, hfull⟩
  · rcases log2_succ hpos with hlog | hpow
    · -- within the binade
      have hexp : exponent (m + 1) = exponent m := by rw [exponent, exponent, hs, hk, hlog]
      refine .inl ⟨hexp, ?_⟩
      rw [fraction_eq, fraction_eq, hexp, hk, hlog]
      gcongr
      exact Nat.le_succ _
    · -- a subnormal number that is a power of two
      rw [hk, hpow, Nat.log2_two_pow] at htop
      refine .inr ⟨?_, fraction_of_two_pow (hk.trans hpow) htop⟩
      rw [exponent, exponent, hs, hk, hpow, Nat.log2_two_pow]
      push_cast
      ring
  · have hlog : (significand m).log2 = 52 := by
      rw [Nat.eq_sub_of_add_eq hfull]
      decide
    refine .inr ⟨?_, fraction_of_two_pow (hk.trans hiddenBit_eq) le_rfl⟩
    rw [exponent, exponent, hs, hk, hlog, hiddenBit_eq, Nat.log2_two_pow]
    push_cast
    ring

/-! All magnitudes -/

theorem span_of_between (hm : 1022 * hiddenBit ≤ m) (hm' : m ≤ 1024 * hiddenBit) :
    Span 1 (ln m) := by
  have hends : -one ≤ ln (1022 * hiddenBit) ∧ ln (1024 * hiddenBit) ≤ one := by decide +kernel
  have hpos : 0 < m := hm.trans_lt' (by decide)
  exact span_of_le (Binary64.le_trans hends.1 (ln_mono (by decide) hm))
    (Binary64.le_trans (ln_mono hpos hm') hends.2)

theorem span_ln (hm : 0 < m) : Span 1 (ln (fraction m)) := by
  obtain ⟨hlow, hhigh⟩ := fraction_bounds hm
  unfold binade hiddenBit at *
  apply span_of_between <;> unfold hiddenBit <;> split_ifs at hlow hhigh <;> omega

/-- What the steps make of the logarithms about one: of the first and the last fractions of the two
binades that meet there. -/
theorem log10E_mul_ln : log10E * ln (1022 * hiddenBit) = ⟨0xbfd34413509f79ff⟩ ∧
    log10E * ln (1023 * hiddenBit - 1) = ⟨0xbc8bcb7b1526e50e⟩ ∧
    log10E * ln (1023 * hiddenBit) = zero false ∧
    log10E * ln (1024 * hiddenBit - 1) = ⟨0x3fd34413509f79fe⟩ := by decide +kernel

/-- From the last fraction before one to one half with the next exponent. -/
theorem log10Parts_le_half (hk : k.natAbs ≤ 1074) (hk' : (k + 1).natAbs ≤ 1074) :
    log10Parts k (ln (1023 * hiddenBit - 1)) ≤ log10Parts (k + 1) (ln (1022 * hiddenBit)) := by
  obtain ⟨hhalf, hlast, -⟩ := log10E_mul_ln
  have hfirst : (log10E * ln (1023 * hiddenBit - 1)).worth =
      -7823553867474190 / 2 ^ 107 * 2 ^ unitExp := by
    rw [hlast, worth_of_places (n := 7823553867474190) (t := 107) (by decide) (by decide),
      if_pos (by decide), Nat.cast_ofNat]
  have hsecond : (log10E * ln (1022 * hiddenBit)).worth =
      -5422874305198591 / 2 ^ 54 * 2 ^ unitExp := by
    rw [hhalf, worth_of_places (n := 5422874305198591) (t := 54) (by decide) (by decide),
      if_pos (by decide), Nat.cast_ofNat]
  apply log10Parts_le_succ hk hk' (span_of_between (by decide) (by decide))
    (span_of_between (by decide) (by decide))
  have hone : (0 : ℚ) < 2 ^ unitExp := by positivity
  rw [hfirst, hsecond, worth_log10TwoHigh, worth_log10TwoLow]
  generalize (2 : ℚ) ^ unitExp = item at *
  rw [abs_of_neg (by linarith), abs_of_neg (by linarith), roundoff]
  linarith

/-- From the last fraction before two to one with the next exponent. -/
theorem log10Parts_le_one (hk : k.natAbs ≤ 1074) (hk' : (k + 1).natAbs ≤ 1074) :
    log10Parts k (ln (1024 * hiddenBit - 1)) ≤ log10Parts (k + 1) (ln (1023 * hiddenBit)) := by
  obtain ⟨-, -, hone, hlast⟩ := log10E_mul_ln
  have hfirst : (log10E * ln (1024 * hiddenBit - 1)).worth =
      5422874305198590 / 2 ^ 54 * 2 ^ unitExp := by
    rw [hlast, worth_of_places (n := 5422874305198590) (t := 54) (by decide) (by decide),
      if_neg (by decide), Nat.cast_ofNat]
  have hsecond : (log10E * ln (1023 * hiddenBit)).worth = 0 := by rw [hone, worth_zero]
  apply log10Parts_le_succ hk hk' (span_of_between (by decide) (by decide))
    (span_of_between (by decide) (by decide))
  have hone : (0 : ℚ) < 2 ^ unitExp := by positivity
  rw [hfirst, hsecond, worth_log10TwoHigh, worth_log10TwoLow]
  generalize (2 : ℚ) ^ unitExp = item at *
  rw [abs_of_pos (by linarith), abs_zero, roundoff]
  linarith

/-- From the end of one exponent to the start of the next. -/
theorem log10Parts_le_next {e : ℤ} (hk : (step e).natAbs ≤ 1074)
    (hk' : (step (e + 1)).natAbs ≤ 1074) (hl : Span 1 l)
    (hlast : l ≤ ln ((binade e + 1) * hiddenBit - 1)) :
    log10Parts (step e) l ≤ log10Parts (step (e + 1)) (ln (binade (e + 1) * hiddenBit)) := by
  rcases lt_trichotomy e (-1) with he | rfl | he
  · have hstep : step e = e + 1 ∧ step (e + 1) = e + 1 + 1 := by
      unfold step
      split_ifs <;> omega
    have hbinade : binade e = 1022 ∧ binade (e + 1) = 1022 := by
      unfold binade
      split_ifs <;> omega
    rw [hstep.1] at hk ⊢
    rw [hstep.2] at hk' ⊢
    rw [hbinade.1] at hlast
    rw [hbinade.2]
    exact Binary64.le_trans (log10Parts_mono hk hl (span_of_between (by decide) (by decide)) hlast)
      (log10Parts_le_half hk hk')
  · -- about one both exponents are taken as zero
    exact log10Parts_mono hk hl (span_of_between (by decide) (by decide))
      (Binary64.le_trans hlast (ln_mono (by decide) (by decide)))
  · have hstep : step e = e ∧ step (e + 1) = e + 1 := by
      unfold step
      split_ifs <;> omega
    have hbinade : binade e = 1023 ∧ binade (e + 1) = 1023 := by
      unfold binade
      split_ifs <;> omega
    rw [hstep.1] at hk ⊢
    rw [hstep.2] at hk' ⊢
    rw [hbinade.1] at hlast
    rw [hbinade.2]
    exact Binary64.le_trans (log10Parts_mono hk hl (span_of_between (by decide) (by decide)) hlast)
      (log10Parts_le_one hk hk')

theorem log10Mag_le_succ (hm : 0 < m) (hfin : m + 1 < infinite) :
    log10Mag m ≤ log10Mag (m + 1) := by
  have hk := natAbs_step_le (Nat.lt_of_succ_lt hfin)
  have hk' := natAbs_step_le hfin
  rw [log10Mag_eq, log10Mag_eq]
  rcases exponent_succ hm with ⟨hexp, hfrac⟩ | ⟨hexp, hfrac⟩
  · rw [hexp]
    exact log10Parts_mono hk (span_ln hm) (span_ln m.succ_pos) (ln_mono (fraction_pos hm) hfrac)
  · have hlast := ln_mono (fraction_pos hm) (Nat.le_sub_one_of_lt (fraction_bounds hm).2)
    rw [hexp] at hk' hfrac ⊢
    rw [hfrac]
    exact log10Parts_le_next hk hk' (span_ln hm) hlast

theorem isNaN_log10Mag (hm : 0 < m) (hfin : m < infinite) : (log10Mag m).isNaN = false := by
  have hk := natAbs_step_le hfin
  exact (isNearest_add ((span_low_add hk (span_ln hm)).finite (by decide))
    ((span_high hk).finite (by decide))).not_nan

theorem log10Mag_mono (hm : 0 < m) (h : m ≤ n) (hn : n < infinite) :
    log10Mag m ≤ log10Mag n := by
  induction n, h using Nat.le_induction with
  | base => exact Binary64.le_refl (isNaN_log10Mag hm hn)
  | succ n hle ih =>
    exact Binary64.le_trans (ih (Nat.lt_of_succ_lt hn)) (log10Mag_le_succ (by omega) hn)

/-! The library -/

theorem log10_of_pos (hx : x.isFinite = true) (h0 : zero false < x) : log10 x = log10Mag x.mag := by
  obtain ⟨hnan, hn, hmag⟩ := zero_lt_iff.mp h0
  have hz : x.isZero = false := by
    simp only [isZero, beq_eq_false_iff_ne]
    exact hmag.ne'
  simp [log10, hnan, hn, hz, isInf_of_isFinite hx]

/-- The decimal logarithm keeps order. -/
theorem log10_mono (h0 : zero false < x) (hy : y.isFinite = true) (h : x ≤ y) :
    log10 x ≤ log10 y := by
  obtain ⟨-, hxn, hxm⟩ := zero_lt_iff.mp h0
  have hkey := key_le h
  rw [key_of_not_isNeg hxn] at hkey
  have hyn : y.isNeg = false := isNeg_of_key_pos (by omega)
  rw [key_of_not_isNeg hyn] at hkey
  have hfin := isFinite_iff.mp hy
  have hx : x.isFinite = true := isFinite_iff.mpr (by omega)
  have hy0 : zero false < y := zero_lt_iff.mpr ⟨isNaN_of_isFinite hy, hyn, by omega⟩
  rw [log10_of_pos hx h0, log10_of_pos hy hy0]
  exact log10Mag_mono hxm (by omega) hfin

/-- The logarithms of the least word and of the greatest, and those about one. -/
theorem log10Mag_ends : -ofNat 324 ≤ log10Mag 1 ∧ log10Mag (infinite - 1) ≤ ofNat 309 ∧
    log10Mag (one.mag - 1) < zero false ∧ (log10Mag one.mag).isNeg = false ∧
    zero false < log10Mag (one.mag + 1) := by decide +kernel

theorem log10_bounds (hx : x.isFinite = true) (h0 : zero false < x) :
    -ofNat 324 ≤ log10 x ∧ log10 x ≤ ofNat 309 := by
  obtain ⟨-, -, hmag⟩ := zero_lt_iff.mp h0
  have hfin := isFinite_iff.mp hx
  obtain ⟨hlow, hhigh, -⟩ := log10Mag_ends
  rw [log10_of_pos hx h0]
  exact ⟨Binary64.le_trans hlow (log10Mag_mono one_pos hmag hfin),
    Binary64.le_trans (log10Mag_mono hmag (by omega) (by decide)) hhigh⟩

theorem log10_lt_zero (h0 : zero false < x) (h : x < one) : log10 x < zero false := by
  obtain ⟨hnan, hn, hmag⟩ := zero_lt_iff.mp h0
  have hkey := (lt_iff.mp h).2.2
  rw [key_of_not_isNeg hn, show one.key = (one.mag : ℤ) by decide] at hkey
  have hx : x.isFinite = true := isFinite_iff.mpr (by
    have : one.mag < infinite := by decide
    omega)
  obtain ⟨-, -, hbelow, -⟩ := log10Mag_ends
  have hle := log10Mag_mono hmag (show x.mag ≤ one.mag - 1 by omega) (by decide)
  rw [log10_of_pos hx h0]
  exact lt_iff.mpr ⟨(le_iff.mp hle).1, by decide, (key_le hle).trans_lt (lt_iff.mp hbelow).2.2⟩

theorem isNeg_log10 (hx : x.isFinite = true) (h : one ≤ x) : (log10 x).isNeg = false := by
  have hkey := key_le h
  have hpos : one.key = (one.mag : ℤ) ∧ 0 < one.mag := by decide
  have hn : x.isNeg = false := isNeg_of_key_pos (by omega)
  rw [key_of_not_isNeg hn, hpos.1] at hkey
  have h0 : zero false < x := zero_lt_iff.mpr ⟨isNaN_of_isFinite hx, hn, by omega⟩
  obtain ⟨-, -, -, hone, hnext⟩ := log10Mag_ends
  rw [log10_of_pos hx h0]
  rcases Nat.eq_or_lt_of_le (show one.mag ≤ x.mag by exact_mod_cast hkey) with heq | hlt
  · rw [← heq]
    exact hone
  · have hle := key_le (log10Mag_mono (by decide) hlt (isFinite_iff.mp hx))
    exact isNeg_of_key_pos ((lt_iff.mp hnext).2.2.trans_le (by simpa using hle))

instance lawful : LawfulMathLibrary where
  exp_mono := exp_mono
  isNeg_exp := isNeg_exp
  exp_nan := exp_nan
  exp_zero := exp_zero
  exp_neg_exhausting := by decide +kernel
  exp_neg_faint := by decide +kernel
  exp_neg_faint_succ := by decide +kernel
  lnKeep_zero := rfl
  isFinite_lnKeep_one := by decide +kernel
  isNeg_lnKeep := isNeg_lnKeep
  lnKeep_le_succ := lnKeep_le_succ
  log10_mono := log10_mono
  log10_bounds := log10_bounds
  log10_lt_zero := log10_lt_zero
  isNeg_log10 := isNeg_log10

end BucketOverflow.Binary64.Platform
