import Mathlib.Tactic.GCongr
import BucketOverflow.Proofs.Decimal.Leading

/-! The shortest decimal reads back. A grid hits the numbers that round to a magnitude when it is
finer than the gap between its midpoints, and with seventeen digits it always is. -/
namespace BucketOverflow.Decimal
open Binary64

variable {mag : ℕ} {g : ℤ} {tie : DecimalTie}

/-! The numbers that round to a magnitude -/

theorem nearestMag_eq_iff {q : ℚ} (h0 : 0 < mag) (h : mag < infinite) (hq : 0 ≤ q) :
    nearestMag q = mag ↔ RoundsPast (mag - 1) q ∧ ¬RoundsPast mag q := by
  rw [← lt_nearestMag_iff hq h, ← lt_nearestMag_iff hq (by omega)]
  omega

/-- The gap below the least significand of a binade is half of the gap above. -/
theorem shiftOf_pred (h0 : 0 < mag) :
    (significand mag = hiddenBit ∧ shiftOf mag ≠ 0 → shiftOf (mag - 1) + 1 = shiftOf mag) ∧
      (¬(significand mag = hiddenBit ∧ shiftOf mag ≠ 0) → shiftOf (mag - 1) = shiftOf mag) := by
  unfold significand shiftOf hiddenBit
  omega

theorem four_mul_halfway (mag : ℕ) :
    4 * halfway mag = (4 * significand mag + 2) * 2 ^ shiftOf mag := by
  rw [halfway, units_succ, units_eq]
  push_cast
  ring

theorem four_mul_halfway_pred (h0 : 0 < mag) : 4 * halfway (mag - 1) =
    (4 * significand mag - if significand mag = hiddenBit ∧ shiftOf mag ≠ 0 then 1 else 2) *
      2 ^ shiftOf mag := by
  have hu : (units mag : ℚ) = units (mag - 1) + 2 ^ shiftOf (mag - 1) := by
    have := units_succ (mag - 1)
    rw [Nat.sub_add_cancel h0] at this
    rw [this]
    push_cast
    rfl
  have hm : (units mag : ℚ) = significand mag * 2 ^ shiftOf mag := by
    rw [units_eq]
    push_cast
    rfl
  have hshift := shiftOf_pred h0
  rw [halfway, Nat.sub_add_cancel h0]
  split_ifs with hs
  · have hp : (2 : ℚ) ^ shiftOf mag = 2 ^ shiftOf (mag - 1) * 2 := by
      rw [← hshift.1 hs, pow_succ]
    rw [hp] at hm ⊢
    linarith
  · rw [hshift.2 hs] at hu
    linarith

theorem significand_mod_two (mag : ℕ) : significand mag % 2 = mag % 2 := by
  unfold significand shiftOf hiddenBit
  omega

/-! One grid -/

/-- The lower end of the numbers that round to a magnitude, in quarters of its spacing. -/
def lowQuarters (mag : ℕ) : ℕ :=
  4 * significand mag - if significand mag = hiddenBit && shiftOf mag != 0 then 1 else 2

theorem lowQuarters_cast (h0 : 0 < mag) : (lowQuarters mag : ℚ) =
    4 * significand mag - if significand mag = hiddenBit ∧ shiftOf mag ≠ 0 then 1 else 2 := by
  have hpos : 0 < significand mag := by
    unfold significand shiftOf hiddenBit
    omega
  unfold lowQuarters
  rw [Nat.cast_sub]
  · simp
  · split_ifs <;> omega

/-- Whether a multiple of a power of ten rounds to a magnitude, as the grid tests it. -/
def inside (mag : ℕ) (g : ℤ) (k : ℕ) : Bool :=
  let unit := 10 ^ (-g).toNat <<< shiftOf mag
  let step := 10 ^ g.toNat <<< (unitExp + 2)
  if significand mag % 2 = 0 then
    lowQuarters mag * unit ≤ k * step && k * step ≤ (4 * significand mag + 2) * unit
  else lowQuarters mag * unit < k * step && k * step < (4 * significand mag + 2) * unit

theorem worth_scaled (k : ℕ) (g : ℤ) :
    ((k * (10 ^ g.toNat <<< (unitExp + 2)) : ℕ) : ℚ) =
      4 * 10 ^ (-g).toNat * worth ⟨k, g⟩ := by
  rw [Nat.shiftLeft_eq, worth, ten_zpow, pow_add]
  push_cast
  field_simp

theorem unit_scaled (a mag : ℕ) (g : ℤ) :
    ((a * (10 ^ (-g).toNat <<< shiftOf mag) : ℕ) : ℚ) =
      10 ^ (-g).toNat * (a * 2 ^ shiftOf mag) := by
  rw [Nat.shiftLeft_eq]
  push_cast
  ring

theorem inside_iff (h0 : 0 < mag) (h : mag < infinite) (k : ℕ) :
    inside mag g k = true ↔ nearestMag (worth ⟨k, g⟩) = mag := by
  have hc : (0 : ℚ) < 4 * 10 ^ (-g).toNat := by positivity
  have hlow : ((lowQuarters mag * (10 ^ (-g).toNat <<< shiftOf mag) : ℕ) : ℚ) =
      4 * 10 ^ (-g).toNat * halfway (mag - 1) := by
    rw [unit_scaled, lowQuarters_cast h0, ← four_mul_halfway_pred h0]
    ring
  have hhigh : (((4 * significand mag + 2) * (10 ^ (-g).toNat <<< shiftOf mag) : ℕ) : ℚ) =
      4 * 10 ^ (-g).toNat * halfway mag := by
    rw [unit_scaled]
    push_cast
    rw [← four_mul_halfway]
    ring
  have hval := worth_scaled k g
  have hpar : (mag - 1) % 2 = 1 ↔ significand mag % 2 = 0 := by
    rw [significand_mod_two]
    omega
  rw [nearestMag_eq_iff h0 h (worth_nonneg _), RoundsPast, RoundsPast, hpar,
    ← significand_mod_two mag]
  unfold inside
  dsimp only
  generalize lowQuarters mag * (10 ^ (-g).toNat <<< shiftOf mag) = a at *
  generalize (4 * significand mag + 2) * (10 ^ (-g).toNat <<< shiftOf mag) = b at *
  generalize k * (10 ^ g.toNat <<< (unitExp + 2)) = v at *
  generalize worth ⟨k, g⟩ = w at *
  have hle {x y : ℕ} {p q : ℚ} (hx : (x : ℚ) = 4 * 10 ^ (-g).toNat * p)
      (hy : (y : ℚ) = 4 * 10 ^ (-g).toNat * q) : x ≤ y ↔ p ≤ q := by
    rw [← Nat.cast_le (α := ℚ), hx, hy, mul_le_mul_iff_of_pos_left hc]
  have hlt {x y : ℕ} {p q : ℚ} (hx : (x : ℚ) = 4 * 10 ^ (-g).toNat * p)
      (hy : (y : ℚ) = 4 * 10 ^ (-g).toNat * q) : x < y ↔ p < q := by
    rw [← Nat.cast_lt (α := ℚ), hx, hy, mul_lt_mul_iff_of_pos_left hc]
  split_ifs with hm
  · simp only [hm, and_true, Bool.and_eq_true, decide_eq_true_eq, hle hlow hval, hle hval hhigh,
      zero_ne_one, and_false, or_false, not_lt, ← le_iff_lt_or_eq]
  · have hm' : significand mag % 2 = 1 := by omega
    simp only [hm', one_ne_zero, and_false, or_false, and_true, Bool.and_eq_true,
      decide_eq_true_eq, hlt hlow hval, hlt hval hhigh, ← le_iff_lt_or_eq, not_le]

/-- A grid is asked for the two neighbours of a magnitude, and gives one that rounds to it. -/
theorem onGrid_cases (h0 : 0 < mag) (h : mag < infinite) (tie : DecimalTie) (g : ℤ) :
    ∃ d, worth ⟨d, g⟩ ≤ units mag ∧ units mag < worth ⟨d + 1, g⟩ ∧
      (onGrid tie mag g = some d ∧ nearestMag (worth ⟨d, g⟩) = mag ∨
        onGrid tie mag g = some (d + 1) ∧ nearestMag (worth ⟨d + 1, g⟩) = mag ∨
        onGrid tie mag g = none ∧ nearestMag (worth ⟨d, g⟩) ≠ mag ∧
          nearestMag (worth ⟨d + 1, g⟩) ≠ mag) := by
  have hc : (0 : ℚ) < 4 * 10 ^ (-g).toNat := by positivity
  have hstep : 0 < 10 ^ g.toNat <<< (unitExp + 2) := by
    rw [Nat.shiftLeft_eq]
    exact Nat.mul_pos (by positivity) (Nat.pow_pos (by omega))
  have hvalue : ((4 * significand mag * (10 ^ (-g).toNat <<< shiftOf mag) : ℕ) : ℚ) =
      4 * 10 ^ (-g).toNat * units mag := by
    rw [unit_scaled, units_eq]
    push_cast
    ring
  have hdef : onGrid tie mag g =
      let step := 10 ^ g.toNat <<< (unitExp + 2)
      let value := 4 * significand mag * (10 ^ (-g).toNat <<< shiftOf mag)
      let d := value / step
      let below := value - d * step
      let above := (d + 1) * step - value
      if inside mag g d then
        if inside mag g (d + 1) &&
            (above < below || above == below && (tie == .up || d % 2 == 1)) then
          some (d + 1)
        else some d
      else if inside mag g (d + 1) then some (d + 1)
      else none := rfl
  rw [hdef]
  dsimp only
  generalize 4 * significand mag * (10 ^ (-g).toNat <<< shiftOf mag) = value at *
  refine ⟨value / (10 ^ g.toNat <<< (unitExp + 2)), ?_, ?_, ?_⟩
  · rw [← mul_le_mul_iff_of_pos_left hc, ← worth_scaled, ← hvalue, Nat.cast_le]
    exact Nat.div_mul_le_self _ _
  · rw [← mul_lt_mul_iff_of_pos_left hc, ← worth_scaled, ← hvalue, Nat.cast_lt]
    exact Nat.lt_mul_of_div_lt (Nat.lt_succ_self _) hstep
  · simp only [ne_eq, ← inside_iff h0 h]
    split_ifs with h1 h2 h3
    · simp only [Bool.and_eq_true] at h2
      exact .inr (.inl ⟨rfl, h2.1⟩)
    · exact .inl ⟨rfl, h1⟩
    · exact .inr (.inl ⟨rfl, h3⟩)
    · exact .inr (.inr ⟨rfl, h1, h3⟩)

theorem worth_succ (d : ℕ) (g : ℤ) :
    worth ⟨d + 1, g⟩ = worth ⟨d, g⟩ + 10 ^ g * 2 ^ unitExp := by
  simp only [worth]
  push_cast
  ring

/-- A decimal that rounds to a magnitude and is one of its neighbours on a grid. -/
structure Hit (mag : ℕ) (d : Decimal) : Prop where
  nearest : nearestMag d.worth = mag
  lower : units mag < worth ⟨d.digits + 1, d.exp⟩
  upper : d.worth ≤ units mag + 10 ^ d.exp * 2 ^ unitExp

theorem onGrid_hit (h0 : 0 < mag) (h : mag < infinite) {d : Decimal}
    (hd : onGrid tie mag d.exp = some d.digits) : Hit mag d := by
  obtain ⟨d, g⟩ := d
  dsimp only at hd
  have hgap : (0 : ℚ) < 10 ^ g * 2 ^ unitExp := mul_pos (ten_zpow_pos g) (pow_pos (by norm_num) _)
  obtain ⟨k, hlow, hhigh, ⟨hk, hn⟩ | ⟨hk, hn⟩ | ⟨hk, -, -⟩⟩ := onGrid_cases h0 h tie g
  · obtain rfl : k = d := Option.some.inj (hk.symm.trans hd)
    exact ⟨hn, hhigh, by linarith⟩
  · obtain rfl : k + 1 = d := Option.some.inj (hk.symm.trans hd)
    refine ⟨hn, ?_, ?_⟩
    · dsimp only
      rw [worth_succ (k + 1)]
      linarith
    · dsimp only
      rw [worth_succ k]
      linarith
  · rw [hk] at hd
    cases hd

/-- A grid finer than the gap between the midpoints has a hit. -/
theorem onGrid_isSome (h0 : 0 < mag) (h : mag < infinite)
    (hgap : 10 ^ g * 2 ^ unitExp < halfway mag - halfway (mag - 1)) :
    (onGrid tie mag g).isSome = true := by
  obtain ⟨d, hlow, hhigh, ⟨hd, -⟩ | ⟨hd, -⟩ | ⟨-, hno, hno'⟩⟩ := onGrid_cases h0 h tie g
  · rw [hd]
    rfl
  · rw [hd]
    rfl
  exfalso
  rw [ne_eq, nearestMag_eq_iff h0 h (worth_nonneg _)] at hno hno'
  have hpred : halfway (mag - 1) < units mag := by
    have := halfway_lt_units_succ (mag - 1)
    rwa [Nat.sub_add_cancel h0] at this
  have hleft : worth ⟨d, g⟩ ≤ halfway (mag - 1) := by
    by_contra hlt
    exact hno ⟨.inl (not_le.mp hlt), not_roundsPast_of_le le_rfl hlow⟩
  have hright : halfway mag ≤ worth ⟨d + 1, g⟩ := by
    by_contra hlt
    refine hno' ⟨.inl (hpred.trans hhigh), ?_⟩
    rintro (hp | ⟨hp, -⟩) <;> linarith
  rw [worth_succ] at hright
  linarith

/-- Seventeen digits are finer than any gap. -/
theorem onGrid_isSome_seventeen (h0 : 0 < mag) (h : mag < infinite) :
    (onGrid tie mag (leading mag - (16 : ℕ))).isSome = true := by
  apply onGrid_isSome h0 h
  have hs : (0 : ℚ) < 2 ^ shiftOf mag := by positivity
  have hgrid := ten_zpow_sub_mul (leading mag) 16
  have hle := (leading_spec h0 h).1
  have hm : (significand mag : ℚ) < 2 ^ 53 := by
    have := significand_lt mag
    rw [hiddenBit_eq, ← pow_succ'] at this
    exact_mod_cast this
  have hhigh := four_mul_halfway mag
  have hlow := four_mul_halfway_pred h0
  rw [← hgrid, units_eq] at hle
  push_cast at hle
  generalize (10 : ℚ) ^ (leading mag - (16 : ℕ)) = t at *
  generalize (2 : ℚ) ^ unitExp = u at *
  split_ifs at hlow with hb
  · rw [hb.1, hiddenBit_eq] at hle hlow hhigh
    push_cast at hle hlow hhigh
    linarith
  · have hlt : (significand mag : ℚ) * 2 ^ shiftOf mag < 2 ^ 53 * 2 ^ shiftOf mag :=
      mul_lt_mul_of_pos_right hm hs
    linarith

/-! The first grid with a hit -/

/-- The first hit of a search down the exponents. -/
def firstHit (hits : ℤ → Option ℕ) : ℕ → ℤ → Decimal
  | 0, g => ⟨(hits g).getD 0, g⟩
  | n + 1, g =>
    match hits g with
    | some d => ⟨d, g⟩
    | none => firstHit hits n (g - 1)

-- unfolded as terms: reducing the search would compute a grid
theorem firstOnGrid_eq (tie : DecimalTie) (mag : ℕ) :
    firstOnGrid tie mag = firstHit (onGrid tie mag) := by
  delta firstOnGrid firstHit
  rfl

theorem firstHit_spec {hits : ℤ → Option ℕ} {n : ℕ} (hn : (hits (g - n)).isSome = true) :
    hits (firstHit hits n g).exp = some (firstHit hits n g).digits ∧
      g - n ≤ (firstHit hits n g).exp ∧ (firstHit hits n g).exp ≤ g := by
  induction n generalizing g with
  | zero =>
    rw [Nat.cast_zero, sub_zero] at hn ⊢
    obtain ⟨d, hd⟩ := Option.isSome_iff_exists.mp hn
    exact ⟨by simp [firstHit, hd], le_rfl, le_rfl⟩
  | succ n ih =>
    rw [firstHit]
    cases hd : hits g with
    | some d => exact ⟨hd, by dsimp only; omega, le_rfl⟩
    | none =>
      have hg : g - 1 - n = g - (n + 1 : ℕ) := by omega
      obtain ⟨hit, hlow, hhigh⟩ := ih (g := g - 1) (by rwa [hg])
      exact ⟨hit, by dsimp only; omega, by dsimp only; omega⟩

/-- The digits of a hit reach from the leading digit down to its grid. -/
theorem Hit.digits_bounds {d : Decimal} (hd : Hit mag d) (h0 : 0 < mag) (h : mag < infinite) {t : ℕ}
    (ht : d.exp + t = leading mag) : 10 ^ t ≤ d.digits ∧ d.digits ≤ 10 ^ (t + 1) := by
  have hu : (0 : ℚ) < 2 ^ unitExp := pow_pos (by norm_num) _
  have he := ten_zpow_pos d.exp
  obtain ⟨hle, hlt⟩ := leading_spec h0 h
  have hpow (k : ℕ) : (10 : ℚ) ^ (d.exp + k) = 10 ^ k * 10 ^ d.exp := by
    rw [zpow_add₀ (by norm_num), zpow_natCast, mul_comm]
  rw [← ht, add_assoc, show (t : ℤ) + 1 = (t + 1 : ℕ) by push_cast; rfl, hpow] at hlt
  rw [← ht, hpow] at hle
  constructor
  · have := hle.trans_lt hd.lower
    simp only [worth, mul_lt_mul_iff_of_pos_right hu, mul_lt_mul_iff_of_pos_right he] at this
    exact Nat.lt_succ_iff.mp (by exact_mod_cast this)
  · have hlt' := hd.upper.trans_lt (add_lt_add_left hlt (10 ^ d.exp * 2 ^ unitExp))
    have hsum : (10 : ℚ) ^ (t + 1) * 10 ^ d.exp * 2 ^ unitExp + 10 ^ d.exp * 2 ^ unitExp =
        (10 ^ (t + 1) + 1) * 10 ^ d.exp * 2 ^ unitExp := by ring
    rw [hsum] at hlt'
    simp only [worth, mul_lt_mul_iff_of_pos_right hu, mul_lt_mul_iff_of_pos_right he] at hlt'
    exact Nat.lt_succ_iff.mp (by exact_mod_cast hlt')

theorem leadingExp_eq {d : Decimal} {t : ℕ} (hlow : 10 ^ t ≤ d.digits)
    (hhigh : d.digits < 10 ^ (t + 1)) : d.leadingExp = d.exp + t := by
  rw [leadingExp, width, Text.length_decimal_eq hlow hhigh]
  omega

/-! Trailing zeros -/

/-- Moving zeros into the exponent changes neither the worth nor the leading digit. -/
theorem trim_spec (n : ℕ) {d : Decimal} (hd : 0 < d.digits) :
    0 < (trim n d).digits ∧ (trim n d).digits ≤ d.digits ∧ (trim n d).worth = d.worth ∧
      (trim n d).leadingExp = d.leadingExp := by
  induction n generalizing d with
  | zero => exact ⟨hd, le_rfl, rfl, rfl⟩
  | succ n ih =>
    rw [trim]
    split_ifs with hz
    · have hten : d.digits / 10 * 10 = d.digits := by omega
      obtain ⟨hpos, hle, hworth, hlead⟩ :=
        ih (d := ⟨d.digits / 10, d.exp + 1⟩) (by dsimp only; omega)
      refine ⟨hpos, hle.trans (Nat.div_le_self _ _), ?_, ?_⟩
      · rw [hworth, ← worth_mul_ten, hten]
      · have hdec := Text.decimal_mul_ten (n := d.digits / 10) (by omega)
        rw [hten] at hdec
        rw [hlead, leadingExp, leadingExp, width, width, hdec, List.length_append,
          List.length_singleton]
        dsimp only
        push_cast
        ring
    · exact ⟨hd, le_rfl, rfl, rfl⟩

/-- What is left ends in another digit than zero, or all moves went to zeros. -/
theorem trim_digits (n : ℕ) (d : Decimal) :
    (trim n d).digits % 10 ≠ 0 ∨ d.digits = (trim n d).digits * 10 ^ n := by
  induction n generalizing d with
  | zero => exact .inr (Nat.mul_one _).symm
  | succ n ih =>
    rw [trim]
    split_ifs with hz
    · refine (ih ⟨d.digits / 10, d.exp + 1⟩).imp_right fun heq => ?_
      dsimp only at heq
      rw [pow_succ, ← mul_assoc, ← heq]
      omega
    · exact .inl hz

/-- A decimal of at most eighteen digits that rounds to a magnitude and begins where it does. -/
structure ReadsBack (mag : ℕ) (d : Decimal) : Prop where
  digits_pos : 0 < d.digits
  digits_le : d.digits ≤ 10 ^ 17
  nearest : nearestMag d.worth = mag
  leading_le : leading mag ≤ d.leadingExp
  le_leading : d.leadingExp ≤ leading mag + 1

/-- The shortest decimal comes from a hit of at most seventeen digits, or of the least number with
eighteen. -/
theorem exists_hit (tie : DecimalTie) (h0 : 0 < mag) (h : mag < infinite) :
    ∃ (d : Decimal) (t : ℕ), shortest tie mag = trim 17 d ∧ Hit mag d ∧
      d.exp + t = leading mag ∧ t ≤ 16 := by
  have hsome : (onGrid tie mag (leading mag - (16 : ℕ))).isSome = true :=
    onGrid_isSome_seventeen h0 h
  obtain ⟨hhit, hlow, hhigh⟩ := firstHit_spec hsome
  rw [shortest, firstOnGrid_eq]
  generalize firstHit (onGrid tie mag) 16 (leading mag) = d at *
  obtain ⟨t, ht⟩ := Int.le.dest hhigh
  exact ⟨d, t, rfl, onGrid_hit h0 h hhit, ht, by omega⟩

theorem shortest_readsBack (tie : DecimalTie) (h0 : 0 < mag) (h : mag < infinite) :
    ReadsBack mag (shortest tie mag) := by
  obtain ⟨d, t, hshortest, hit, ht, hsixteen⟩ := exists_hit tie h0 h
  rw [hshortest]
  obtain ⟨hge, hle⟩ := hit.digits_bounds h0 h ht
  have hpos : 0 < d.digits := (Nat.pow_pos (by omega)).trans_le hge
  have hlead : d.leadingExp = leading mag ∨ d.leadingExp = leading mag + 1 := by
    rcases hle.lt_or_eq with hlt | heq
    · exact .inl ((leadingExp_eq hge hlt).trans ht)
    · have hlt : d.digits < 10 ^ (t + 1 + 1) := heq ▸ Nat.pow_lt_pow_right (by omega) (by omega)
      right
      rw [leadingExp_eq heq.ge hlt]
      omega
  obtain ⟨tpos, tle, tworth, tlead⟩ := trim_spec 17 hpos
  refine ⟨tpos, tle.trans (hle.trans (Nat.pow_le_pow_right (by omega) (by omega))), ?_, ?_, ?_⟩
  · rw [tworth, hit.nearest]
  · omega
  · omega

/-- There are never eighteen digits: their least number would have been trimmed. -/
theorem digits_shortest_lt (tie : DecimalTie) (h0 : 0 < mag) (h : mag < infinite) :
    (shortest tie mag).digits < 10 ^ 17 := by
  obtain ⟨d, t, hshortest, hit, ht, hsixteen⟩ := exists_hit tie h0 h
  have hd : d.digits ≤ 10 ^ 17 :=
    (hit.digits_bounds h0 h ht).2.trans (Nat.pow_le_pow_right (by omega) (by omega))
  have hle : (shortest tie mag).digits ≤ 10 ^ 17 := (shortest_readsBack tie h0 h).digits_le
  rw [hshortest] at hle ⊢
  rcases trim_digits 17 d with hz | heq
  · omega
  · omega

end BucketOverflow.Decimal
