import BucketOverflow.Proofs.Decimal.Read

/-! How wide written numbers are. In scientific form a value takes at most seventeen digits, a point
and an exponent of three digits, which with both signs is twenty-four characters. -/
namespace BucketOverflow
open Text Binary64

/-- A text of at most so many characters, all on one line. -/
structure InWidth (width : ℕ) (cs : List Char) : Prop where
  length_le : cs.length ≤ width
  not_feed : '\n' ∉ cs

variable {m n k : ℕ} {mag : ℕ} {cs ds : List Char}

theorem InWidth.mono (h : InWidth m cs) (hle : m ≤ n) : InWidth n cs :=
  ⟨h.length_le.trans hle, h.not_feed⟩

theorem InWidth.append (hc : InWidth m cs) (hd : InWidth n ds) : InWidth (m + n) (cs ++ ds) where
  length_le := by
    rw [List.length_append]
    exact Nat.add_le_add hc.length_le hd.length_le
  not_feed h := (List.mem_append.mp h).elim hc.not_feed hd.not_feed

theorem inWidth_nil (n : ℕ) : InWidth n [] := ⟨Nat.zero_le n, List.not_mem_nil⟩

theorem inWidth_decimal (hk : 0 < k) (h : n < 10 ^ k) : InWidth k (decimal n) where
  length_le := length_decimal_le hk h
  not_feed hfeed := absurd (isDigit_of_mem_decimal _ hfeed) (by decide)

theorem inWidth_sign (neg : Bool) (h : InWidth 1 cs) : InWidth 1 (if neg then ['-'] else cs) := by
  split
  · exact ⟨le_rfl, by decide⟩
  · exact h

theorem inWidth_signedDecimal {z : ℤ} (hk : 0 < k) (h : z.natAbs < 10 ^ k) :
    InWidth (1 + k) (signedDecimal z) := by
  have hsign := inWidth_sign (decide (z < 0)) (inWidth_nil 1)
  simp only [decide_eq_true_eq] at hsign
  exact hsign.append (inWidth_decimal hk h)

theorem InWidth.pointed (h : InWidth k cs) : InWidth (k + 1) (Decimal.pointed cs) := by
  obtain ⟨hlen, hfeed⟩ := h
  unfold Decimal.pointed
  split
  · refine ⟨?_, by simpa using hfeed⟩
    simp only [List.length_cons] at hlen ⊢
    omega
  · exact ⟨hlen.trans (Nat.le_succ k), hfeed⟩

theorem Decimal.inWidth_scientific {d : Decimal} (hk : 0 < k) (hd : d.digits < 10 ^ k)
    (he : d.leadingExp.natAbs < 10 ^ 3) : InWidth (k + 6) d.scientific := by
  have hmark : InWidth 1 ['e'] := ⟨le_rfl, by decide⟩
  have hexp : InWidth 5 ('e' :: signedDecimal d.leadingExp) :=
    hmark.append (inWidth_signedDecimal (by decide) he)
  exact (inWidth_decimal hk hd).pointed.append hexp

/-- A word takes one character more than its finite magnitudes, for the sign. -/
theorem Binary64.inWidth_signed {plus : List Char} {body : ℕ → List Char} (hplus : InWidth 1 plus)
    (hn : 3 ≤ n) (hbody : ∀ mag < infinite, InWidth n (body mag)) (x : Binary64) :
    InWidth (1 + n) (x.signed plus body) := by
  have hname {name : List Char} (h : InWidth 3 name) : InWidth n name := h.mono hn
  unfold signed
  by_cases hnan : x.isNaN = true
  · rw [if_pos hnan]
    exact (hname ⟨le_rfl, by decide⟩).mono (by omega)
  · rw [if_neg hnan]
    refine (inWidth_sign x.isNeg hplus).append ?_
    by_cases hinf : x.isInf = true
    · rw [if_pos hinf]
      exact hname ⟨le_rfl, by decide⟩
    · rw [if_neg hinf]
      have hfinite := isFinite_of_not_isInf (Bool.eq_false_iff.mpr hnan) hinf
      exact hbody x.mag (isFinite_iff.mp hfinite)

/-- The shortest form of any word, with all its digits and signs, has at most twenty-four
characters. -/
theorem Binary64.inWidth_scientific (x : Binary64) : InWidth 24 x.scientific := by
  refine inWidth_signed (n := 23) (inWidth_nil 1) (by decide) (fun mag h => ?_) x
  obtain ⟨-, hlow, hhigh⟩ := shown_spec h rfl
  refine Decimal.inWidth_scientific (by decide) ?_ (by omega)
  split_ifs with h0
  · exact Nat.pow_pos (by decide)
  · exact Decimal.digits_shortest_lt .up (Nat.pos_of_ne_zero h0) h

/-! A fixed number of digits -/

namespace Decimal

theorem multiples_le {g : ℤ} (h : (units mag : ℚ) < 10 ^ (g + k) * 2 ^ unitExp) :
    multiples mag g ≤ 10 ^ k := by
  have hden : 0 < 10 ^ g.toNat * 2 ^ unitExp := by positivity
  have hsplit : (10 : ℚ) ^ (g + k) * 2 ^ unitExp = 10 ^ g * (10 ^ k * 2 ^ unitExp : ℕ) := by
    rw [zpow_add₀ (by norm_num), zpow_natCast]
    push_cast
    ring
  have hnum : units mag * 10 ^ (-g).toNat ≤ 10 ^ k * (10 ^ g.toNat * 2 ^ unitExp) := by
    rw [hsplit] at h
    calc units mag * 10 ^ (-g).toNat ≤ 10 ^ g.toNat * (10 ^ k * 2 ^ unitExp) :=
          (le_ten_zpow_mul_iff g _ _).mp h.le
      _ = 10 ^ k * (10 ^ g.toNat * 2 ^ unitExp) := by ring
  rw [multiples_eq]
  by_contra hgt
  have hpast := (lt_halfEven_iff hden (10 ^ k)).mp (not_le.mp hgt)
  generalize 10 ^ g.toNat * 2 ^ unitExp = den at *
  have hmul : (2 * 10 ^ k + 1) * den = 2 * (10 ^ k * den) + den := by ring
  omega

/-- Rounded digits are as many as asked for, and their exponent is near that of the magnitude. -/
theorem rounded_spec (places : ℕ) (h0 : 0 < mag) (h : mag < infinite) :
    (rounded places mag).digits < 10 ^ (places + 1) ∧
      leading mag - places ≤ (rounded places mag).leadingExp ∧
      (rounded places mag).leadingExp ≤ leading mag + 1 := by
  have hle : multiples mag (leading mag - places) ≤ 10 ^ (places + 1) := by
    refine multiples_le ?_
    have hexp : leading mag - places + (places + 1 : ℕ) = leading mag + 1 := by
      push_cast
      ring
    rw [hexp]
    exact (leading_spec h0 h).2
  have hdef : rounded places mag = if 10 ^ (places + 1) ≤ multiples mag (leading mag - places) then
      ⟨multiples mag (leading mag - places) / 10, leading mag - places + 1⟩
      else ⟨multiples mag (leading mag - places), leading mag - places⟩ := rfl
  generalize multiples mag (leading mag - places) = d at *
  have hdigits : (rounded places mag).digits < 10 ^ (places + 1) := by
    rw [hdef]
    split_ifs with hten
    · have hpos : 0 < 10 ^ (places + 1) := by positivity
      dsimp only
      omega
    · exact not_le.mp hten
  have hexp : leading mag - places ≤ (rounded places mag).exp ∧
      (rounded places mag).exp ≤ leading mag - places + 1 := by
    rw [hdef]
    split_ifs <;> constructor <;> dsimp only <;> omega
  have hwidth : (rounded places mag).width ≤ places + 1 :=
    length_decimal_le (Nat.succ_pos places) hdigits
  have hpos : 0 < (rounded places mag).width := length_decimal_pos _
  refine ⟨hdigits, ?_, ?_⟩ <;> unfold leadingExp <;> omega

end Decimal

/-- A value rounded to four digits has at most eleven characters. -/
theorem Binary64.inWidth_scientificPlaces (x : Binary64) :
    InWidth 11 (x.signed ['+'] (scientificPlaces 3)) := by
  refine inWidth_signed (n := 10) ⟨le_rfl, by decide⟩ (by decide) (fun mag h => ?_) x
  unfold scientificPlaces
  split_ifs with h0
  · exact ⟨by decide, by decide⟩
  · obtain ⟨hdigits, hlow, hhigh⟩ := Decimal.rounded_spec 3 (Nat.pos_of_ne_zero h0) h
    have hlead := Decimal.leading_bounds (Nat.pos_of_ne_zero h0) h
    exact Decimal.inWidth_scientific (by decide) hdigits (by omega)

end BucketOverflow
