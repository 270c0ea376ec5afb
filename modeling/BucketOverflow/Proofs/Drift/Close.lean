import BucketOverflow.Drift
import BucketOverflow.Proofs.Binary64.Extremes
import BucketOverflow.Proofs.Decimal.Read

/-! Rounding noise. Texts of numbers pass exactly when the numbers are close, and natural numbers
of 32 bits are close only when they are equal. -/
namespace BucketOverflow.Drift
open Text Binary64

/-- Numbers that differ by at most `tolerance` of the greater magnitude, which is not zero. -/
def Near (g c : Binary64) : Prop :=
  zero false < Binary64.max g.abs c.abs ∧ (c - g).abs / Binary64.max g.abs c.abs ≤ tolerance

instance : DecidableRel Near := fun _ _ => inferInstanceAs (Decidable (_ ∧ _))

/-- Numbers of the same bits, or near ones. -/
def Close (g c : Binary64) : Prop := g = c ∨ Near g c

variable {f g c : String} {x y : Binary64} {m n : ℕ}

theorem Near.symm (h : Near x y) : Near y x := by
  obtain ⟨hpos, hle⟩ := h
  have hdiff : (y - x).isNaN = false := by
    rw [← isNaN_abs]
    exact not_nan_of_div (le_iff.mp hle).1
  obtain ⟨hy, hx⟩ := not_nan_of_sub hdiff
  rw [Near, max_abs_comm hy hx, (opposite_sub y x).abs_eq hdiff]
  exact ⟨hpos, hle⟩

theorem near_comm : Near x y ↔ Near y x := ⟨Near.symm, Near.symm⟩

theorem worth_tolerance_le : tolerance.worth ≤ 2 ^ (unitExp - 33) := by
  have hlen : (decimal 1).length = 1 := by
    rw [decimal_of_lt (by omega)]
    rfl
  have hnear : IsNearest tolerance (Decimal.worth ⟨1, -12⟩) := by
    rw [tolerance, ofDecimal_eq false (by rw [hlen]; decide) (by rw [hlen]; decide)]
    exact isNearest_ofMag false (by unfold Decimal.worth; positivity)
  have hle := hnear.worth_le (a := 1) (s := unitExp - 33) (by decide) (by decide)
  rw [Nat.cast_one, one_mul] at hle
  apply hle
  have hpow : (2 : ℚ) ^ unitExp = 2 ^ (unitExp - 33) * 2 ^ 33 :=
    (pow_sub_mul_pow 2 (by decide)).symm
  have hpos : (0 : ℚ) < 2 ^ (unitExp - 33) := by positivity
  rw [Decimal.worth, hpow]
  generalize (2 : ℚ) ^ (unitExp - 33) = u at hpos ⊢
  norm_num
  linarith

theorem worth_ofNat_of_lt {k : ℕ} (hk : k < 2 ^ 32) : (ofNat k).worth = k * 2 ^ unitExp :=
  worth_ofNat (hk.le.trans (by decide))

theorem isFinite_ofNat {k : ℕ} (hk : k < 2 ^ 32) : (ofNat k).isFinite = true :=
  (fits_ofNat (a := 1) (s := 32) (by omega) (by decide) (by decide)).finite

/-- Distinct natural numbers are at least one apart as words. -/
theorem le_worth_abs_sub (hm : m < 2 ^ 32) (hn : n < 2 ^ 32) (hne : m ≠ n) :
    (ofNat n - ofNat m).abs.isFinite = true ∧ 2 ^ unitExp ≤ (ofNat n - ofNat m).abs.worth := by
  have hpos : (0 : ℚ) < 2 ^ unitExp := pow_pos two_pos unitExp
  have hnear := (isNearest_sub (isFinite_ofNat hn) (isFinite_ofNat hm)).abs
  rw [worth_ofNat_of_lt hn, worth_ofNat_of_lt hm, ← sub_mul, abs_mul, abs_of_pos hpos] at hnear
  have hlow : (1 : ℚ) ≤ |(n : ℚ) - m| := by
    have : (1 : ℤ) ≤ |(n : ℤ) - m| := Int.one_le_abs (by omega)
    exact_mod_cast this
  have hhigh : |(n : ℚ) - m| ≤ 2 ^ 32 := by
    have : |(n : ℤ) - m| ≤ 2 ^ 32 := abs_le.mpr (by omega)
    exact_mod_cast this
  constructor
  · refine (hnear.fits (a := 1) (s := 32 + unitExp) (isNeg_abs _) (by decide) (by decide) ?_).finite
    rw [Nat.cast_one, one_mul, pow_add]
    exact mul_le_mul_of_nonneg_right hhigh hpos.le
  · have hle := hnear.le_worth (a := 1) (s := unitExp) (by decide) (by decide)
    rw [Nat.cast_one, one_mul] at hle
    exact hle (le_mul_of_one_le_left hpos.le hlow)

/-- One part or more in a number of 32 bits. -/
theorem le_worth_div {k : ℕ} (hx : x.isFinite = true) (hone : 2 ^ unitExp ≤ x.worth) (hk0 : 0 < k)
    (hk : k < 2 ^ 32) : 2 ^ (unitExp - 32) ≤ (x / ofNat k).worth := by
  have hpos : (0 : ℚ) < 2 ^ unitExp := pow_pos two_pos unitExp
  have hkpos : (0 : ℚ) < k * 2 ^ unitExp := mul_pos (Nat.cast_pos.mpr hk0) hpos
  have hmag : (ofNat k).mag ≠ 0 := by
    intro h
    have hw := worth_of_not_isNeg (isNeg_ofNat k)
    rw [h, units_zero, worth_ofNat_of_lt hk] at hw
    exact hkpos.ne' hw
  have hlow := (isNearest_div hx (isFinite_ofNat hk) hmag).le_worth (a := 1) (s := unitExp - 32)
    (by decide) (by decide)
  rw [Nat.cast_one, one_mul, worth_ofNat_of_lt hk] at hlow
  apply hlow
  rw [le_div_iff₀ hkpos]
  have hk' : (k : ℚ) ≤ 2 ^ 32 := by exact_mod_cast hk.le
  have hpow : (2 : ℚ) ^ (unitExp - 32) * 2 ^ 32 = 2 ^ unitExp := pow_sub_mul_pow 2 (by decide)
  calc (2 : ℚ) ^ (unitExp - 32) * (k * 2 ^ unitExp)
      = 2 ^ (unitExp - 32) * k * 2 ^ unitExp := (mul_assoc _ _ _).symm
    _ ≤ 2 ^ (unitExp - 32) * 2 ^ 32 * 2 ^ unitExp := by gcongr
    _ ≤ x.worth * 2 ^ unitExp := by
      rw [hpow]
      exact mul_le_mul_of_nonneg_right hone hpos.le

/-- Distinct natural numbers of 32 bits differ by more than noise. -/
theorem not_close_ofNat (hm : m < 2 ^ 32) (hn : n < 2 ^ 32) (hne : m ≠ n) :
    ¬Close (ofNat m) (ofNat n) := by
  rintro (heq | ⟨-, hle⟩)
  · have hpos : (0 : ℚ) < 2 ^ unitExp := pow_pos two_pos unitExp
    have hw := congrArg worth heq
    rw [worth_ofNat_of_lt hm, worth_ofNat_of_lt hn] at hw
    exact hne (by exact_mod_cast mul_right_cancel₀ hpos.ne' hw)
  · rw [abs_of_not_isNeg (isNeg_ofNat m), abs_of_not_isNeg (isNeg_ofNat n), max_ofNat] at hle
    obtain ⟨hfin, hdiff⟩ := le_worth_abs_sub hm hn hne
    have hlow := le_worth_div hfin hdiff (k := m ⊔ n) (by omega) (max_lt hm hn)
    have hbound := hlow.trans ((worth_le_worth hle).trans worth_tolerance_le)
    exact absurd hbound (not_le.mpr (pow_lt_pow_right₀ one_lt_two (by decide)))

/-! Texts -/

/-- The two texts of a field raise no alert. -/
def Passes (f g c : String) : Prop := (classify f g c).2 ≠ .alert

/-- A field whose texts are compared as numbers, when they are numbers. -/
def Measured (f : String) : Prop :=
  f ≠ "fingerprint" ∧ "params.".toList.isPrefixOf f.toList = false

instance : DecidablePred Measured := fun _ => inferInstanceAs (Decidable (_ ∧ _))

/-- Every other field is a fingerprint or a parameter. -/
theorem measured_or (f : String) :
    f = "fingerprint" ∨ "params.".toList.isPrefixOf f.toList = true ∨ Measured f := by
  by_cases hf : f = "fingerprint"
  · exact .inl hf
  · cases hp : "params.".toList.isPrefixOf f.toList with
    | true => exact .inr (.inl rfl)
    | false => exact .inr (.inr ⟨hf, hp⟩)

/-! One case of the comparison each: equal texts, and distinct ones of each kind of field. -/

theorem classify_self (f g : String) : classify f g g = (none, .same) := by
  rw [classify, if_pos rfl]

theorem classify_fingerprint (hne : g ≠ c) : classify "fingerprint" g c = (none, .changed) := by
  rw [classify, if_neg hne, if_pos rfl]

theorem classify_params (hp : "params.".toList.isPrefixOf f.toList = true) (hne : g ≠ c) :
    classify f g c = (none, .alert) := by
  have hf : f ≠ "fingerprint" := by
    rintro rfl
    exact absurd hp (by decide)
  rw [classify, if_neg hne, if_neg hf, if_pos hp]

/-- Distinct texts of a measured field differ by their numbers, if both are numbers. -/
theorem classify_measured (hf : Measured f) (hne : g ≠ c) :
    classify f g c =
      match ofText? g.toList, ofText? c.toList with
      | some x, some y => (some (y - x), if Near x y then .changed else .alert)
      | _, _ => (none, .alert) := by
  have hprefix : ¬"params.".toList.isPrefixOf f.toList = true := by
    rw [hf.2]
    exact Bool.false_ne_true
  rw [classify, if_neg hne, if_neg hf.1, if_neg hprefix]
  cases ofText? g.toList with
  | none => rfl
  | some x =>
    cases ofText? c.toList with
    | none => rfl
    | some y => exact (apply_ite (Prod.mk (some (y - x))) (Near x y) _ _).symm

theorem passes_self (f g : String) : Passes f g g := by
  rw [Passes, classify_self]
  exact DriftStatus.noConfusion

theorem passes_fingerprint (g c : String) : Passes "fingerprint" g c := by
  by_cases heq : g = c
  · exact heq ▸ passes_self "fingerprint" g
  · rw [Passes, classify_fingerprint heq]
    exact DriftStatus.noConfusion

theorem passes_params (hp : "params.".toList.isPrefixOf f.toList = true) :
    Passes f g c ↔ g = c := by
  by_cases heq : g = c
  · exact iff_of_true (heq ▸ passes_self f g) heq
  · rw [Passes, classify_params hp heq]
    exact iff_of_false (fun h => h rfl) heq

/-- Texts of a measured field pass when they are equal or near numbers. -/
theorem passes_measured (hf : Measured f) : Passes f g c ↔ g = c ∨
    ∃ x y, ofText? g.toList = some x ∧ ofText? c.toList = some y ∧ Near x y := by
  by_cases heq : g = c
  · exact iff_of_true (heq ▸ passes_self f g) (.inl heq)
  · rw [Passes, classify_measured hf heq, or_iff_right heq]
    cases hg : ofText? g.toList with
    | none => simp
    | some x =>
      cases hc : ofText? c.toList with
      | none => simp
      | some y => by_cases h : Near x y <;> simp [h]

/-- A text that is no number passes only with the same text. -/
theorem passes_text (hf : Measured f) (h : ofText? g.toList = none ∨ ofText? c.toList = none) :
    Passes f g c ↔ g = c := by
  rw [passes_measured hf, or_iff_left_iff_imp]
  rintro ⟨x, y, hg, hc, -⟩
  rcases h with h | h
  · rw [h] at hg
    exact absurd hg (by simp)
  · rw [h] at hc
    exact absurd hc (by simp)

/-- Texts of numbers pass when the numbers are close. -/
theorem passes_number (hf : Measured f) (hg : ofText? g.toList = some x)
    (hc : ofText? c.toList = some y) (hinj : x = y → g = c) : Passes f g c ↔ Close x y := by
  have heq : g = c ↔ x = y := by
    refine ⟨fun h => ?_, hinj⟩
    rw [h, hc] at hg
    exact (Option.some.inj hg).symm
  rw [passes_measured hf, Close, heq, hg, hc]
  simp

theorem passes_scientific (hf : Measured f) (hx : x.isNaN = false) (hy : y.isNaN = false) :
    Passes f (String.ofList x.scientific) (String.ofList y.scientific) ↔ Close x y := by
  refine passes_number hf ?_ ?_ fun h => by rw [h]
  · rw [String.toList_ofList, ofText?_scientific hx]
  · rw [String.toList_ofList, ofText?_scientific hy]

/-- Natural numbers of 32 bits pass only when they are equal. -/
theorem passes_natText (hf : Measured f) (hm : m < 2 ^ 32) (hn : n < 2 ^ 32) :
    Passes f (natText m) (natText n) ↔ m = n := by
  have hread {k : ℕ} (hk : k < 2 ^ 32) : ofText? (natText k).toList = some (ofNat k) := by
    have hlen : (decimal k).length ≤ 10 := length_decimal_le (by omega) (by omega)
    rw [natText, String.toList_ofList, ofText?_decimal (by omega)]
  have hdistinct : ofNat m = ofNat n → m = n := by
    intro h
    by_contra hne
    exact not_close_ofNat hm hn hne (.inl h)
  rw [passes_number hf (hread hm) (hread hn) fun h => by rw [hdistinct h]]
  refine ⟨fun h => ?_, fun h => .inl (by rw [h])⟩
  by_contra hne
  exact not_close_ofNat hm hn hne h

end BucketOverflow.Drift
