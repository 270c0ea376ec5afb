import BucketOverflow.Proofs.Text.Digits

/-! Unsigned integers as they are read. What is read is exactly a row of digits behind at most one
plus sign, and the number that they stand for, as long as it is below the limit. -/
namespace BucketOverflow.Text

variable {base limit m n : ℕ} {c : Char} {cs : List Char}

/-- Digits of a base, at least one, that stand for a number. -/
structure IsNumeral (base : ℕ) (cs : List Char) (n : ℕ) : Prop where
  ne_nil : cs ≠ []
  digits : ∀ c ∈ cs, (digit? base c).isSome = true
  value : ofDigits base cs = n

/-- A numeral, or one behind a plus sign. -/
def Unsigned (base : ℕ) (cs : List Char) (n : ℕ) : Prop :=
  IsNumeral base cs n ∨ ∃ ds, cs = '+' :: ds ∧ IsNumeral base ds n

theorem digit?_plus (base : ℕ) : digit? base '+' = none := by
  have hplus : hexDigit? '+' = none := by decide
  rw [digit?, hplus, Option.filter_none]

theorem hexDigit?_of_digit? {d : ℕ} (h : digit? base c = some d) : hexDigit? c = some d :=
  (Option.filter_eq_some_iff.mp h).1

theorem digit?_ten_isSome_iff : (digit? 10 c).isSome = true ↔ isDigit c = true := by
  constructor
  · intro h
    obtain ⟨d, hd⟩ := Option.isSome_iff_exists.mp h
    obtain ⟨hhex, hlt⟩ := Option.filter_eq_some_iff.mp hd
    by_contra hc
    rw [decide_eq_true_eq] at hlt
    rw [isDigit, Bool.and_eq_true, decide_eq_true_eq, decide_eq_true_eq] at hc
    rw [hexDigit?, if_neg hc] at hhex
    -- a letter is worth ten or more
    split_ifs at hhex with hlow hhigh
    · have h97 : 97 ≤ c.toNat := hlow.1
      simp only [Option.some.injEq] at hhex
      omega
    · have h65 : 65 ≤ c.toNat := hhigh.1
      simp only [Option.some.injEq] at hhex
      omega
  · intro h
    have hten := lt_ten_of_isDigit h
    rw [digit?, hexDigit?_of_isDigit h, Option.filter_some, decide_eq_true hten]
    rfl

theorem isNumeral_decimal (n : ℕ) : IsNumeral 10 (decimal n) n where
  ne_nil := decimal_ne_nil n
  digits _ hc := digit?_ten_isSome_iff.mpr (isDigit_of_mem_decimal _ hc)
  value := ofDigits_decimal n

theorem not_isNumeral_plus (base : ℕ) (cs : List Char) (n : ℕ) : ¬IsNumeral base ('+' :: cs) n := by
  intro h
  have hplus := h.digits '+' List.mem_cons_self
  rw [digit?_plus] at hplus
  cases hplus

/-- Reading on from a number below the limit takes digits only, and stays below the limit as long as
the whole does. -/
theorem readDigits_eq_ok_iff (hb : 0 < base) (hn : n < limit) :
    readDigits base limit n cs = .ok m ↔ (∀ c ∈ cs, (digit? base c).isSome = true) ∧
      n * base ^ cs.length + ofDigits base cs = m ∧ m < limit := by
  induction cs generalizing n with
  | nil =>
    simp only [readDigits, Except.ok.injEq, List.not_mem_nil, false_implies, implies_true,
      List.length_nil, pow_zero, mul_one, ofDigits, List.foldl_nil, add_zero, true_and]
    constructor
    · rintro rfl
      exact ⟨rfl, hn⟩
    · exact And.left
  | cons c cs ih =>
    rw [readDigits, List.forall_mem_cons]
    cases hc : digit? base c with
    | none => simp
    | some d =>
      have hvalue : n * base ^ (c :: cs).length + ofDigits base (c :: cs) =
          (n * base + d) * base ^ cs.length + ofDigits base cs := by
        rw [ofDigits_cons, hexDigit?_of_digit? hc, Option.getD_some, List.length_cons, pow_succ]
        ring
      have hgrow : n * base + d ≤ (n * base + d) * base ^ cs.length :=
        Nat.le_mul_of_pos_right _ (Nat.pow_pos hb)
      rw [hvalue]
      by_cases hover : limit ≤ n * base + d
      · dsimp only
        rw [if_pos hover]
        refine iff_of_false (by simp) ?_
        rintro ⟨-, hm, hlt⟩
        omega
      · dsimp only
        rw [if_neg hover, ih (not_le.mp hover), Option.isSome_some, eq_self_iff_true, true_and]

theorem readUnsigned_plus (h : cs ≠ []) :
    readUnsigned base limit ('+' :: cs) = readDigits base limit 0 cs := by
  rw [readUnsigned]
  exact h

theorem readUnsigned_of_ne_plus (h : cs ≠ []) (hplus : ∀ ds, cs ≠ '+' :: ds) :
    readUnsigned base limit cs = readDigits base limit 0 cs := by
  rw [readUnsigned]
  · exact h
  · exact hplus []
  · exact hplus

/-- What is read is an unsigned integer below the limit, and every such integer is read. -/
theorem readUnsigned_eq_ok_iff (hb : 0 < base) (hlimit : 0 < limit) :
    readUnsigned base limit cs = .ok n ↔ Unsigned base cs n ∧ n < limit := by
  have hread {ds : List Char} (hds : ds ≠ []) :
      readDigits base limit 0 ds = .ok n ↔ IsNumeral base ds n ∧ n < limit := by
    rw [readDigits_eq_ok_iff hb hlimit, zero_mul, zero_add]
    constructor
    · rintro ⟨hdigits, hvalue, hlt⟩
      exact ⟨⟨hds, hdigits, hvalue⟩, hlt⟩
    · rintro ⟨h, hlt⟩
      exact ⟨h.digits, h.value, hlt⟩
  by_cases hplus : ∃ ds, cs = '+' :: ds
  · obtain ⟨ds, rfl⟩ := hplus
    rw [Unsigned, or_iff_right (not_isNumeral_plus base ds n)]
    by_cases hds : ds = []
    · subst hds
      refine iff_of_false (by simp [readUnsigned]) ?_
      rintro ⟨⟨ds, heq, h⟩, -⟩
      exact h.ne_nil (List.cons.inj heq).2.symm
    · rw [readUnsigned_plus hds, hread hds]
      simp
  · have hnone : ¬∃ ds, cs = '+' :: ds ∧ IsNumeral base ds n := by
      rintro ⟨ds, heq, -⟩
      exact hplus ⟨ds, heq⟩
    rw [Unsigned, or_iff_left hnone]
    by_cases hcs : cs = []
    · subst hcs
      exact iff_of_false (by simp [readUnsigned]) fun h => h.1.ne_nil rfl
    · rw [readUnsigned_of_ne_plus hcs (not_exists.mp hplus), hread hcs]

end BucketOverflow.Text
