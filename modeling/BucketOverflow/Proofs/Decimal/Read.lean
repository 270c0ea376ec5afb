import BucketOverflow.Decimal.Layout
import BucketOverflow.Decimal.Read
import BucketOverflow.Proofs.Binary64.Arithmetic
import BucketOverflow.Proofs.Decimal.Shortest

/-! Written numbers read back: the scientific form of every word that is not NaN gives that word,
and the digits of a natural number give the word nearest to it. -/
namespace BucketOverflow.Binary64
open Text Decimal

/-! The value of digits and an exponent -/

theorem nearest_decimal (m : ℕ) (e : ℤ) :
    nearest ((m * Nat.pow 10 e.toNat) <<< unitExp) (Nat.pow 10 (-e).toNat) 0 =
      nearestMag (Decimal.worth ⟨m, e⟩) := by
  have hworth : Decimal.worth ⟨m, e⟩ =
      ((m * 10 ^ e.toNat * 2 ^ unitExp : ℕ) : ℚ) * 2 ^ 0 / ((10 ^ (-e).toNat : ℕ) : ℚ) := by
    rw [Decimal.worth, ten_zpow, Nat.cast_mul, Nat.cast_pow]
    push_cast
    ring
  rw [Nat.pow_eq, Nat.pow_eq, nearest_eq (Nat.pow_pos (by omega)) (.inr rfl), hworth,
    Nat.shiftLeft_eq]

/-- Within four hundred digits of the point a decimal is rounded once. -/
theorem ofDecimal_eq (neg : Bool) {m : ℕ} {e : ℤ} (hlow : -400 ≤ e + (decimal m).length)
    (hhigh : e + (decimal m).length ≤ 400) :
    ofDecimal neg m e = ofMag neg (nearestMag (Decimal.worth ⟨m, e⟩)) := by
  unfold ofDecimal
  dsimp only
  rcases Nat.eq_zero_or_pos m with rfl | hm
  · rw [show Decimal.worth ⟨0, e⟩ = 0 by simp [Decimal.worth]]
    rfl
  · have hzero : (m = 0 || decide (e + (decimal m).length < -400)) = false := by
      simp only [Bool.or_eq_false_iff, decide_eq_false_iff_not, not_lt]
      exact ⟨hm.ne', hlow⟩
    rw [hzero, if_neg Bool.false_ne_true, if_neg (not_lt.mpr hhigh), nearest_decimal]

/-! Parts of a number -/

theorem readSign_minus (cs : List Char) : readSign ('-' :: cs) = (true, cs) := rfl

theorem readSign_of_isDigit {c : Char} (hc : isDigit c = true) (cs : List Char) :
    readSign (c :: cs) = (false, c :: cs) := by
  unfold readSign
  split
  · rename_i h
    rw [(List.cons.inj h).1] at hc
    exact absurd hc (by decide)
  · rename_i h
    rw [(List.cons.inj h).1] at hc
    exact absurd hc (by decide)
  · rfl

theorem dropWhile_isDigit {rest : List Char} (hr : rest.takeWhile isDigit = []) :
    rest.dropWhile isDigit = rest := by
  have h := List.takeWhile_append_dropWhile (p := isDigit) (l := rest)
  rwa [hr] at h

/-- A row of digits in front of what is not a digit. -/
theorem takeWhile_isDigit {ds rest : List Char} (hd : ∀ c ∈ ds, isDigit c = true)
    (hr : rest.takeWhile isDigit = []) :
    (ds ++ rest).takeWhile isDigit = ds ∧ (ds ++ rest).dropWhile isDigit = rest := by
  exact ⟨by rw [List.takeWhile_append_of_pos hd, hr, List.append_nil],
    by rw [List.dropWhile_append_of_pos hd, dropWhile_isDigit hr]⟩

/-- A number's digits, apart from its first character. -/
theorem decimal_cons (n : ℕ) : ∃ c cs, decimal n = c :: cs ∧ isDigit c = true := by
  cases h : decimal n with
  | nil => exact absurd h (decimal_ne_nil n)
  | cons c cs => exact ⟨c, cs, rfl, isDigit_of_mem_decimal c (h ▸ List.mem_cons_self)⟩

theorem readExponent?_signedDecimal (n : ℤ) : readExponent? ('e' :: signedDecimal n) = some n := by
  have hmark : ('e' == 'e' || 'e' == 'E') = true := by decide
  have hne : (decimal n.natAbs).isEmpty = false := by
    rw [List.isEmpty_eq_false_iff]
    exact decimal_ne_nil _
  have hdigits := all_isDigit_decimal n.natAbs
  have hvalue := ofDigits_decimal n.natAbs
  obtain ⟨c, cs, hcs, hc⟩ := decimal_cons n.natAbs
  unfold signedDecimal
  split_ifs with hneg
  · simp only [List.singleton_append, readExponent?, readSign_minus, hmark, hne, hdigits, hvalue,
      Bool.not_false, Bool.and_self, if_true]
    congr 1
    omega
  · rw [List.nil_append]
    have hsign : readSign (decimal n.natAbs) = (false, decimal n.natAbs) := by
      rw [hcs]
      exact readSign_of_isDigit hc cs
    simp only [readExponent?, hsign, hmark, hne, hdigits, hvalue, Bool.not_false, Bool.and_self,
      if_true, Bool.false_eq_true, if_false]
    congr 1
    omega

/-- Digits behind their point, and what follows them. -/
theorem readFinite?_pointed (neg : Bool) {ds rest : List Char} (hne : ds ≠ [])
    (hd : ∀ c ∈ ds, isDigit c = true) (hr : rest.takeWhile isDigit = [])
    (hpoint : rest.head? ≠ some '.') :
    readFinite? neg (pointed ds ++ rest) = (readExponent? rest).map fun e =>
      ofDecimal neg (ofDigits 10 ds) (e - (ds.length - 1 : ℕ)) := by
  cases ds with
  | nil => exact absurd rfl hne
  | cons c cs =>
    cases cs with
    | nil =>
      obtain ⟨htake, hdrop⟩ := takeWhile_isDigit hd hr
      unfold readFinite?
      simp only [pointed, htake, hdrop]
      split
      · rename_i r
        exact absurd rfl hpoint
      · simp
    | cons d cs =>
      have hc : ∀ x ∈ [c], isDigit x = true := by
        intro x hx
        rw [List.mem_singleton.mp hx]
        exact hd c List.mem_cons_self
      have hdot : ('.' :: d :: cs ++ rest).takeWhile isDigit = [] := rfl
      obtain ⟨htake, hdrop⟩ := takeWhile_isDigit hc hdot
      obtain ⟨htake', hdrop'⟩ := takeWhile_isDigit (fun x hx => hd x (List.mem_cons_of_mem c hx)) hr
      unfold readFinite?
      simp only [List.cons_append, List.nil_append] at htake hdrop htake' hdrop'
      simp only [pointed, List.cons_append, htake, hdrop, htake', hdrop']
      simp

/-! Whole texts -/

theorem toLower_of_isDigit {c : Char} (hc : isDigit c = true) : c.toLower = c := by
  have h := isDigit_iff.mp hc
  unfold Char.toLower
  rw [dif_neg]
  rintro ⟨hA, -⟩
  have : 65 ≤ c.toNat := hA
  omega

/-- No name of a value begins with a digit. -/
theorem lower_ne {c d : Char} (hc : isDigit c = true) (hd : isDigit d = false)
    (cs ds : List Char) :
    String.ofList ((c :: cs).map Char.toLower) ≠ String.ofList (d :: ds) := by
  intro h
  have := congrArg String.toList h
  rw [String.toList_ofList, String.toList_ofList, List.map_cons, toLower_of_isDigit hc] at this
  rw [(List.cons.inj this).1, hd] at hc
  exact Bool.false_ne_true hc

theorem ofText?_of_digit {cs : List Char} {neg : Bool} {c : Char} {body : List Char}
    (hs : readSign cs = (neg, c :: body)) (hc : isDigit c = true) :
    ofText? cs = readFinite? neg (c :: body) := by
  have h1 := lower_ne hc (show isDigit 'i' = false from rfl) body ['n', 'f']
  have h2 := lower_ne hc (show isDigit 'i' = false from rfl) body
    ['n', 'f', 'i', 'n', 'i', 't', 'y']
  have h3 := lower_ne hc (show isDigit 'n' = false from rfl) body ['a', 'n']
  unfold ofText?
  simp only [hs]
  rw [if_neg, if_neg h3]
  simp only [Bool.or_eq_true, decide_eq_true_eq]
  exact not_or.mpr ⟨h1, h2⟩

/-- The digits of a natural number read as the word nearest to it. -/
theorem ofText?_decimal {n : ℕ} (h : (decimal n).length ≤ 400) :
    ofText? (decimal n) = some (ofNat n) := by
  obtain ⟨c, cs, hcs, hc⟩ := decimal_cons n
  have hsign : readSign (decimal n) = (false, c :: cs) := by
    rw [hcs]
    exact readSign_of_isDigit hc cs
  have hrow := takeWhile_isDigit (isDigit_of_mem_decimal (n := n))
    (show ([] : List Char).takeWhile isDigit = [] from rfl)
  rw [List.append_nil] at hrow
  have hworth : Decimal.worth ⟨n, 0⟩ = n * 2 ^ unitExp := by
    rw [Decimal.worth, zpow_zero, mul_one]
  rw [ofText?_of_digit hsign hc, ← hcs]
  unfold readFinite?
  simp only [hrow.1, hrow.2, List.append_nil, ofDigits_decimal]
  rw [if_neg (by simp [decimal_ne_nil]), readExponent?, Option.map_some, List.length_nil,
    Nat.cast_zero, sub_zero, ofDecimal_eq false (by omega) (by omega), hworth, ofNat,
    nearest_one_eq]

/-- A decimal in scientific form reads as its worth rounded once. -/
theorem readFinite?_scientific (neg : Bool) {d : Decimal} (hlow : -400 ≤ d.leadingExp)
    (hhigh : d.leadingExp < 400) :
    readFinite? neg d.scientific = some (ofMag neg (nearestMag d.worth)) := by
  have hpos := length_decimal_pos d.digits
  have hwidth : d.leadingExp = d.exp + (decimal d.digits).length - 1 := rfl
  have hmark : ('e' :: signedDecimal d.leadingExp).takeWhile isDigit = [] := rfl
  rw [Decimal.scientific, readFinite?_pointed neg (decimal_ne_nil _) isDigit_of_mem_decimal hmark
    (by simp), readExponent?_signedDecimal, Option.map_some, ofDigits_decimal]
  have hexp : d.leadingExp - ((decimal d.digits).length - 1 : ℕ) = d.exp := by omega
  rw [hexp, ofDecimal_eq neg (by omega) (by omega)]

theorem scientific_cons (d : Decimal) :
    ∃ c cs, d.scientific = c :: cs ∧ isDigit c = true := by
  obtain ⟨c, cs, hcs, hc⟩ := decimal_cons d.digits
  rw [Decimal.scientific, hcs]
  cases cs with
  | nil => exact ⟨c, _, rfl, hc⟩
  | cons b cs => exact ⟨c, _, rfl, hc⟩

/-- The decimal that stands for a finite magnitude. -/
theorem shown_spec {mag : ℕ} (h : mag < infinite) {d : Decimal}
    (hd : (if mag = 0 then (⟨0, 0⟩ : Decimal) else shortest .up mag) = d) :
    nearestMag d.worth = mag ∧ -400 ≤ d.leadingExp ∧ d.leadingExp < 400 := by
  split_ifs at hd with h0
  · have hlead : leadingExp ⟨0, 0⟩ = 0 := by
      rw [leadingExp, width, decimal_of_lt (show 0 < 10 by omega)]
      rfl
    rw [← hd, h0, hlead, show Decimal.worth ⟨0, 0⟩ = 0 by simp [Decimal.worth]]
    exact ⟨rfl, by decide⟩
  · have hback := shortest_readsBack .up (Nat.pos_of_ne_zero h0) h
    have hlead := leading_bounds (Nat.pos_of_ne_zero h0) h
    rw [hd] at hback
    have h1 := hback.leading_le
    have h2 := hback.le_leading
    exact ⟨hback.nearest, by omega, by omega⟩

/-- The scientific form reads back. -/
theorem ofText?_scientific {x : Binary64} (hx : x.isNaN = false) :
    ofText? x.scientific = some x := by
  have hself := ofMag_self x
  cases hinf : x.isInf with
  | true =>
    have hmag := isInf_iff.mp hinf
    rw [hmag] at hself
    unfold scientific signed
    simp only [hx, hinf, Bool.false_eq_true, if_false, if_true]
    cases hneg : x.isNeg with
    | false => rw [← hself, hneg]; rfl
    | true => rw [← hself, hneg]; rfl
  | false =>
    have hfin : x.mag < infinite := by
      have h1 := isNaN_eq_false_iff.mp hx
      have h2 : x.mag ≠ infinite := fun h => by simp [isInf_iff.mpr h] at hinf
      omega
    generalize hd : (if x.mag = 0 then (⟨0, 0⟩ : Decimal) else shortest .up x.mag) = d
    obtain ⟨hnear, hlow, hhigh⟩ := shown_spec hfin hd
    have hread : readFinite? x.isNeg d.scientific = some x := by
      rw [readFinite?_scientific _ hlow hhigh, hnear, hself]
    have htext : x.scientific = (if x.isNeg then ['-'] else []) ++ d.scientific := by
      unfold scientific signed
      simp only [hx, hinf, Bool.false_eq_true, if_false, hd]
    obtain ⟨c, cs, hcs, hc⟩ := scientific_cons d
    have hsign : readSign x.scientific = (x.isNeg, c :: cs) := by
      rw [htext, hcs]
      cases x.isNeg with
      | false => exact readSign_of_isDigit hc cs
      | true => rfl
    rw [ofText?_of_digit hsign hc, ← hcs, hread]

end BucketOverflow.Binary64
