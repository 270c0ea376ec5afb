import BucketOverflow.Json.Printer
import BucketOverflow.Json.Reader
import BucketOverflow.Proofs.Decimal.Read

/-! Written numbers read back. A natural number of 64 bits reads as itself. A float reads as its
digits scaled by a power of ten, which need not be the float again, but is a number as long as the
power is moderate. -/
namespace BucketOverflow.Json
open Text Binary64 Decimal

/-- What may follow a number: nothing that goes on with it. -/
def Stops (rest : List Char) : Prop :=
  ∀ c ∈ rest.head?, isDigit c = false ∧ c ≠ '.' ∧ c ≠ 'e' ∧ c ≠ 'E'

theorem stops_nil : Stops [] := by simp [Stops]

variable {ds whole frac rest : List Char} {neg : Bool}

theorem Stops.takeWhile (h : Stops rest) : rest.takeWhile isDigit = [] := by
  cases rest with
  | nil => rfl
  | cons c cs =>
    rw [List.takeWhile_cons, if_neg (Bool.eq_false_iff.mp (h c rfl).1)]

/-! Rows of digits -/

theorem gather_of_stop (s taken : ℕ) (hr : rest.takeWhile isDigit = []) :
    gather s taken rest = (s, taken, rest) := by
  cases rest with
  | nil => rfl
  | cons c cs =>
    rw [gather, isDigit_of_takeWhile hr, Bool.false_and, if_neg Bool.false_ne_true]

/-- One digit moves from a row into the number in front of it. -/
theorem shift_digit {c : Char} (hc : isDigit c = true) (s : ℕ) (cs : List Char) :
    s * 10 ^ (c :: cs).length + ofDigits 10 (c :: cs) =
      (s * 10 + (c.toNat - 48)) * 10 ^ cs.length + ofDigits 10 cs := by
  rw [ofDigits_cons, hexDigit?_of_isDigit hc, Option.getD_some, List.length_cons, pow_succ]
  ring

theorem le_shifted (n k m : ℕ) : n ≤ n * 10 ^ k + m :=
  (Nat.le_mul_of_pos_right n (Nat.pow_pos (by omega))).trans (Nat.le_add_right _ m)

/-- Digits within the limit of a significand are all taken. -/
theorem gather_digits (hd : ∀ c ∈ ds, isDigit c = true) (hr : rest.takeWhile isDigit = [])
    (s taken : ℕ) (h : s * 10 ^ ds.length + ofDigits 10 ds < significandLimit) :
    gather s taken (ds ++ rest) =
      (s * 10 ^ ds.length + ofDigits 10 ds, taken + ds.length, rest) := by
  induction ds generalizing s taken with
  | nil =>
    rw [List.nil_append, gather_of_stop s taken hr]
    simp [ofDigits]
  | cons c cs ih =>
    have hc := hd c List.mem_cons_self
    rw [shift_digit hc] at h ⊢
    have hlt : s * 10 + (c.toNat - 48) < significandLimit := (le_shifted _ _ _).trans_lt h
    rw [List.cons_append, gather, hc, Bool.true_and, if_pos (by simpa using hlt),
      ih (fun x hx => hd x (List.mem_cons_of_mem c hx)) _ _ h, List.length_cons]
    congr 2
    omega

/-- A whole part: one zero, or digits that begin with another. -/
structure Whole (ds : List Char) : Prop where
  ne_nil : ds ≠ []
  digits : ∀ c ∈ ds, isDigit c = true
  lead : ds = ['0'] ∨ ds.head? ≠ some '0'

theorem whole_zero : Whole ['0'] := ⟨by simp, by simp [isDigit], .inl rfl⟩

theorem whole_decimal (n : ℕ) : Whole (decimal n) := by
  refine ⟨decimal_ne_nil n, isDigit_of_mem_decimal, ?_⟩
  rcases Nat.eq_zero_or_pos n with rfl | hn
  · exact .inl (decimal_of_lt (by omega))
  · exact .inr (head_decimal hn)

/-- The whole part of a number is taken up to where its digits end. -/
theorem number?_whole (hw : Whole whole) (h : ofDigits 10 whole < significandLimit)
    (hr : rest.takeWhile isDigit = []) :
    number? neg (whole ++ rest) = afterWhole neg (ofDigits 10 whole) 0 rest := by
  rcases hw.lead with rfl | hlead
  · cases rest with
    | nil => rfl
    | cons c cs =>
      have hc := isDigit_of_takeWhile hr
      rw [List.singleton_append, number?]
      simp only [hc, Bool.false_eq_true, if_false]
      rfl
  · cases whole with
    | nil => exact absurd rfl hw.ne_nil
    | cons c cs =>
      have hc := hw.digits c List.mem_cons_self
      have hne : c ≠ '0' := fun h0 => hlead (by rw [h0]; rfl)
      have hval : (c.toNat - 48) * 10 ^ cs.length + ofDigits 10 cs = ofDigits 10 (c :: cs) := by
        rw [ofDigits_cons, hexDigit?_of_isDigit hc, Option.getD_some]
      have hgather := gather_digits (fun x hx => hw.digits x (List.mem_cons_of_mem c hx)) hr
        (c.toNat - 48) 0 (hval.trans_lt h)
      have hdrop := dropWhile_isDigit hr
      rw [List.cons_append, number?.eq_def]
      split
      · rename_i heq
        cases heq
      · rename_i heq
        exact absurd (List.cons.inj heq).1 hne
      · rename_i heq
        obtain ⟨rfl, rfl⟩ := List.cons.inj heq
        simp only [hc, if_true, hgather, hval, hr, hdrop, List.length_nil]

/-- Digits of at most 64 bits read as an integer. -/
theorem number?_decimal (neg : Bool) {n : ℕ} (hn : n < significandLimit) (hr : Stops rest) :
    number? neg (decimal n ++ rest) = .ok (integer neg n, rest) := by
  rw [number?_whole (whole_decimal n) (by rwa [ofDigits_decimal]) hr.takeWhile, ofDigits_decimal]
  cases rest with
  | nil => rfl
  | cons c cs =>
    obtain ⟨-, hdot, he, hE⟩ := hr c rfl
    rw [afterWhole.eq_def]
    split
    · rename_i heq
      exact absurd (List.cons.inj heq).1 hdot
    · rename_i heq
      exact absurd (List.cons.inj heq).1 he
    · rename_i heq
      exact absurd (List.cons.inj heq).1 hE
    · rfl

/-! Exponents -/

theorem gatherExponent_digits (hd : ∀ c ∈ ds, isDigit c = true)
    (hr : rest.takeWhile isDigit = []) (n : ℕ)
    (h : n * 10 ^ ds.length + ofDigits 10 ds < 0x80000000) :
    gatherExponent n (ds ++ rest) = (some (n * 10 ^ ds.length + ofDigits 10 ds), rest) := by
  induction ds generalizing n with
  | nil =>
    cases rest with
    | nil => simp [gatherExponent, ofDigits]
    | cons c cs =>
      simp [gatherExponent, ofDigits, isDigit_of_takeWhile hr]
  | cons c cs ih =>
    have hc := hd c List.mem_cons_self
    rw [shift_digit hc] at h ⊢
    have hlt : n * 10 + (c.toNat - 48) < 0x80000000 := (le_shifted _ _ _).trans_lt h
    rw [List.cons_append, gatherExponent, if_pos hc, if_pos hlt,
      ih (fun x hx => hd x (List.mem_cons_of_mem c hx)) _ h]

/-- A signed exponent of at most 31 bits is added to what the digits leave. -/
theorem exponent_signed (neg : Bool) (s : ℕ) (e : ℤ) {k : ℤ} (hk : k.natAbs < 0x80000000)
    (hr : Stops rest) :
    exponent neg s e ((if k < 0 then '-' else '+') :: (decimal k.natAbs ++ rest)) =
      floatNumber neg s (e + k) rest := by
  obtain ⟨c, cs, hcs, hc⟩ := decimal_cons k.natAbs
  have hgather := gatherExponent_digits (isDigit_of_mem_decimal (n := k.natAbs)) hr.takeWhile 0
    (by rw [ofDigits_decimal]; omega)
  rw [ofDigits_decimal, zero_mul, zero_add, hcs, List.cons_append] at hgather
  rw [hcs, List.cons_append]
  unfold exponent
  split_ifs with hneg
  · simp only [hc, if_true, hgather]
    congr 1
    omega
  · simp only [hc, if_true, hgather, Bool.false_eq_true, if_false]
    congr 1
    omega

theorem exponent?_of_stops (neg : Bool) (s : ℕ) (e : ℤ) (hr : Stops rest) :
    exponent? neg s e rest = floatNumber neg s e rest := by
  cases rest with
  | nil => rfl
  | cons c cs =>
    obtain ⟨-, -, he, hE⟩ := hr c rfl
    rw [exponent?.eq_def]
    split
    · rename_i heq
      exact absurd (List.cons.inj heq).1 he
    · rename_i heq
      exact absurd (List.cons.inj heq).1 hE
    · rfl

/-- Digits behind a point count down from the exponent. -/
theorem number?_fraction (neg : Bool) (hw : Whole whole) (hf : ∀ c ∈ frac, isDigit c = true)
    (hne : frac ≠ []) (h : ofDigits 10 (whole ++ frac) < significandLimit)
    (hr : rest.takeWhile isDigit = []) :
    number? neg (whole ++ '.' :: (frac ++ rest)) =
      exponent? neg (ofDigits 10 (whole ++ frac)) (-frac.length) rest := by
  rw [ofDigits_append] at h ⊢
  have hwhole : ofDigits 10 whole < significandLimit := (le_shifted _ _ _).trans_lt h
  have hdrop := dropWhile_isDigit hr
  have hgather := gather_digits hf hr (ofDigits 10 whole) 0 h
  rw [number?_whole hw hwhole rfl, afterWhole]
  cases frac with
  | nil => exact absurd rfl hne
  | cons c cs =>
    have hc := hf c List.mem_cons_self
    rw [List.cons_append] at hgather
    simp only [fraction, List.cons_append, hc, if_true, hgather, hdrop]
    congr 1
    omega

/-! The text of a decimal -/

/-- The significand and exponent that a decimal's text is read as. -/
def significant (d : Decimal) : ℕ × ℤ :=
  if 0 ≤ d.exp ∧ d.leadingExp < 16 then (d.digits * 10 ^ (d.exp.toNat + 1), -1)
  else (d.digits, d.exp)

/-- The text of a decimal without its sign. -/
def decimalText (d : Decimal) : List Char :=
  if -5 ≤ d.leadingExp ∧ d.leadingExp < 16 then positional d else exponential d

variable {d : Decimal}

theorem leadingExp_width (d : Decimal) : d.leadingExp = d.exp + (decimal d.digits).length - 1 := rfl

/-- A decimal of sixteen places before its point has at most seventeen digits with one zero more. -/
theorem scaled_lt (hexp : 0 ≤ d.exp) (hlead : d.leadingExp < 16) :
    d.digits * 10 ^ (d.exp.toNat + 1) < significandLimit := by
  have hwidth := leadingExp_width d
  calc d.digits * 10 ^ (d.exp.toNat + 1)
      < 10 ^ (decimal d.digits).length * 10 ^ (d.exp.toNat + 1) :=
        Nat.mul_lt_mul_of_pos_right (lt_pow_length_decimal _) (Nat.pow_pos (by omega))
    _ = 10 ^ ((decimal d.digits).length + (d.exp.toNat + 1)) := (pow_add _ _ _).symm
    _ ≤ 10 ^ 17 := Nat.pow_le_pow_right (by omega) (by omega)
    _ < significandLimit := by decide

theorem whole_append_zeros (hpos : 0 < d.digits) (n : ℕ) :
    Whole (decimal d.digits ++ List.replicate n '0') := by
  obtain ⟨c, cs, hcs, -⟩ := decimal_cons d.digits
  refine ⟨by simp [decimal_ne_nil],
    List.forall_mem_append.mpr ⟨isDigit_of_mem_decimal, isDigit_of_mem_zeros⟩, .inr ?_⟩
  have hhead := head_decimal hpos
  rw [hcs] at hhead ⊢
  exact hhead

theorem whole_take (hpos : 0 < d.digits) (n : ℕ) : Whole ((decimal d.digits).take (n + 1)) := by
  obtain ⟨c, cs, hcs, -⟩ := decimal_cons d.digits
  refine ⟨by simp [decimal_ne_nil], fun x hx => isDigit_of_mem_decimal x (List.mem_of_mem_take hx),
    .inr ?_⟩
  have hhead := head_decimal hpos
  rw [hcs] at hhead ⊢
  exact hhead

/-- A whole part and a fraction of known digits. -/
theorem number?_pointed {n k : ℕ} (hw : Whole whole) (hf : ∀ c ∈ frac, isDigit c = true)
    (hval : ofDigits 10 (whole ++ frac) = n) (hlen : frac.length = k) (hk : 0 < k)
    (hn : n < significandLimit) (hr : Stops rest) :
    number? neg (whole ++ '.' :: frac ++ rest) = floatNumber neg n (-k) rest := by
  have hne : frac ≠ [] := List.length_pos_iff.mp (hlen ▸ hk)
  rw [List.append_assoc, List.cons_append,
    number?_fraction neg hw hf hne (hval ▸ hn) hr.takeWhile, exponent?_of_stops _ _ _ hr, hval,
    hlen]

/-- Digits filled up with zeros to the point. -/
theorem number?_filled (hpos : 0 < d.digits) (hexp : 0 ≤ d.exp) (hlead : d.leadingExp < 16)
    (hr : Stops rest) :
    number? neg (decimal d.digits ++ List.replicate d.exp.toNat '0' ++ ".0".toList ++ rest) =
      floatNumber neg (d.digits * 10 ^ (d.exp.toNat + 1)) (-1) rest := by
  have hzero : (hexDigit? '0').getD 0 = 0 := rfl
  have hval : ofDigits 10 (decimal d.digits ++ List.replicate d.exp.toNat '0' ++ ['0']) =
      d.digits * 10 ^ (d.exp.toNat + 1) := by
    rw [ofDigits_append_singleton, ofDigits_append, ofDigits_decimal, ofDigits_replicate_zero,
      List.length_replicate, hzero, pow_succ]
    ring
  have hdigit : ∀ c ∈ ['0'], isDigit c = true := by simp [isDigit]
  exact number?_pointed (whole_append_zeros hpos _) hdigit hval List.length_singleton (by decide)
    (scaled_lt hexp hlead) hr

/-- Digits parted by the point. -/
theorem number?_parted (hpos : 0 < d.digits) (hlim : d.digits < significandLimit)
    (hexp : d.exp < 0) (hlead : 0 ≤ d.leadingExp) (hr : Stops rest) :
    number? neg ((decimal d.digits).take (d.leadingExp.toNat + 1) ++
      '.' :: (decimal d.digits).drop (d.leadingExp.toNat + 1) ++ rest) =
        floatNumber neg d.digits d.exp rest := by
  have hwidth := leadingExp_width d
  have hval : ofDigits 10 ((decimal d.digits).take (d.leadingExp.toNat + 1) ++
      (decimal d.digits).drop (d.leadingExp.toNat + 1)) = d.digits := by
    rw [List.take_append_drop, ofDigits_decimal]
  have hlen : ((decimal d.digits).drop (d.leadingExp.toNat + 1)).length = (-d.exp).toNat := by
    rw [List.length_drop]
    omega
  rw [number?_pointed (whole_take hpos _)
    (fun x hx => isDigit_of_mem_decimal x (List.mem_of_mem_drop hx)) hval hlen (by omega) hlim hr]
  congr 1
  omega

/-- Digits after the point and zeros. -/
theorem number?_small (hlim : d.digits < significandLimit) (hlead : d.leadingExp < 0)
    (hr : Stops rest) :
    number? neg ("0.".toList ++ List.replicate (-d.leadingExp - 1).toNat '0' ++
      decimal d.digits ++ rest) = floatNumber neg d.digits d.exp rest := by
  have hwidth := leadingExp_width d
  have hpos := length_decimal_pos d.digits
  have htext : "0.".toList ++ List.replicate (-d.leadingExp - 1).toNat '0' ++ decimal d.digits =
      ['0'] ++ '.' :: (List.replicate (-d.leadingExp - 1).toNat '0' ++ decimal d.digits) := by
    rw [List.append_assoc]
    rfl
  have hval : ofDigits 10 (['0'] ++
      (List.replicate (-d.leadingExp - 1).toNat '0' ++ decimal d.digits)) = d.digits := by
    rw [ofDigits_append, ofDigits_append, ofDigits_replicate_zero, ofDigits_decimal]
    simp [ofDigits, hexDigit?]
  have hlen : (List.replicate (-d.leadingExp - 1).toNat '0' ++ decimal d.digits).length =
      (-d.exp).toNat := by
    rw [List.length_append, List.length_replicate]
    omega
  rw [htext, number?_pointed whole_zero isDigit_of_mem_zeros_decimal hval hlen (by omega) hlim hr]
  congr 1
  omega

/-- Positional text reads as the digits, with one zero more when the decimal is whole. -/
theorem number?_positional (hpos : 0 < d.digits) (hlim : d.digits < significandLimit)
    (hlead : d.leadingExp < 16) (hr : Stops rest) :
    number? neg (positional d ++ rest) =
      floatNumber neg (significant d).1 (significant d).2 rest := by
  unfold positional
  dsimp only
  by_cases hexp : 0 ≤ d.exp
  · rw [if_pos hexp, number?_filled hpos hexp hlead hr, significant, if_pos ⟨hexp, hlead⟩]
  · have hsig : significant d = (d.digits, d.exp) := if_neg fun h => hexp h.1
    rw [if_neg hexp, hsig]
    split_ifs with hpoint
    · exact number?_parted hpos hlim (by omega) hpoint hr
    · exact number?_small hlim (by omega) hr

/-- Scientific text reads as the digits and their exponent. -/
theorem number?_exponential (hlim : d.digits < significandLimit)
    (hlead : d.leadingExp.natAbs < 0x80000000) (hr : Stops rest) :
    number? neg (exponential d ++ rest) = floatNumber neg d.digits d.exp rest := by
  have hwidth := leadingExp_width d
  have hval := ofDigits_decimal d.digits
  have hdigits := isDigit_of_mem_decimal (n := d.digits)
  have hwhole := whole_decimal d.digits
  unfold exponential
  rw [List.append_assoc, List.cons_append, List.cons_append]
  generalize decimal d.digits = cs at *
  have hmark (tail : List Char) : ('e' :: tail).takeWhile isDigit = [] := rfl
  cases cs with
  | nil => exact absurd rfl hwhole.ne_nil
  | cons c cs =>
    cases cs with
    | nil =>
      have hpointed : pointed [c] = [c] := rfl
      rw [hpointed, number?_whole hwhole (hval ▸ hlim) (hmark _), hval, afterWhole,
        exponent_signed neg _ _ hlead hr]
      congr 1
      simp at hwidth
      omega
    | cons b cs =>
      have hone : Whole [c] := by
        refine ⟨by simp, fun x hx => hdigits x (by simp at hx; simp [hx]), ?_⟩
        rcases hwhole.lead with h | h
        · simp at h
        · exact .inr h
      have hjoin : [c] ++ b :: cs = c :: b :: cs := rfl
      rw [pointed, List.cons_append, List.cons_append]
      have hread := number?_fraction neg hone
        (fun x hx => hdigits x (List.mem_cons_of_mem c hx)) (List.cons_ne_nil b cs)
        (by rw [hjoin, hval]; exact hlim) (hmark ((if d.leadingExp < 0 then '-' else '+') ::
          (decimal d.leadingExp.natAbs ++ rest)))
      rw [hjoin, hval] at hread
      rw [List.singleton_append] at hread
      rw [hread, exponent?, exponent_signed neg _ _ hlead hr]
      congr 1
      simp at hwidth ⊢
      omega

/-- The text of a decimal reads as its significand scaled by a power of ten. -/
theorem number?_decimalText (hpos : 0 < d.digits) (hlim : d.digits < significandLimit)
    (hlow : -400 ≤ d.leadingExp) (hhigh : d.leadingExp < 400) (hr : Stops rest) :
    number? neg (decimalText d ++ rest) =
      floatNumber neg (significant d).1 (significant d).2 rest := by
  unfold decimalText
  split_ifs with h
  · exact number?_positional hpos hlim h.2 hr
  · rw [number?_exponential hlim (by omega) hr, significant, if_neg]
    rintro ⟨hexp, hlead⟩
    have hwidth := leadingExp_width d
    have := length_decimal_pos d.digits
    omega

/-! Floats -/

/-- Scaling down always gives a number. -/
theorem scale_of_neg (n : ℕ) (f : Binary64) {e : ℤ} (he : e < 0) : ∃ g, scale n f e = some g := by
  induction n generalizing f e with
  | zero => exact ⟨f, rfl⟩
  | succ n ih =>
    rw [scale]
    by_cases h308 : e.natAbs ≤ 308
    · rw [if_pos h308, if_neg (by omega)]
      exact ⟨_, rfl⟩
    · rw [if_neg h308, if_neg (show ¬0 < e by omega)]
      split_ifs with hzero
      · exact ⟨f, rfl⟩
      · exact ih _ (by omega)

/-- A significand scaled up by a moderate power stays in range. -/
theorem scale_isSome {s : ℕ} {e : ℤ} (hs : s < significandLimit) (he : e ≤ 30) :
    ∃ f, scale 3 (.ofNat s) e = some f := by
  by_cases hneg : e < 0
  · exact scale_of_neg 3 _ hneg
  have hf : Fits (.ofNat s) 1 (64 + unitExp) :=
    fits_ofNat (by rw [one_mul]; exact hs.le) (by decide) (by decide)
  have hten : 10 ^ e.natAbs ≤ 2 ^ 100 := by
    calc 10 ^ e.natAbs ≤ 10 ^ 30 := Nat.pow_le_pow_right (by omega) (by omega)
      _ ≤ 2 ^ 100 := by decide
  have hp : Fits (powerOfTen e.natAbs) 1 (100 + unitExp) :=
    fits_ofNat (by rw [one_mul]; exact hten) (by decide) (by decide)
  have hfin := (hf.mul hp (by decide) (by unfold unitExp; omega) (by unfold unitExp; omega)).finite
  rw [scale, if_pos (by omega), if_pos (by omega)]
  dsimp only
  rw [isInf_of_isFinite hfin, if_neg Bool.false_ne_true]
  exact ⟨_, rfl⟩

/-- The text of a finite word without its sign. -/
def magnitudeText (x : Binary64) : List Char :=
  if x.isZero then "0.0".toList else decimalText (shortest .even x.mag)

theorem number_eq {x : Binary64} (hx : x.isFinite = true) :
    number x = (if x.isNeg then ['-'] else []) ++ magnitudeText x := by
  unfold number
  rw [hx, Bool.not_true, if_neg Bool.false_ne_true]
  rfl

theorem significant_lt (hle : d.digits ≤ 10 ^ 17) :
    (significant d).1 < significandLimit := by
  have hlim : 10 ^ 17 < significandLimit := by decide
  unfold significant
  split_ifs with h
  · exact scaled_lt h.1 h.2
  · exact hle.trans_lt hlim

theorem significant_exp_le {k : ℤ} (hk : 0 ≤ k) (h : d.leadingExp ≤ k) : (significant d).2 ≤ k := by
  have hwidth := leadingExp_width d
  have hpos := length_decimal_pos d.digits
  unfold significant
  split_ifs
  · dsimp only
    omega
  · dsimp only
    omega

theorem le_significant_exp (hle : d.digits ≤ 10 ^ 17) (h : -324 ≤ d.leadingExp) :
    -360 ≤ (significant d).2 := by
  have hwidth := leadingExp_width d
  have hlen := length_decimal_le (k := 18) (by decide) (hle.trans_lt (by decide))
  unfold significant
  split_ifs
  · dsimp only
    omega
  · dsimp only
    omega

/-- A finite word of at most thirty digits before its point. -/
structure Moderate (x : Binary64) : Prop where
  finite : x.isFinite = true
  units_lt : (units x.mag : ℚ) < 10 ^ (30 : ℤ) * 2 ^ unitExp

/-- The significand and exponent that a word's text is read as. -/
def significantOf (x : Binary64) : ℕ × ℤ :=
  if x.isZero then (0, -1) else significant (shortest .even x.mag)

/-- The word that is read from a word's text, its own or a neighbour. -/
def reread (x : Binary64) : Binary64 :=
  let f := (scale 3 (.ofNat (significantOf x).1) (significantOf x).2).getD x
  if x.isNeg then -f else f

/-- What the digits of a moderate word come to. -/
structure Significant (x : Binary64) (s : ℕ) (e : ℤ) : Prop where
  lt_limit : s < significandLimit
  low : -360 ≤ e
  high : e ≤ 30

theorem significantOf_bounds {x : Binary64} (hx : Moderate x) :
    Significant x (significantOf x).1 (significantOf x).2 := by
  unfold significantOf
  split_ifs with hzero
  · exact ⟨by decide, by decide, by decide⟩
  · have h0 : 0 < x.mag := Nat.pos_of_ne_zero fun h => hzero (isZero_iff.mpr h)
    have hmag := isFinite_iff.mp hx.finite
    have hback := shortest_readsBack .even h0 hmag
    obtain ⟨hlow, -⟩ := leading_bounds h0 hmag
    have hlead := leading_lt h0 hmag hx.units_lt
    have hge := hback.leading_le
    have hle := hback.le_leading
    exact ⟨significant_lt hback.digits_le, le_significant_exp hback.digits_le (by omega),
      significant_exp_le (by omega) (hle.trans hlead)⟩

/-- The text of a moderate word reads as its significand scaled by a power of ten. -/
theorem number?_magnitudeText (neg : Bool) {x : Binary64} (hx : Moderate x) (hr : Stops rest) :
    number? neg (magnitudeText x ++ rest) =
      floatNumber neg (significantOf x).1 (significantOf x).2 rest := by
  unfold magnitudeText significantOf
  split_ifs with hzero
  · have hdigit : ∀ c ∈ ['0'], isDigit c = true := by simp [isDigit]
    exact number?_pointed whole_zero hdigit rfl rfl (by decide) (by decide) hr
  · have h0 : 0 < x.mag := Nat.pos_of_ne_zero fun h => hzero (isZero_iff.mpr h)
    have hmag := isFinite_iff.mp hx.finite
    have hback := shortest_readsBack .even h0 hmag
    obtain ⟨hlow, -⟩ := leading_bounds h0 hmag
    have hlead := leading_lt h0 hmag hx.units_lt
    have hge := hback.leading_le
    have hle := hback.le_leading
    have hlim : 10 ^ 17 < significandLimit := by decide
    exact number?_decimalText hback.digits_pos (hback.digits_le.trans_lt hlim)
      ((by omega : (-400 : ℤ) ≤ -324).trans (hlow.trans hge))
      ((hle.trans hlead).trans_lt (by omega)) hr

/-- The text of a moderate word reads as a number, the same whatever follows. -/
theorem number?_reread {x : Binary64} (hx : Moderate x) (hr : Stops rest) :
    number? x.isNeg (magnitudeText x ++ rest) = .ok (.float (reread x), rest) := by
  have h := significantOf_bounds hx
  obtain ⟨f, hf⟩ := scale_isSome h.lt_limit h.high
  rw [number?_magnitudeText _ hx hr]
  simp only [floatNumber, reread, hf, Option.getD_some]

end BucketOverflow.Json
