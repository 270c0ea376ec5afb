import Mathlib.Algebra.Order.Ring.Nat
import Mathlib.Data.List.Induction
import Mathlib.Tactic.Ring
import Mathlib.Tactic.Linarith
import BucketOverflow.Text.Digits

/-!
Written digits and the numbers they stand for: decimal digits read back, have no zero in front and
bound their number by their length, and hexadecimal digits of a fixed width read back.
-/
namespace BucketOverflow.Text

/-! Single digits -/

theorem isDigit_iff {c : Char} : isDigit c = true ↔ 48 ≤ c.toNat ∧ c.toNat ≤ 57 := by
  simp only [isDigit, Bool.and_eq_true, decide_eq_true_eq]
  rfl

@[simp] theorem hexDigit?_digitChar {d : Nat} (h : d < 16) : hexDigit? (digitChar d) = some d := by
  have all : ∀ d, d < 16 → hexDigit? (digitChar d) = some d := by decide
  exact all d h

theorem hexDigit?_of_isDigit {c : Char} (h : isDigit c = true) :
    hexDigit? c = some (c.toNat - 48) := by
  simp only [isDigit, Bool.and_eq_true, decide_eq_true_eq] at h
  exact if_pos h

@[simp] theorem isDigit_digitChar {d : Nat} (h : d < 10) : isDigit (digitChar d) = true := by
  have all : ∀ d, d < 10 → isDigit (digitChar d) = true := by decide
  exact all d h

theorem toNat_digitChar {d : Nat} (h : d < 10) : (digitChar d).toNat = 48 + d := by
  have all : ∀ d, d < 10 → (digitChar d).toNat = 48 + d := by decide
  exact all d h

theorem digitChar_ne_zero {d : Nat} (h : d < 10) (hd : d ≠ 0) : digitChar d ≠ '0' := by
  intro h0
  have := congrArg Char.toNat h0
  rw [toNat_digitChar h] at this
  exact hd (by simpa using this)

theorem lt_ten_of_isDigit {c : Char} (h : isDigit c = true) : c.toNat - 48 < 10 := by
  have := isDigit_iff.mp h
  omega

/-! Rows of digits -/

theorem ofDigits_append_singleton (b : Nat) (cs : List Char) (c : Char) :
    ofDigits b (cs ++ [c]) = ofDigits b cs * b + (hexDigit? c).getD 0 := by
  simp only [ofDigits, List.foldl_append, List.foldl_cons, List.foldl_nil]

theorem ofDigits_append (b : Nat) (xs ys : List Char) :
    ofDigits b (xs ++ ys) = ofDigits b xs * b ^ ys.length + ofDigits b ys := by
  induction ys using List.reverseRecOn with
  | nil => simp [ofDigits]
  | append_singleton ys c ih =>
    rw [← List.append_assoc, ofDigits_append_singleton, ih, ofDigits_append_singleton,
      List.length_append, List.length_singleton, pow_succ]
    ring

theorem ofDigits_cons (b : Nat) (c : Char) (cs : List Char) :
    ofDigits b (c :: cs) = (hexDigit? c).getD 0 * b ^ cs.length + ofDigits b cs := by
  have := ofDigits_append b [c] cs
  simpa [ofDigits] using this

theorem ofDigits_replicate_zero (b k : Nat) : ofDigits b (List.replicate k '0') = 0 := by
  have hz : (hexDigit? '0').getD 0 = 0 := rfl
  induction k with
  | zero => rfl
  | succ k ih => rw [List.replicate_succ, ofDigits_cons, ih, hz, zero_mul]

/-- Digits stand for less than the next power of ten. -/
theorem ofDigits_lt {cs : List Char} (h : ∀ c ∈ cs, isDigit c = true) :
    ofDigits 10 cs < 10 ^ cs.length := by
  induction cs with
  | nil => simp [ofDigits]
  | cons c cs ih =>
    have hc := h c List.mem_cons_self
    have hcs := ih fun d hd => h d (List.mem_cons_of_mem c hd)
    have hten := lt_ten_of_isDigit hc
    rw [ofDigits_cons, hexDigit?_of_isDigit hc, Option.getD_some, List.length_cons, pow_succ]
    nlinarith [Nat.mul_le_mul_right (10 ^ cs.length) (Nat.le_of_lt_succ hten)]

/-! Decimal digits of a number -/

theorem decimal_of_lt {n : Nat} (h : n < 10) : decimal n = [digitChar n] := by
  rw [decimal, if_pos h]

theorem decimal_of_le {n : Nat} (h : 10 ≤ n) :
    decimal n = decimal (n / 10) ++ [digitChar (n % 10)] := by
  rw [decimal, if_neg (Nat.not_lt.mpr h)]

theorem decimal_ne_nil (n : Nat) : decimal n ≠ [] := by
  fun_induction decimal n <;> simp

theorem isDigit_of_mem_decimal {n : Nat} : ∀ c ∈ decimal n, isDigit c = true := by
  fun_induction decimal n with
  | case1 n h =>
    intro c hc
    rw [List.mem_singleton.mp hc]
    exact isDigit_digitChar h
  | case2 n h ih =>
    intro c hc
    rcases List.mem_append.mp hc with hc | hc
    · exact ih c hc
    · rw [List.mem_singleton.mp hc]
      exact isDigit_digitChar (Nat.mod_lt n (by omega))

theorem isDigit_of_mem_zeros {k : Nat} : ∀ c ∈ List.replicate k '0', isDigit c = true := by
  intro c hc
  rw [List.eq_of_mem_replicate hc]
  rfl

/-- Digits with zeros in front of them are digits. -/
theorem isDigit_of_mem_zeros_decimal {k n : Nat} :
    ∀ c ∈ List.replicate k '0' ++ decimal n, isDigit c = true :=
  List.forall_mem_append.mpr ⟨isDigit_of_mem_zeros, isDigit_of_mem_decimal⟩

theorem isDigit_of_takeWhile {c : Char} {cs : List Char} (h : (c :: cs).takeWhile isDigit = []) :
    isDigit c = false := by
  by_contra hc
  rw [List.takeWhile_cons, if_pos (by simpa using hc)] at h
  cases h

theorem all_isDigit_decimal (n : Nat) : (decimal n).all isDigit = true :=
  List.all_eq_true.mpr isDigit_of_mem_decimal

@[simp] theorem ofDigits_decimal (n : Nat) : ofDigits 10 (decimal n) = n := by
  fun_induction decimal n with
  | case1 n h =>
    rw [ofDigits_cons, hexDigit?_digitChar (by omega)]
    simp [ofDigits]
  | case2 n h ih =>
    rw [ofDigits_append_singleton, ih, hexDigit?_digitChar (by omega), Option.getD_some]
    omega

theorem decimal_injective : Function.Injective decimal := by
  intro m n h
  rw [← ofDigits_decimal m, h, ofDigits_decimal]

/-- A positive number does not begin with a zero. -/
theorem head_decimal {n : Nat} (h : 0 < n) : (decimal n).head? ≠ some '0' := by
  fun_induction decimal n with
  | case1 n hn => simpa using digitChar_ne_zero hn (by omega)
  | case2 n hn ih =>
    rw [List.head?_append, List.head?_eq_some_head (decimal_ne_nil _), Option.some_or,
      ← List.head?_eq_some_head]
    exact ih (by omega)

theorem lt_pow_length_decimal (n : Nat) : n < 10 ^ (decimal n).length := by
  have := ofDigits_lt (isDigit_of_mem_decimal (n := n))
  rwa [ofDigits_decimal] at this

theorem length_decimal_pos (n : Nat) : 0 < (decimal n).length :=
  List.length_pos_iff.mpr (decimal_ne_nil n)

theorem pow_le_of_length_decimal {n : Nat} (h : 0 < n) : 10 ^ ((decimal n).length - 1) ≤ n := by
  fun_induction decimal n with
  | case1 n hn =>
    rw [List.length_singleton, Nat.sub_self, pow_zero]
    exact h
  | case2 n hn ih =>
    have hpos := length_decimal_pos (n / 10)
    have hle := ih (by omega)
    have hsucc : (decimal (n / 10)).length = (decimal (n / 10)).length - 1 + 1 := by omega
    rw [List.length_append, List.length_singleton, Nat.add_sub_cancel, hsucc, pow_succ]
    omega

theorem length_decimal_le {n k : Nat} (hk : 0 < k) (h : n < 10 ^ k) :
    (decimal n).length ≤ k := by
  rcases Nat.eq_zero_or_pos n with rfl | hn
  · rw [decimal_of_lt (by omega), List.length_singleton]
    exact hk
  · have := (Nat.pow_lt_pow_iff_right (by omega : 1 < 10)).mp
      ((pow_le_of_length_decimal hn).trans_lt h)
    omega

/-- The width of a number between two powers of ten. -/
theorem length_decimal_eq {n k : Nat} (hlow : 10 ^ k ≤ n) (hhigh : n < 10 ^ (k + 1)) :
    (decimal n).length = k + 1 := by
  refine le_antisymm (length_decimal_le k.succ_pos hhigh) ?_
  exact (Nat.pow_lt_pow_iff_right (by omega : 1 < 10)).mp (hlow.trans_lt (lt_pow_length_decimal n))

/-- A factor of ten is one more zero behind the digits. -/
theorem decimal_mul_ten {n : Nat} (h : 0 < n) : decimal (n * 10) = decimal n ++ ['0'] := by
  rw [decimal_of_le (by omega), Nat.mul_div_cancel n (by omega), Nat.mul_mod_left]
  rfl

@[simp] theorem ofDigits_decimalPad (w n : Nat) : ofDigits 10 (decimalPad w n) = n := by
  rw [decimalPad, padLeft, ofDigits_append, ofDigits_replicate_zero, zero_mul, zero_add,
    ofDigits_decimal]

theorem decimalPad_injective (w : Nat) : Function.Injective (decimalPad w) := by
  intro m n h
  rw [← ofDigits_decimalPad w m, h, ofDigits_decimalPad]

/-! The order of rows of digits -/

/-- The multiple of a power decides, and of equal multiples the rest. -/
theorem mul_add_lt_mul_add_iff {a b p u v : Nat} (hu : u < p) (hv : v < p) :
    a * p + u < b * p + v ↔ a < b ∨ a = b ∧ u < v := by
  have hstep {a b : Nat} (h : a < b) : a * p + p ≤ b * p :=
    (Nat.succ_mul a p).symm.trans_le (Nat.mul_le_mul_right p h)
  rcases lt_trichotomy a b with h | rfl | h
  · have := hstep h
    omega
  · omega
  · have := hstep h
    omega

/-- Rows of digits of one length come in the order of the numbers that they stand for. -/
theorem lt_iff_ofDigits_lt {xs ys : List Char} (hx : ∀ c ∈ xs, isDigit c = true)
    (hy : ∀ c ∈ ys, isDigit c = true) (hlen : xs.length = ys.length) :
    xs < ys ↔ ofDigits 10 xs < ofDigits 10 ys := by
  induction xs generalizing ys with
  | nil =>
    rw [List.length_nil, eq_comm, List.length_eq_zero_iff] at hlen
    simp [hlen]
  | cons c xs ih =>
    cases ys with
    | nil => cases hlen
    | cons d ys =>
      rw [List.forall_mem_cons] at hx hy
      have htail : xs.length = ys.length := Nat.succ.inj hlen
      have hc := isDigit_iff.mp hx.1
      have hd := isDigit_iff.mp hy.1
      have hlt : c < d ↔ c.toNat - 48 < d.toNat - 48 := by
        rw [Char.lt_def, UInt32.lt_iff_toNat_lt]
        change c.toNat < d.toNat ↔ _
        omega
      have heq : c = d ↔ c.toNat - 48 = d.toNat - 48 := by
        rw [← Char.toNat_inj]
        omega
      rw [List.cons_lt_cons_iff, ih hx.2 hy.2 htail, hlt, heq, ofDigits_cons, ofDigits_cons,
        hexDigit?_of_isDigit hx.1, hexDigit?_of_isDigit hy.1, Option.getD_some, Option.getD_some,
        htail, mul_add_lt_mul_add_iff (htail ▸ ofDigits_lt hx.2) (ofDigits_lt hy.2)]

theorem length_decimalPad {w n : Nat} (hw : 0 < w) (h : n < 10 ^ w) :
    (decimalPad w n).length = w := by
  have := length_decimal_le hw h
  rw [decimalPad, padLeft, List.length_append, List.length_replicate]
  omega

/-- With zeros in front numbers come in their order as texts. -/
theorem decimalPad_lt_iff {w m n : Nat} (hw : 0 < w) (hm : m < 10 ^ w) (hn : n < 10 ^ w) :
    decimalPad w m < decimalPad w n ↔ m < n := by
  have hlen : (decimalPad w m).length = (decimalPad w n).length := by
    rw [length_decimalPad hw hm, length_decimalPad hw hn]
  have hdigits (k : Nat) : ∀ c ∈ decimalPad w k, isDigit c = true := isDigit_of_mem_zeros_decimal
  rw [lt_iff_ofDigits_lt (hdigits m) (hdigits n) hlen, ofDigits_decimalPad, ofDigits_decimalPad]

/-! Rows of numbers -/

/-- Of two rows that begin with parts of one length these parts decide, and if they are the same
what follows them. -/
theorem append_lt_append_iff {α : Type*} [LT α] {xs ys us vs : List α}
    (hlen : xs.length = ys.length) : xs ++ us < ys ++ vs ↔ xs < ys ∨ xs = ys ∧ us < vs := by
  induction xs generalizing ys with
  | nil =>
    rw [List.length_nil, eq_comm, List.length_eq_zero_iff] at hlen
    simp [hlen]
  | cons x xs ih =>
    cases ys with
    | nil => cases hlen
    | cons y ys =>
      simp only [List.cons_append, List.cons_lt_cons_iff, ih (Nat.succ.inj hlen), List.cons.injEq]
      tauto

/-- Numbers of fixed widths, each with its mark behind it. -/
def marked : List (ℕ × Char) → List ℕ → List Char
  | (w, c) :: marks, n :: ns => decimalPad w n ++ c :: marked marks ns
  | _, _ => []

/-- Numbers that their widths hold. -/
def FitWidths (marks : List (ℕ × Char)) (ns : List ℕ) : Prop :=
  List.Forall₂ (fun m n => 0 < m.1 ∧ n < 10 ^ m.1) marks ns

variable {marks : List (ℕ × Char)} {ms ns : List ℕ}

theorem length_marked (h : FitWidths marks ns) :
    (marked marks ns).length = (marks.map (·.1 + 1)).sum := by
  induction h with
  | nil => rfl
  | @cons m n marks ns hn _ ih =>
    rw [marked, List.length_append, length_decimalPad hn.1 hn.2, List.length_cons, ih,
      List.map_cons, List.sum_cons]
    omega

/-- Rows with one choice of widths and marks come in the order of their numbers. -/
theorem marked_lt_iff (hm : FitWidths marks ms) (hn : FitWidths marks ns) :
    marked marks ms < marked marks ns ↔ ms < ns := by
  induction hm generalizing ns with
  | nil =>
    cases hn
    simp [marked]
  | @cons k m marks ms hm _ ih =>
    cases hn with
    | @cons _ n _ ns hn hns =>
      have hlen : (decimalPad k.1 m).length = (decimalPad k.1 n).length := by
        rw [length_decimalPad hm.1 hm.2, length_decimalPad hn.1 hn.2]
      rw [marked, marked, append_lt_append_iff hlen, List.cons_lt_cons_self, ih hns,
        decimalPad_lt_iff hm.1 hm.2 hn.2, (decimalPad_injective k.1).eq_iff,
        List.cons_lt_cons_iff]

/-! Reading digits -/

theorem readDigits_append (b limit n : Nat) (xs ys : List Char) :
    readDigits b limit n (xs ++ ys) =
      (readDigits b limit n xs).bind fun m => readDigits b limit m ys := by
  induction xs generalizing n with
  | nil => rfl
  | cons x xs ih =>
    simp only [List.cons_append, readDigits]
    cases digit? b x with
    | none => rfl
    | some d =>
      dsimp only
      split
      · rfl
      · exact ih _

theorem readDigits_digitChar {b limit n d : Nat} (hb : b ≤ 16) (hd : d < b)
    (h : n * b + d < limit) : readDigits b limit n [digitChar d] = .ok (n * b + d) := by
  simp only [readDigits, digit?, hexDigit?_digitChar (hd.trans_le hb),
    Option.filter_some, decide_eq_true hd, if_true, if_neg (Nat.not_le.mpr h)]

/-- Hexadecimal digits of a fixed width read back below the limit. -/
theorem readDigits_hexFixed {limit w n : Nat} (hn : n < 16 ^ w) (h : n < limit) :
    readDigits 16 limit 0 (hexFixed w n) = .ok n := by
  induction w generalizing n with
  | zero =>
    have : n = 0 := by simpa using hn
    rw [this]
    rfl
  | succ w ih =>
    have hq : n / 16 < 16 ^ w := by rw [pow_succ] at hn; omega
    rw [hexFixed, readDigits_append, ih hq (by omega)]
    have hd : n / 16 * 16 + n % 16 = n := by omega
    have := readDigits_digitChar (b := 16) le_rfl (Nat.mod_lt n (by omega)) (hd ▸ h)
    rwa [hd] at this

theorem length_hexFixed (w n : Nat) : (hexFixed w n).length = w := by
  induction w generalizing n with
  | zero => rfl
  | succ w ih => simp [hexFixed, ih]

theorem hexFixed_ne_plus {w n : Nat} {cs : List Char} : hexFixed w n ≠ '+' :: cs := by
  have all : ∀ d, d < 16 → digitChar d ≠ '+' := by decide
  induction w generalizing n cs with
  | zero => simp [hexFixed]
  | succ w ih =>
    intro h
    rw [hexFixed] at h
    cases hw : hexFixed w (n / 16) with
    | nil =>
      rw [hw] at h
      exact all _ (Nat.mod_lt n (by omega)) (List.cons.inj h).1
    | cons c rest =>
      rw [hw] at h
      exact ih (hw.trans (by rw [(List.cons.inj h).1]))

theorem readUnsigned_hexFixed {limit w n : Nat} (hw : 0 < w) (hn : n < 16 ^ w) (h : n < limit) :
    readUnsigned 16 limit (hexFixed w n) = .ok n := by
  rw [readUnsigned]
  · exact readDigits_hexFixed hn h
  · intro h0
    have := congrArg List.length h0
    rw [length_hexFixed] at this
    exact absurd this (by simp; omega)
  · exact hexFixed_ne_plus
  · exact fun cs => hexFixed_ne_plus

end BucketOverflow.Text
