import BucketOverflow.Json.Reader
import BucketOverflow.Proofs.Text.Digits

/-! Quoted strings read back: reading undoes the escape of every character. -/
namespace BucketOverflow.Json
open Text

/-- A control character behind its four digits. -/
theorem hex4_hexFixed {n : ℕ} (h : n < 256) (rest : List Char) :
    hex4 ('0' :: '0' :: (hexFixed 2 n ++ rest)) = .ok (n, rest) := by
  have hpair : hexFixed 2 n = [digitChar (n / 16 % 16), digitChar (n % 16)] := rfl
  have hzero : hexDigit? '0' = some 0 := rfl
  rw [hpair]
  simp only [List.cons_append, List.nil_append, hex4, hzero,
    hexDigit?_digitChar (Nat.mod_lt _ (show 0 < 16 by omega))]
  congr 2
  omega

/-- One turn of the reader takes what stands for one character. -/
theorem stringChars_escape (c b : Char) (bound acc rest : List Char) :
    stringChars (b :: bound) acc (escape c ++ rest) = stringChars bound (c :: acc) rest := by
  unfold escape
  split_ifs with h1 h2 h3 h4 h5 h6 h7 h8
  · rw [h1]
    rfl
  · rw [h2]
    rfl
  · rw [h3]
    rfl
  · rw [h4]
    rfl
  · rw [h5]
    rfl
  · rw [h6]
    rfl
  · rw [h7]
    rfl
  · have hread := hex4_hexFixed (n := c.toNat) (by omega) rest
    have hlow : (decide (0xdc00 ≤ c.toNat) && decide (c.toNat ≤ 0xdfff)) = false := by
      rw [decide_eq_false (by omega), Bool.false_and]
    have hhigh : (decide (0xd800 ≤ c.toNat) && decide (c.toNat ≤ 0xdbff)) = false := by
      rw [decide_eq_false (by omega), Bool.false_and]
    have hesc : escaped ('u' :: '0' :: '0' :: (hexFixed 2 c.toNat ++ rest)) = .ok (c, rest) := by
      simp only [escaped, hread, hlow, hhigh, Bool.false_eq_true, if_false, Char.ofNat_toNat]
    simp only [List.cons_append, List.nil_append, stringChars, hesc]
  · rw [List.singleton_append, stringChars]
    · rw [if_neg h8]
    all_goals simp_all

theorem length_le_escape (chars : List Char) :
    chars.length ≤ (chars.flatMap escape).length := by
  have hpos (c : Char) : 1 ≤ (escape c).length := by
    unfold escape
    split_ifs <;> simp
  induction chars with
  | nil => simp
  | cons c cs ih =>
    have := hpos c
    rw [List.flatMap_cons, List.length_append, List.length_cons]
    omega

theorem stringChars_flatMap_escape (chars : List Char) {bound : List Char}
    (h : chars.length ≤ bound.length) (acc rest : List Char) :
    stringChars bound acc (chars.flatMap escape ++ '"' :: rest) =
      .ok (String.ofList (acc.reverse ++ chars), rest) := by
  induction chars generalizing bound acc with
  | nil => rw [List.flatMap_nil, List.nil_append, stringChars, List.append_nil]
  | cons c cs ih =>
    cases bound with
    | nil => simp at h
    | cons b bound =>
      rw [List.flatMap_cons, List.append_assoc, stringChars_escape, ih (by simpa using h),
        List.reverse_cons, List.append_assoc, List.singleton_append]

/-- A quoted string reads as the string, whatever its characters. -/
theorem stringBody_escape (s : String) (rest : List Char) :
    stringBody (s.toList.flatMap escape ++ '"' :: rest) = .ok (s, rest) := by
  have hlen : s.toList.length ≤ (s.toList.flatMap escape ++ '"' :: rest).length := by
    have := length_le_escape s.toList
    rw [List.length_append]
    omega
  rw [stringBody, stringChars_flatMap_escape s.toList hlen, List.reverse_nil, List.nil_append,
    String.ofList_toList]

theorem quote_append (s : String) (rest : List Char) :
    quote s ++ rest = '"' :: (s.toList.flatMap escape ++ '"' :: rest) := by
  simp [quote]

end BucketOverflow.Json
