import BucketOverflow.Json.Record
import BucketOverflow.Proofs.Json.Layout
import BucketOverflow.Proofs.Json.Numbers
import BucketOverflow.Proofs.Json.Strings

/-! Typed readers on laid out values. A reader that takes every layout of a value to a result, and
leaves what follows alone, lifts through lists and records. -/
namespace BucketOverflow.Json
open Text Binary64

/-- A reader takes every layout of `j` to `a`, whatever stands around it. -/
def Reads {α : Type} (reader : Reader α) (j : Json) (a : α) : Prop :=
  ∀ b cs rest, Blank b → Written j cs → Stops rest → reader (b ++ (cs ++ rest)) = .ok (a, rest)

variable {α β σ : Type} {reader item : Reader α} {j : Json} {a : α} {b cs rest : List Char}

/-! What may follow a value -/

theorem stops_cons {c : Char} (hd : isDigit c = false) (hdot : c ≠ '.') (he : c ≠ 'e')
    (hE : c ≠ 'E') (cs : List Char) : Stops (c :: cs) := by
  intro d hd'
  obtain rfl : c = d := by simpa using hd'
  exact ⟨hd, hdot, he, hE⟩

theorem stops_of_isSpace {c : Char} (hc : isSpace c = true) (cs : List Char) : Stops (c :: cs) := by
  simp only [isSpace, Bool.or_eq_true, beq_iff_eq] at hc
  rcases hc with ((rfl | rfl) | rfl) | rfl <;> exact stops_cons rfl (by decide) (by decide)
    (by decide) cs

theorem Blank.stops (hb : Blank b) (h : Stops rest) : Stops (b ++ rest) := by
  cases b with
  | nil => exact h
  | cons c cs => exact stops_of_isSpace (hb c List.mem_cons_self) _

theorem stops_comma (cs : List Char) : Stops (',' :: cs) :=
  stops_cons rfl (by decide) (by decide) (by decide) cs

theorem stops_bracket (cs : List Char) : Stops (']' :: cs) :=
  stops_cons rfl (by decide) (by decide) (by decide) cs

theorem stops_brace (cs : List Char) : Stops ('}' :: cs) :=
  stops_cons rfl (by decide) (by decide) (by decide) cs

/-! How a value begins -/

theorem isSpace_of_isDigit {c : Char} (hc : isDigit c = true) : isSpace c = false := by
  have h := isDigit_iff.mp hc
  by_contra hs
  simp only [isSpace, Bool.not_eq_false, Bool.or_eq_true, beq_iff_eq] at hs
  rcases hs with ((rfl | rfl) | rfl) | rfl <;> exact absurd hc (by decide)

/-- A value begins with a character that is neither blank nor a closing bracket. -/
structure Opens (c : Char) : Prop where
  not_space : isSpace c = false
  not_bracket : c ≠ ']'
  not_brace : c ≠ '}'

theorem opens_of_isDigit {c : Char} (hc : isDigit c = true) : Opens c := by
  refine ⟨isSpace_of_isDigit hc, ?_, ?_⟩ <;> rintro rfl <;> exact absurd hc (by decide)

theorem opens_minus : Opens '-' := ⟨rfl, by decide, by decide⟩

theorem decimalText_cons (d : Decimal) : ∃ c cs, decimalText d = c :: cs ∧ isDigit c = true := by
  obtain ⟨c, cs, hcs, hc⟩ := decimal_cons d.digits
  unfold decimalText positional
  rw [hcs]
  dsimp only
  split_ifs
  · exact ⟨c, _, rfl, hc⟩
  · exact ⟨c, _, rfl, hc⟩
  · exact ⟨'0', _, rfl, rfl⟩
  · rw [exponential, hcs]
    cases cs with
    | nil => exact ⟨c, _, rfl, hc⟩
    | cons d cs => exact ⟨c, _, rfl, hc⟩

theorem magnitudeText_cons (x : Binary64) :
    ∃ c cs, magnitudeText x = c :: cs ∧ isDigit c = true := by
  unfold magnitudeText
  split_ifs
  · exact ⟨'0', ['.', '0'], rfl, rfl⟩
  · exact decimalText_cons _

theorem Written.opens (h : Written j cs) : ∃ c tail, cs = c :: tail ∧ Opens c := by
  cases h with
  | null => exact ⟨'n', _, rfl, rfl, by decide, by decide⟩
  | bool b =>
    cases b with
    | false => exact ⟨'f', _, rfl, rfl, by decide, by decide⟩
    | true => exact ⟨'t', _, rfl, rfl, by decide, by decide⟩
  | int n =>
    obtain ⟨c, cs, hcs, hc⟩ := decimal_cons n.natAbs
    unfold signedDecimal
    split_ifs
    · exact ⟨'-', _, rfl, opens_minus⟩
    · exact ⟨c, cs, hcs, opens_of_isDigit hc⟩
  | float x =>
    obtain ⟨c, cs, hcs, hc⟩ := magnitudeText_cons x
    cases hx : x.isFinite with
    | false =>
      refine ⟨'n', ['u', 'l', 'l'], ?_, rfl, by decide, by decide⟩
      rw [number, hx]
      rfl
    | true =>
      rw [number_eq hx, hcs]
      split_ifs
      · exact ⟨'-', _, rfl, opens_minus⟩
      · exact ⟨c, cs, rfl, opens_of_isDigit hc⟩
  | str s => exact ⟨'"', _, rfl, rfl, by decide, by decide⟩
  | emptyArr hb => exact ⟨'[', _, rfl, rfl, by decide, by decide⟩
  | arr h => exact ⟨'[', _, rfl, rfl, by decide, by decide⟩
  | emptyObj hb => exact ⟨'{', _, rfl, rfl, by decide, by decide⟩
  | obj h => exact ⟨'{', _, rfl, rfl, by decide, by decide⟩

/-! Plain values -/

/-- A text that begins with a digit reads as a number. -/
theorem anyNumber_of_digit (expected : String) (hb : Blank b) {c : Char} (hc : isDigit c = true)
    (cs : List Char) : anyNumber expected (b ++ c :: cs) = number? false (c :: cs) := by
  unfold anyNumber
  rw [skipSpace_blank hb (isSpace_of_isDigit hc)]
  split
  · rename_i heq
    rw [(List.cons.inj heq).1] at hc
    exact absurd hc (by decide)
  · rename_i heq
    obtain ⟨rfl, rfl⟩ := List.cons.inj heq
    rw [if_pos hc]
  · rename_i heq
    cases heq

/-- A natural number within its limit. -/
theorem reads_unsigned {limit n : ℕ} (expected : String) (hn : n < limit)
    (hlim : n < significandLimit) : Reads (unsigned limit expected) (.ofNat n) n := by
  intro b cs rest hb hw hr
  obtain rfl : cs = decimal n := by
    cases hw
    simp [signedDecimal]
  obtain ⟨c, tail, hcs, hc⟩ := decimal_cons n
  have hread : number? false (decimal n ++ rest) = .ok (.int n, rest) :=
    number?_decimal false hlim hr
  have hany : anyNumber expected (b ++ (decimal n ++ rest)) = .ok (.int n, rest) := by
    rw [hcs, List.cons_append] at hread ⊢
    rw [anyNumber_of_digit expected hb hc, hread]
  have hrange : (0 : ℤ) ≤ n ∧ (n : ℤ) < limit := ⟨by omega, by omega⟩
  unfold unsigned
  rw [hany]
  simp only [bind, Except.bind, hrange, and_self, if_true]
  rfl

theorem reads_natural64 {n : ℕ} (h : n < 0x10000000000000000) : Reads natural64 (.ofNat n) n :=
  reads_unsigned "u64" h h

theorem reads_natural32 {n : ℕ} (h : n < 0x100000000) : Reads natural32 (.ofNat n) n :=
  reads_unsigned "u32" h (h.trans (by decide))

theorem reads_text (s : String) : Reads text (.str s) s := by
  intro b cs rest hb hw _
  obtain rfl : cs = quote s := by
    cases hw
    rfl
  unfold text
  rw [quote_append, skipSpace_blank hb rfl]
  exact stringBody_escape s rest

/-- The name of a variant. -/
theorem reads_variant {known : List (String × α)} {name : String} (h : known.lookup name = some a) :
    Reads (variant known) (.str name) a := by
  intro b cs rest hb hw _
  obtain rfl : cs = quote name := by
    cases hw
    rfl
  unfold variant
  rw [quote_append, skipSpace_blank hb rfl]
  simp only [stringBody_escape, bind, Except.bind, namedAt, named, h]

theorem eq_number {x : Binary64} (hx : x.isFinite = true) (hw : Written (.ofBinary64 x) cs) :
    cs = number x := by
  rw [ofBinary64, hx, if_pos rfl] at hw
  cases hw
  rfl

/-- A moderate float reads as a number, the same one in every layout. -/
theorem reads_binary64 {x : Binary64} (hx : Moderate x) :
    Reads binary64 (.ofBinary64 x) (reread x) := by
  obtain ⟨c, tail, hcs, hc⟩ := magnitudeText_cons x
  intro b cs rest hb hw hr
  obtain rfl := eq_number hx.finite hw
  have hany : anyNumber "f64" (b ++ (number x ++ rest)) = .ok (.float (reread x), rest) := by
    have hread := number?_reread hx hr
    rw [number_eq hx.finite]
    cases hneg : x.isNeg with
    | true =>
      rw [hneg] at hread
      unfold anyNumber
      rw [if_pos rfl, List.singleton_append, List.cons_append, skipSpace_blank hb rfl]
      exact hread
    | false =>
      rw [hneg, hcs, List.cons_append] at hread
      rw [if_neg Bool.false_ne_true, List.nil_append, hcs, List.cons_append,
        anyNumber_of_digit "f64" hb hc, hread]
  unfold binary64
  rw [hany]
  rfl

/-! Lists -/

theorem length_skipSpace_le (cs : List Char) : (skipSpace cs).length ≤ cs.length :=
  (List.dropWhile_sublist isSpace).length_le

/-- A layout after its blanks. -/
theorem Written.skipSpace_append (hw : Written j cs) (hb : Blank b) (rest : List Char) :
    skipSpace (b ++ (cs ++ rest)) = cs ++ rest := by
  obtain ⟨c, tail, rfl, hc⟩ := hw.opens
  rw [List.cons_append, skipSpace_blank hb hc.not_space]

/-- The text of a finite word begins with a sign or a digit. -/
theorem number_cons {x : Binary64} (hx : x.isFinite = true) :
    ∃ c cs, number x = c :: cs ∧ c ≠ 'n' := by
  obtain ⟨c, cs, hcs, hc⟩ := magnitudeText_cons x
  rw [number_eq hx]
  split_ifs
  · exact ⟨'-', _, rfl, by decide⟩
  · refine ⟨c, cs, hcs, ?_⟩
    rintro rfl
    exact absurd hc (by decide)

/-- A float that may be missing, with null in its place. -/
theorem reads_optional {x : Option Binary64} (h : ∀ y ∈ x, Moderate y) :
    Reads (optional binary64) ((x.map .ofBinary64).getD .null) (x.map reread) := by
  intro b cs rest hb hw hr
  unfold optional
  rw [hw.skipSpace_append hb]
  cases x with
  | none =>
    cases hw
    rfl
  | some y =>
    have hread := reads_binary64 (h y rfl) [] cs rest blank_nil hw hr
    obtain rfl := eq_number (h y rfl).finite hw
    obtain ⟨c, tail, hcs, hc⟩ := number_cons (h y rfl).finite
    rw [List.nil_append] at hread
    rw [hcs, List.cons_append] at hread ⊢
    split
    · rename_i heq
      exact absurd (List.cons.inj heq).1 hc
    · rw [hread]
      rfl

theorem Written.length_pos (hw : Written j cs) : 0 < cs.length := by
  obtain ⟨c, tail, rfl, -⟩ := hw.opens
  exact Nat.succ_pos _

/-- Items, one character or more for each, bound the turns that are needed. -/
theorem WrittenItems.length_le {js : List Json} (h : WrittenItems js cs) (rest : List Char) :
    js.length ≤ (skipSpace (cs ++ rest)).length := by
  induction js generalizing cs with
  | nil => cases h
  | cons j js ih =>
    cases h with
    | last hb hw hb' =>
      have := hw.length_pos
      rw [List.append_assoc, List.append_assoc, hw.skipSpace_append hb]
      simp only [List.length_cons, List.length_nil, List.length_append]
      omega
    | cons hb hw hb' hrest =>
      have := hw.length_pos
      have := (ih hrest).trans (length_skipSpace_le _)
      rw [List.append_assoc, List.append_assoc, hw.skipSpace_append hb]
      simp only [List.length_cons, List.length_append] at *
      omega

/-- Items begin with a value. -/
theorem WrittenItems.opens {js : List Json} (h : WrittenItems js cs) (rest : List Char) :
    ∃ c tail, skipSpace (cs ++ rest) = c :: tail ∧ Opens c := by
  cases h with
  | @last j b cs b' hb hw hb' =>
    obtain ⟨c, tail, rfl, hc⟩ := hw.opens
    refine ⟨c, tail ++ (b' ++ [']'] ++ rest), ?_, hc⟩
    rw [List.append_assoc, List.append_assoc, hw.skipSpace_append hb, List.cons_append]
  | @cons j js b cs b' rest' hb hw hb' hrest =>
    obtain ⟨c, tail, rfl, hc⟩ := hw.opens
    refine ⟨c, tail ++ (b' ++ ',' :: rest' ++ rest), ?_, hc⟩
    rw [List.append_assoc, List.append_assoc, hw.skipSpace_append hb, List.cons_append]

/-- One turn over an item and the comma behind it. -/
theorem itemsFrom_cons {x : Char} {bound : List Char} {acc : List α} {b' : List Char}
    (hitem : item cs = .ok (a, b' ++ ',' :: rest)) (hb' : Blank b') {c : Char} {tail : List Char}
    (hrest : skipSpace rest = c :: tail) (hc : Opens c) :
    itemsFrom item (x :: bound) acc cs = itemsFrom item bound (a :: acc) (skipSpace rest) := by
  simp only [itemsFrom, hitem, skipSpace_blank hb' (show isSpace ',' = false from rfl)]
  rw [hrest]
  split
  · rename_i heq
    exact absurd (List.cons.inj heq).1 hc.not_bracket
  · rename_i heq
    cases heq
  · rfl

theorem itemsFrom_written {js : List Json} {as : List α} (h : List.Forall₂ (Reads item) js as)
    (hw : WrittenItems js cs) {bound : List Char} (hb : js.length ≤ bound.length) (acc : List α)
    (rest : List Char) :
    itemsFrom item bound acc (skipSpace (cs ++ rest)) = .ok (acc.reverse ++ as, rest) := by
  induction h generalizing cs bound acc with
  | nil => cases hw
  | @cons j a js as hj htail ih =>
    obtain ⟨x, bound, rfl⟩ : ∃ x xs, bound = x :: xs := by
      cases bound with
      | nil => simp at hb
      | cons x xs => exact ⟨x, xs, rfl⟩
    cases hw with
    | last hb₀ hw hb' =>
      cases htail
      rw [List.append_assoc, List.append_assoc, hw.skipSpace_append hb₀, List.append_assoc,
        List.singleton_append]
      have hitem := hj [] _ _ blank_nil hw (hb'.stops (stops_bracket rest))
      rw [List.nil_append] at hitem
      rw [itemsFrom, hitem]
      dsimp only
      rw [skipSpace_blank hb' rfl]
      simp
    | @cons _ _ _ _ _ rest' hb₀ hw hb' hrest =>
      obtain ⟨c, tail, hopen, hc⟩ := hrest.opens rest
      rw [List.append_assoc, List.append_assoc, hw.skipSpace_append hb₀, List.append_assoc,
        List.cons_append]
      have hitem := hj [] _ _ blank_nil hw (hb'.stops (stops_comma (rest' ++ rest)))
      rw [List.nil_append] at hitem
      rw [itemsFrom_cons hitem hb' hopen hc, ih hrest (by simpa using hb)]
      simp

/-- The items of a laid out array, behind its opening bracket. -/
theorem items_written {js : List Json} {as : List α} (h : List.Forall₂ (Reads item) js as)
    (hw : Written (.arr js) cs) :
    ∃ tail, cs = '[' :: tail ∧ ∀ rest, items item (tail ++ rest) = .ok (as, rest) := by
  have hclose : isSpace ']' = false := rfl
  cases hw with
  | emptyArr hb =>
    cases h
    refine ⟨_, rfl, fun rest => ?_⟩
    simp only [items, List.append_assoc, List.cons_append, List.nil_append,
      skipSpace_blank hb hclose]
  | arr hitems =>
    refine ⟨_, rfl, fun rest => ?_⟩
    obtain ⟨c, tail, hfirst, hc⟩ := hitems.opens rest
    have hread := itemsFrom_written h hitems (hitems.length_le rest) [] rest
    unfold items
    rw [hfirst] at hread ⊢
    split
    · rename_i heq
      cases heq
    · rename_i heq
      exact absurd (List.cons.inj heq).1 hc.not_bracket
    · exact hread

/-- Reading lifts to lists. -/
theorem reads_list {js : List Json} {as : List α} (h : List.Forall₂ (Reads item) js as) :
    Reads (list item) (.arr js) as := by
  intro b cs rest hb hw _
  have hopen : isSpace '[' = false := rfl
  obtain ⟨tail, rfl, hread⟩ := items_written h hw
  simp only [list, List.cons_append, skipSpace_blank hb hopen, hread]

/-- Reading lifts to lists written item by item. -/
theorem reads_list_map {xs : List β} {f : β → Json} {g : β → α}
    (h : ∀ x ∈ xs, Reads item (f x) (g x)) : Reads (list item) (.arr (xs.map f)) (xs.map g) := by
  apply reads_list
  simpa only [List.forall₂_map_left_iff, List.forall₂_map_right_iff, List.forall₂_same] using h

end BucketOverflow.Json
