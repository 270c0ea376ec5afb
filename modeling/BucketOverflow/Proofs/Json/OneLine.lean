import BucketOverflow.Proofs.Json.Numbers
import BucketOverflow.Proofs.Text.Lines

/-! The compact text of an object is one line. No token holds a line feed or a carriage return, a
string least of all, whose control characters are escaped. -/
namespace BucketOverflow.Json
open Text

variable {c : Char} {cs ds : List Char}

/-- A text without line feeds and carriage returns. -/
def OneLine (cs : List Char) : Prop := ∀ c ∈ cs, c ≠ '\n' ∧ c ≠ '\r'

theorem OneLine.append (hc : OneLine cs) (hd : OneLine ds) : OneLine (cs ++ ds) :=
  List.forall_mem_append.mpr ⟨hc, hd⟩

theorem OneLine.cons (hc : c ≠ '\n' ∧ c ≠ '\r') (hd : OneLine cs) : OneLine (c :: cs) :=
  List.forall_mem_cons.mpr ⟨hc, hd⟩

theorem OneLine.sublist (hc : OneLine cs) (h : ds.Sublist cs) : OneLine ds :=
  fun c hd => hc c (h.mem hd)

theorem oneLine_nil : OneLine [] := by simp [OneLine]

theorem oneLine_of_isDigit (h : ∀ c ∈ cs, isDigit c = true) : OneLine cs := by
  intro c hc
  constructor
  · rintro rfl
    exact absurd (h _ hc) (by decide)
  · rintro rfl
    exact absurd (h _ hc) (by decide)

theorem oneLine_decimal (n : ℕ) : OneLine (decimal n) := oneLine_of_isDigit isDigit_of_mem_decimal

theorem oneLine_zeros (k : ℕ) : OneLine (List.replicate k '0') :=
  oneLine_of_isDigit isDigit_of_mem_zeros

theorem oneLine_hexFixed (w n : ℕ) : OneLine (hexFixed w n) := by
  induction w generalizing n with
  | zero => exact oneLine_nil
  | succ w ih =>
    have hdigit := hexDigit?_digitChar (Nat.mod_lt n (show 0 < 16 by omega))
    refine (ih _).append (.cons ⟨?_, ?_⟩ oneLine_nil)
    · intro hc
      rw [hc] at hdigit
      cases hdigit
    · intro hc
      rw [hc] at hdigit
      cases hdigit

theorem oneLine_escape (c : Char) : OneLine (escape c) := by
  have hhex := oneLine_hexFixed 2 c.toNat
  unfold escape
  split_ifs <;> simp_all [OneLine]

theorem oneLine_quote (s : String) : OneLine (quote s) := by
  refine .cons (by decide) (.append ?_ (by simp [OneLine]))
  intro c hc
  obtain ⟨d, -, hd⟩ := List.mem_flatMap.mp hc
  exact oneLine_escape d c hd

theorem oneLine_positional (d : Decimal) : OneLine (positional d) := by
  have hdigits := oneLine_decimal d.digits
  unfold positional
  dsimp only
  split_ifs
  · exact (hdigits.append (oneLine_zeros _)).append (by simp [OneLine])
  · exact (hdigits.sublist (List.take_sublist _ _)).append
      (.cons (by decide) (hdigits.sublist (List.drop_sublist _ _)))
  · exact (OneLine.append (by simp [OneLine]) (oneLine_zeros _)).append hdigits

theorem OneLine.pointed (h : OneLine cs) : OneLine (Decimal.pointed cs) := by
  cases cs with
  | nil => exact h
  | cons c cs =>
    cases cs with
    | nil => exact h
    | cons d cs =>
      obtain ⟨hc, hrest⟩ := List.forall_mem_cons.mp h
      exact .cons hc (.cons (by decide) hrest)

theorem oneLine_exponential (d : Decimal) : OneLine (exponential d) := by
  have hdigits := oneLine_decimal d.leadingExp.natAbs
  unfold exponential
  refine (oneLine_decimal d.digits).pointed.append (.cons (by decide) (.cons ?_ hdigits))
  split_ifs <;> decide

theorem oneLine_magnitudeText (x : Binary64) : OneLine (magnitudeText x) := by
  unfold magnitudeText decimalText
  split_ifs
  · simp [OneLine]
  · exact oneLine_positional _
  · exact oneLine_exponential _

theorem oneLine_number (x : Binary64) : OneLine (number x) := by
  cases hx : x.isFinite with
  | false => simp [number, hx, OneLine]
  | true =>
    rw [number_eq hx]
    refine .append ?_ (oneLine_magnitudeText x)
    split_ifs <;> simp [OneLine]

theorem oneLine_signedDecimal (n : ℤ) : OneLine (signedDecimal n) := by
  unfold signedDecimal
  split_ifs
  · exact .cons (by decide) (oneLine_decimal _)
  · exact oneLine_decimal _

mutual

theorem oneLine_compact : (j : Json) → OneLine (compact j)
  | .null => by simp [compact, OneLine]
  | .bool b => by cases b <;> simp [compact, OneLine]
  | .int n => oneLine_signedDecimal n
  | .float x => oneLine_number x
  | .str s => oneLine_quote s
  | .arr items => .cons (by decide) (oneLine_compactItems items)
  | .obj fields => .cons (by decide) (oneLine_compactFields fields)

theorem oneLine_compactItems : (items : List Json) → OneLine (compactItems items)
  | [] => by simp [compactItems, OneLine]
  | [j] => (oneLine_compact j).append (by simp [OneLine])
  | j :: k :: items =>
    (oneLine_compact j).append (.cons (by decide) (oneLine_compactItems (k :: items)))

theorem oneLine_compactFields : (fields : List (String × Json)) → OneLine (compactFields fields)
  | [] => by simp [compactFields, OneLine]
  | [(k, j)] => ((oneLine_quote k).append (.cons (by decide) (oneLine_compact j))).append
    (by simp [OneLine])
  | (k, j) :: f :: fields =>
    ((oneLine_quote k).append (.cons (by decide) (oneLine_compact j))).append
      (.cons (by decide) (oneLine_compactFields (f :: fields)))

end

theorem compactFields_concat (fields : List (String × Json)) :
    ∃ cs, compactFields fields = cs ++ ['}'] := by
  induction fields with
  | nil => exact ⟨[], rfl⟩
  | cons f fields ih =>
    obtain ⟨k, j⟩ := f
    cases fields with
    | nil => exact ⟨_, rfl⟩
    | cons g fields =>
      obtain ⟨cs, hcs⟩ := ih
      exact ⟨quote k ++ ':' :: compact j ++ ',' :: cs, by simp [compactFields, hcs]⟩

/-- The compact text of an object stays a line of its own. -/
theorem isLine_compact (fields : List (String × Json)) : IsLine (compact (.obj fields)) := by
  obtain ⟨cs, hcs⟩ := compactFields_concat fields
  refine ⟨?_, ⟨'{', compactFields fields, rfl, by decide⟩, ⟨'{' :: cs, '}', ?_, by decide⟩⟩
  · exact fun h => (oneLine_compact _ _ h).1 rfl
  · rw [compact, hcs, List.cons_append]

end BucketOverflow.Json
