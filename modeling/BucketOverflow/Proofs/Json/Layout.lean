import Mathlib.Data.List.Basic
import BucketOverflow.Json.Printer
import BucketOverflow.Json.Reader

/-! Layouts of JSON values. A layout has any blanks between its tokens; the pretty text of a value
and the compact one are two of them. -/
namespace BucketOverflow.Json
open Text

/-- Blanks between tokens. -/
def Blank (cs : List Char) : Prop := ∀ c ∈ cs, isSpace c = true

theorem blank_nil : Blank [] := by simp [Blank]

theorem blank_space : Blank [' '] := by simp [Blank, isSpace]

theorem blank_newline (level : ℕ) : Blank (newline level) := by
  intro c hc
  rcases List.mem_cons.mp hc with rfl | hc
  · rfl
  · rw [List.eq_of_mem_replicate hc]
    rfl

theorem skipSpace_append {b : List Char} (hb : Blank b) (cs : List Char) :
    skipSpace (b ++ cs) = skipSpace cs := List.dropWhile_append_of_pos hb

theorem skipSpace_cons {c : Char} (hc : isSpace c = false) (cs : List Char) :
    skipSpace (c :: cs) = c :: cs := by
  rw [skipSpace, List.dropWhile_cons, if_neg (Bool.eq_false_iff.mp hc)]

/-- A text after blanks, when it does not itself begin with one. -/
theorem skipSpace_blank {b : List Char} (hb : Blank b) {c : Char} (hc : isSpace c = false)
    (cs : List Char) : skipSpace (b ++ c :: cs) = c :: cs := by
  rw [skipSpace_append hb, skipSpace_cons hc]

mutual

/-- A text that lays out a value. -/
inductive Written : Json → List Char → Prop
  | null : Written .null "null".toList
  | bool (b : Bool) : Written (.bool b) (if b then "true".toList else "false".toList)
  | int (n : Int) : Written (.int n) (signedDecimal n)
  | float (x : Binary64) : Written (.float x) (number x)
  | str (s : String) : Written (.str s) (quote s)
  | emptyArr {b : List Char} : Blank b → Written (.arr []) ('[' :: (b ++ [']']))
  | arr {items : List Json} {cs : List Char} : WrittenItems items cs →
    Written (.arr items) ('[' :: cs)
  | emptyObj {b : List Char} : Blank b → Written (.obj []) ('{' :: (b ++ ['}']))
  | obj {fields : List (String × Json)} {cs : List Char} : WrittenFields fields cs →
    Written (.obj fields) ('{' :: cs)

/-- A text that lays out one item or more, up to the closing bracket. -/
inductive WrittenItems : List Json → List Char → Prop
  | last {j : Json} {b cs b' : List Char} : Blank b → Written j cs → Blank b' →
    WrittenItems [j] (b ++ cs ++ (b' ++ [']']))
  | cons {j : Json} {items : List Json} {b cs b' rest : List Char} : Blank b → Written j cs →
    Blank b' → WrittenItems items rest → WrittenItems (j :: items) (b ++ cs ++ (b' ++ ',' :: rest))

/-- A text that lays out one field or more, up to the closing brace. -/
inductive WrittenFields : List (String × Json) → List Char → Prop
  | last {k : String} {j : Json} {b b₁ b₂ cs b' : List Char} : Blank b → Blank b₁ → Blank b₂ →
    Written j cs → Blank b' →
    WrittenFields [(k, j)] (b ++ (quote k ++ (b₁ ++ ':' :: (b₂ ++ cs ++ (b' ++ ['}'])))))
  | cons {k : String} {j : Json} {fields : List (String × Json)} {b b₁ b₂ cs b' rest : List Char} :
    Blank b → Blank b₁ → Blank b₂ → Written j cs → Blank b' → WrittenFields fields rest →
    WrittenFields ((k, j) :: fields)
      (b ++ (quote k ++ (b₁ ++ ':' :: (b₂ ++ cs ++ (b' ++ ',' :: rest)))))

end

mutual

theorem written_pretty (level : ℕ) : (j : Json) → Written j (pretty level j)
  | .null => .null
  | .bool b => .bool b
  | .int n => .int n
  | .float x => .float x
  | .str s => .str s
  | .arr [] => .emptyArr blank_nil
  | .arr (j :: items) => .arr (written_prettyItems level (j :: items) (List.cons_ne_nil _ _))
  | .obj [] => .emptyObj blank_nil
  | .obj (f :: fields) => .obj (written_prettyFields level (f :: fields) (List.cons_ne_nil _ _))

theorem written_prettyItems (level : ℕ) :
    (items : List Json) → items ≠ [] → WrittenItems items (prettyItems level items)
  | [], h => absurd rfl h
  | [j], _ => by
    have := WrittenItems.last (blank_newline (level + 1)) (written_pretty (level + 1) j)
      (blank_newline level)
    simpa [prettyItems] using this
  | j :: k :: items, _ => by
    have := WrittenItems.cons (blank_newline (level + 1)) (written_pretty (level + 1) j) blank_nil
      (written_prettyItems level (k :: items) (List.cons_ne_nil _ _))
    simpa [prettyItems] using this

theorem written_prettyFields (level : ℕ) : (fields : List (String × Json)) → fields ≠ [] →
    WrittenFields fields (prettyFields level fields)
  | [], h => absurd rfl h
  | [(k, j)], _ => by
    have := WrittenFields.last (k := k) (blank_newline (level + 1)) blank_nil blank_space
      (written_pretty (level + 1) j) (blank_newline level)
    simpa [prettyFields] using this
  | (k, j) :: f :: fields, _ => by
    have := WrittenFields.cons (k := k) (blank_newline (level + 1)) blank_nil blank_space
      (written_pretty (level + 1) j) blank_nil
      (written_prettyFields level (f :: fields) (List.cons_ne_nil _ _))
    simpa [prettyFields] using this

end

mutual

theorem written_compact : (j : Json) → Written j (compact j)
  | .null => .null
  | .bool b => .bool b
  | .int n => .int n
  | .float x => .float x
  | .str s => .str s
  | .arr [] => .emptyArr blank_nil
  | .arr (j :: items) => .arr (written_compactItems (j :: items) (List.cons_ne_nil _ _))
  | .obj [] => .emptyObj blank_nil
  | .obj (f :: fields) => .obj (written_compactFields (f :: fields) (List.cons_ne_nil _ _))

theorem written_compactItems :
    (items : List Json) → items ≠ [] → WrittenItems items (compactItems items)
  | [], h => absurd rfl h
  | [j], _ => .last blank_nil (written_compact j) blank_nil
  | j :: k :: items, _ => .cons blank_nil (written_compact j) blank_nil
    (written_compactItems (k :: items) (List.cons_ne_nil _ _))

theorem written_compactFields : (fields : List (String × Json)) → fields ≠ [] →
    WrittenFields fields (compactFields fields)
  | [], h => absurd rfl h
  | [(k, j)], _ => by
    have := WrittenFields.last (k := k) blank_nil blank_nil blank_nil (written_compact j) blank_nil
    simpa [compactFields] using this
  | (k, j) :: f :: fields, _ => by
    have := WrittenFields.cons (k := k) blank_nil blank_nil blank_nil (written_compact j) blank_nil
      (written_compactFields (f :: fields) (List.cons_ne_nil _ _))
    simpa [compactFields] using this

end

end BucketOverflow.Json
