import Mathlib.Data.List.TakeWhile
import BucketOverflow.Proofs.Text.Digits
import BucketOverflow.Text.Blank

/-! Lines and pieces of a text. Lines that were written one after the other are found again, and the
pieces between double colons add up over a text that was put together. -/
namespace BucketOverflow.Text

variable {sep : Char} {p cs l : List Char}

/-! Cutting at a separator -/

theorem takeWhile_ne (h : sep ∉ p) (cs : List Char) :
    (p ++ sep :: cs).takeWhile (· ≠ sep) = p := by
  induction p with
  | nil => simp
  | cons c p ih =>
    rw [List.mem_cons, not_or] at h
    rw [List.cons_append, List.takeWhile_cons, if_pos (by simpa using Ne.symm h.1), ih h.2]

theorem dropWhile_ne (h : sep ∉ p) (cs : List Char) :
    (p ++ sep :: cs).dropWhile (· ≠ sep) = sep :: cs := by
  induction p with
  | nil => simp
  | cons c p ih =>
    rw [List.mem_cons, not_or] at h
    rw [List.cons_append, List.dropWhile_cons, if_pos (by simpa using Ne.symm h.1), ih h.2]

/-- A piece is cut off at the first separator. -/
theorem splitOn_append (h : sep ∉ p) (cs : List Char) :
    splitOn sep (p ++ sep :: cs) = p :: splitOn sep cs := by
  rw [splitOn]
  split
  · rename_i heq
    rw [dropWhile_ne h] at heq
    cases heq
  · rename_i heq
    rw [dropWhile_ne h] at heq
    rw [takeWhile_ne h, (List.cons.inj heq).2]

theorem splitOn_of_notMem (h : sep ∉ p) : splitOn sep p = [p] := by
  have hdrop : p.dropWhile (· ≠ sep) = [] := by
    refine List.dropWhile_eq_nil_iff.mpr fun c hc => ?_
    simpa using ne_of_mem_of_not_mem hc h
  rw [splitOn, hdrop]

theorem splitOn_nil (sep : Char) : splitOn sep [] = [[]] := splitOn_of_notMem List.not_mem_nil

/-- What follows the last separator is the last piece. -/
theorem splitOn_concat (h : sep ∉ p) (cs : List Char) :
    splitOn sep (cs ++ sep :: p) = splitOn sep cs ++ [p] := by
  induction hn : cs.length using Nat.strong_induction_on generalizing cs with
  | _ n ih =>
    by_cases hsep : sep ∈ cs
    · obtain ⟨first, rest, rfl, hfirst⟩ := List.eq_append_cons_of_mem hsep
      have hless : rest.length < n := by
        rw [← hn, List.length_append, List.length_cons]
        omega
      rw [List.append_assoc, List.cons_append, splitOn_append hfirst, splitOn_append hfirst,
        ih _ hless rest rfl, List.cons_append]
    · rw [splitOn_append hsep, splitOn_of_notMem hsep, splitOn_of_notMem h]
      rfl

/-! Lines -/

/-- A line that stays as it is when it is read: it has no line feed, and neither of its ends is
blank. -/
structure IsLine (l : List Char) : Prop where
  not_feed : '\n' ∉ l
  head : ∃ c cs, l = c :: cs ∧ isBlank c = false
  last : ∃ cs c, l = cs ++ [c] ∧ isBlank c = false

/-- Lines, each with its end. -/
def joinLines (ls : List (List Char)) : List Char := ls.flatMap fun l => l ++ ['\n']

theorem splitOn_joinLines {ls : List (List Char)} (h : ∀ l ∈ ls, '\n' ∉ l) :
    splitOn '\n' (joinLines ls) = ls ++ [[]] := by
  induction ls with
  | nil => exact splitOn_nil _
  | cons l ls ih =>
    obtain ⟨hl, hls⟩ := List.forall_mem_cons.mp h
    have hsplit : joinLines (l :: ls) = l ++ '\n' :: joinLines ls := by simp [joinLines]
    rw [hsplit, splitOn_append hl, ih hls, List.cons_append]

theorem IsLine.dropReturn (h : IsLine l) : dropReturn l = l := by
  obtain ⟨cs, c, rfl, hc⟩ := h.last
  refine if_neg fun hr => ?_
  rw [List.getLast?_concat, Option.some.injEq] at hr
  rw [hr] at hc
  exact absurd hc (by decide)

/-- The lines that were joined are found again. -/
theorem lines_joinLines {ls : List (List Char)} (h : ∀ l ∈ ls, IsLine l) :
    lines (joinLines ls) = ls := by
  have hkeep : ls.map Text.dropReturn = ls :=
    (List.map_congr_left fun l hl => (h l hl).dropReturn).trans (List.map_id _)
  simp [lines, splitOn_joinLines fun l hl => (h l hl).not_feed, hkeep]

theorem IsLine.trim (h : IsLine l) : trim l = l := by
  have hleft : trimLeft l = l := by
    obtain ⟨c, cs, rfl, hc⟩ := h.head
    simp [trimLeft, hc]
  have hright : trimRight l = l := by
    obtain ⟨cs, c, rfl, hc⟩ := h.last
    simp [trimRight, hc]
  rw [Text.trim, hleft, hright]

theorem IsLine.ne_nil (h : IsLine l) : l ≠ [] := by
  obtain ⟨c, cs, rfl, -⟩ := h.head
  exact List.cons_ne_nil _ _

/-! Trimming at the end -/

theorem trimRight_concat (cs : List Char) (c : Char) :
    trimRight (cs ++ [c]) = if isBlank c then trimRight cs else cs ++ [c] := by
  simp only [trimRight, List.reverse_append, List.reverse_singleton, List.singleton_append,
    List.dropWhile_cons]
  split_ifs <;> simp

theorem getD_concat_space (cs : List Char) (i : ℕ) :
    (cs ++ [' ']).getD i ' ' = cs.getD i ' ' := by
  simp only [List.getD_eq_getElem?_getD, List.getElem?_append]
  split_ifs with h
  · rfl
  · rw [List.getElem?_eq_none (not_lt.mp h)]
    rcases i - cs.length with - | k <;> rfl

theorem getD_spaces (k i : ℕ) : (List.replicate k ' ').getD i ' ' = ' ' := by
  rw [List.getD_eq_getElem?_getD, List.getElem?_replicate]
  split_ifs <;> rfl

/-- Where the only blanks are spaces, trimming does not change what a column shows. -/
theorem getD_trimRight (h : ∀ c ∈ cs, isBlank c = true → c = ' ') (i : ℕ) :
    (trimRight cs).getD i ' ' = cs.getD i ' ' := by
  induction cs using List.reverseRecOn with
  | nil => rfl
  | append_singleton cs c ih =>
    rw [trimRight_concat]
    split_ifs with hc
    · rw [h c (by simp) hc, getD_concat_space]
      exact ih fun c hc => h c (List.mem_append_left _ hc)
    · rfl

theorem trimRight_spaces (cs : List Char) (k : ℕ) :
    trimRight (cs ++ List.replicate k ' ') = trimRight cs := by
  induction k with
  | zero => rw [List.replicate_zero, List.append_nil]
  | succ k ih =>
    have hspace : isBlank ' ' = true := by decide
    rw [List.replicate_succ', ← List.append_assoc, trimRight_concat, if_pos hspace, ih]

/-- Texts that show the same in every column are trimmed to the same. -/
theorem trimRight_eq_of_getD (h : ∀ i, p.getD i ' ' = cs.getD i ' ') :
    trimRight p = trimRight cs := by
  rw [← trimRight_spaces p cs.length, ← trimRight_spaces cs p.length]
  congr 1
  apply List.ext_getElem (by simp [Nat.add_comm])
  intro i hi hi'
  have hshown (l : List Char) (k : ℕ) (hl : i < (l ++ List.replicate k ' ').length) :
      (l ++ List.replicate k ' ')[i] = l.getD i ' ' := by
    rw [List.getElem_append, List.getD_eq_getElem?_getD]
    split_ifs with hlt
    · simp [hlt]
    · simp [List.getElem?_eq_none (not_lt.mp hlt)]
  rw [hshown p _ hi, hshown cs _ hi', h i]

/-! Double colons -/

theorem colonPieces_cons {c : Char} (h : c ≠ ':' ∨ ∀ t, cs ≠ ':' :: t) :
    colonPieces (c :: cs) = colonPieces cs := by
  rw [colonPieces]
  rintro t rfl rfl
  rcases h with h | h
  · exact h rfl
  · exact h t rfl

theorem colonPieces_of_notMem (h : ':' ∉ p) (cs : List Char) :
    colonPieces (p ++ cs) = colonPieces cs := by
  induction p with
  | nil => rfl
  | cons c p ih =>
    rw [List.mem_cons, not_or] at h
    rw [List.cons_append, colonPieces_cons (.inl (Ne.symm h.1)), ih h.2]

/-- A double colon behind a text ends a piece, even when a single colon stands in front of it: the
colon that is left over then belongs to what follows. -/
theorem colonPieces_append (u : List Char) (h : ':' ∉ cs) :
    colonPieces (u ++ ':' :: ':' :: cs) = colonPieces u + 1 := by
  have hone : colonPieces cs = 1 := by simpa [colonPieces] using colonPieces_of_notMem h []
  induction u using colonPieces.induct with
  | case1 u ih =>
    rw [List.cons_append, List.cons_append, colonPieces, ih, colonPieces]
  | case2 c u hne ih =>
    have hstep : colonPieces (c :: u) = colonPieces u :=
      colonPieces.eq_2 c u hne
    rw [hstep, ← ih]
    cases u with
    | nil =>
      by_cases hc : c = ':'
      · have hrest : colonPieces (':' :: cs) = colonPieces cs := by
          refine colonPieces_cons (.inr ?_)
          rintro t rfl
          simp at h
        simp [hc, colonPieces, hrest]
      · exact colonPieces_cons (.inl hc)
    | cons d u =>
      refine colonPieces_cons ?_
      by_cases hc : c = ':'
      · right
        rintro t heq
        exact hne u (by rw [hc]) (by rw [(List.cons.inj heq).1])
      · exact .inl hc
  | case3 => simp [colonPieces, hone]

theorem colonPieces_pos (u : List Char) : 0 < colonPieces u := by
  induction u using colonPieces.induct with
  | case1 u ih => simp [colonPieces]
  | case2 c u hne ih => rwa [colonPieces.eq_2 c u hne]
  | case3 => simp [colonPieces]

/-- A text is one piece exactly when no two colons stand side by side. -/
theorem colonPieces_eq_one_iff (u : List Char) : colonPieces u = 1 ↔ ¬[':', ':'] <:+: u := by
  induction u using colonPieces.induct with
  | case1 u ih =>
    have := colonPieces_pos u
    have hin : [':', ':'] <:+: ':' :: ':' :: u := ⟨[], u, rfl⟩
    simp only [colonPieces, hin, not_true_eq_false, iff_false]
    omega
  | case2 c u hne ih =>
    rw [colonPieces.eq_2 c u hne, ih, List.infix_cons_iff, not_or]
    refine ⟨fun h => ⟨?_, h⟩, And.right⟩
    rintro ⟨t, ht⟩
    obtain ⟨hc, hu⟩ := List.cons.inj ht
    exact hne t hc.symm hu.symm
  | case3 => simp [colonPieces]

theorem colon_notMem_decimalPad (w n : ℕ) : ':' ∉ decimalPad w n := by
  intro h
  have hdigit := isDigit_of_mem_zeros_decimal _ h
  exact absurd hdigit (by decide)

/-- A text between two texts without colons, set off by double colons, is cut into three pieces
exactly when it has no double colon itself. -/
theorem colonPieces_eq_three_iff (u : List Char) {d : List Char} (hp : ':' ∉ p) (hd : ':' ∉ d) :
    colonPieces (p ++ ':' :: ':' :: (u ++ ':' :: ':' :: d)) = 3 ↔ ¬[':', ':'] <:+: u := by
  rw [colonPieces_of_notMem hp, colonPieces, colonPieces_append u hd, ← colonPieces_eq_one_iff]
  omega

end BucketOverflow.Text
