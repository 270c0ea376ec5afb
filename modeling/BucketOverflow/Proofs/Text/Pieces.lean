import BucketOverflow.Proofs.Text.Lines

/-! Pieces of a text by what they are and not by how they are found: the pieces between separators
put the text together again, and a trimmed text is what stands between two runs of blanks. -/
namespace BucketOverflow.Text

variable {sep : Char} {cs p q l r : List Char} {ps : List (List Char)}

/-! Between separators -/

/-- Pieces, at least one, without the separator in them; joined with it they are the text. -/
structure Cut (sep : Char) (cs : List Char) (ps : List (List Char)) : Prop where
  ne_nil : ps ≠ []
  notMem : ∀ p ∈ ps, sep ∉ p
  joined : [sep].intercalate ps = cs

theorem cut_singleton (h : sep ∉ p) : Cut sep p [p] where
  ne_nil := List.cons_ne_nil _ _
  notMem := List.forall_mem_singleton.mpr h
  joined := List.intercalate_singleton

theorem Cut.cons (h : Cut sep cs ps) (hp : sep ∉ p) : Cut sep (p ++ sep :: cs) (p :: ps) where
  ne_nil := List.cons_ne_nil _ _
  notMem := List.forall_mem_cons.mpr ⟨hp, h.notMem⟩
  joined := by
    rw [List.intercalate_cons_of_ne_nil h.ne_nil, h.joined, List.append_assoc,
      List.singleton_append]

theorem cut_splitOn (sep : Char) (cs : List Char) : Cut sep cs (splitOn sep cs) := by
  induction hn : cs.length using Nat.strong_induction_on generalizing cs with
  | _ n ih =>
    by_cases hsep : sep ∈ cs
    · obtain ⟨p, rest, rfl, hp⟩ := List.eq_append_cons_of_mem hsep
      have hless : rest.length < n := by
        rw [← hn, List.length_append, List.length_cons]
        omega
      rw [splitOn_append hp]
      exact (ih _ hless rest rfl).cons hp
    · rw [splitOn_of_notMem hsep]
      exact cut_singleton hsep

theorem splitOn_intercalate (hps : ps ≠ []) (h : ∀ p ∈ ps, sep ∉ p) :
    splitOn sep ([sep].intercalate ps) = ps := by
  induction ps with
  | nil => exact absurd rfl hps
  | cons p ps ih =>
    obtain ⟨hp, hrest⟩ := List.forall_mem_cons.mp h
    cases ps with
    | nil => rw [List.intercalate_singleton, splitOn_of_notMem hp]
    | cons q ps =>
      rw [List.intercalate_cons_cons, List.append_assoc, List.singleton_append, splitOn_append hp,
        ih (List.cons_ne_nil _ _) hrest]

theorem splitOn_eq_iff : splitOn sep cs = ps ↔ Cut sep cs ps := by
  constructor
  · rintro rfl
    exact cut_splitOn sep cs
  · intro h
    rw [← h.joined, splitOn_intercalate h.ne_nil h.notMem]

/-! Between blanks -/

/-- What is left of a text when the blanks at both ends are taken away. -/
structure Trimmed (cs p : List Char) : Prop where
  between : ∃ l r, cs = l ++ p ++ r ∧ (∀ c ∈ l, isBlank c = true) ∧ ∀ c ∈ r, isBlank c = true
  head : ∀ c ∈ p.head?, isBlank c = false
  last : ∀ c ∈ p.getLast?, isBlank c = false

theorem trimLeft_append (h : ∀ c ∈ l, isBlank c = true) (cs : List Char) :
    trimLeft (l ++ cs) = trimLeft cs :=
  List.dropWhile_append_of_pos h

theorem trimRight_append (h : ∀ c ∈ r, isBlank c = true) (cs : List Char) :
    trimRight (cs ++ r) = trimRight cs := by
  induction r using List.reverseRecOn with
  | nil => rw [List.append_nil]
  | append_singleton r c ih =>
    have hc : isBlank c = true := h c (by simp)
    rw [← List.append_assoc, trimRight_concat, if_pos hc]
    exact ih fun c hc => h c (List.mem_append_left _ hc)

theorem trimLeft_of_head (h : ∀ c ∈ p.head?, isBlank c = false) : trimLeft p = p := by
  cases p with
  | nil => rfl
  | cons c p =>
    have hc : ¬isBlank c = true := by simp [h c rfl]
    rw [trimLeft, List.dropWhile_cons_of_neg hc]

theorem trimRight_of_last (h : ∀ c ∈ p.getLast?, isBlank c = false) : trimRight p = p := by
  induction p using List.reverseRecOn with
  | nil => rfl
  | append_singleton p c _ =>
    have hc : ¬isBlank c = true := by simp [h c List.getLast?_concat]
    rw [trimRight_concat, if_neg hc]

theorem exists_trimLeft (cs : List Char) :
    ∃ l, cs = l ++ trimLeft cs ∧ ∀ c ∈ l, isBlank c = true :=
  ⟨cs.takeWhile isBlank, List.takeWhile_append_dropWhile.symm, fun _ => List.mem_takeWhile_imp⟩

theorem exists_trimRight (cs : List Char) :
    ∃ r, cs = trimRight cs ++ r ∧ ∀ c ∈ r, isBlank c = true := by
  obtain ⟨r, hr, hblank⟩ := exists_trimLeft cs.reverse
  refine ⟨r.reverse, ?_, fun c hc => hblank c (List.mem_reverse.mp hc)⟩
  rw [trimRight, ← List.reverse_append]
  exact List.reverse_eq_iff.mp hr

theorem trimmed_trim (cs : List Char) : Trimmed cs (trim cs) := by
  obtain ⟨l, hl, hlblank⟩ := exists_trimLeft cs
  obtain ⟨r, hr, hrblank⟩ : ∃ r, trimLeft cs = trim cs ++ r ∧ ∀ c ∈ r, isBlank c = true :=
    exists_trimRight (trimLeft cs)
  refine ⟨⟨l, r, ?_, hlblank, hrblank⟩, ?_, ?_⟩
  · rw [List.append_assoc, ← hr, ← hl]
  · -- the first character of what is left is the first that is no blank
    intro c hc
    have hfirst : (trimLeft cs).head? = some c := by
      rw [hr, List.head?_append, Option.mem_def.mp hc, Option.some_or]
    have hnot := List.head?_dropWhile_not isBlank cs
    rw [← trimLeft, hfirst] at hnot
    simpa using hnot
  · intro c hc
    have hnot := List.head?_dropWhile_not isBlank (trimLeft cs).reverse
    rw [trim, trimRight, List.getLast?_reverse] at hc
    rw [Option.mem_def.mp hc] at hnot
    simpa using hnot

theorem trim_eq_iff : trim cs = p ↔ Trimmed cs p := by
  constructor
  · rintro rfl
    exact trimmed_trim cs
  · rintro ⟨⟨l, r, rfl, hl, hr⟩, hhead, hlast⟩
    rw [trim, List.append_assoc, trimLeft_append hl]
    cases p with
    | nil =>
      -- all is blank
      have hnone : trimLeft r = [] := List.dropWhile_eq_nil_iff.mpr hr
      rw [List.nil_append, hnone]
      rfl
    | cons c p =>
      have hfirst : trimLeft (c :: p ++ r) = c :: p ++ r := trimLeft_of_head hhead
      rw [hfirst, trimRight_append hr, trimRight_of_last hlast]

end BucketOverflow.Text
