import BucketOverflow.Proofs.Chart.Grid
import BucketOverflow.Proofs.Text.Lines

/-! The labels below the axis. They are written on a line of fixed width, a character at a time, and
all have room unless the last one, with the few columns left after it, has too many digits. -/
namespace BucketOverflow.Chart
open Binary64 Text

variable {n d start : ℕ} {cs word : List Char}

/-! Writing on a line -/

/-- Writes a text on a line from a place on, if there is a place for every character. -/
def write? (cs : List Char) (start : ℕ) (word : List Char) : Option (List Char) :=
  word.zipIdx.foldlM (fun cs p =>
    if start + p.2 < cs.length then some (cs.set (start + p.2) p.1) else none) cs

/-- What a line holds after a text was written over it. -/
def overwrite (cs : List Char) (start : ℕ) (word : List Char) : List Char :=
  word.zipIdx.foldl (fun cs p => cs.set (start + p.2) p.1) cs

@[simp] theorem overwrite_concat (cs : List Char) (start : ℕ) (word : List Char) (c : Char) :
    overwrite cs start (word ++ [c]) =
      (overwrite cs start word).set (start + word.length) c := by
  simp [overwrite, List.zipIdx_append]

@[simp] theorem length_overwrite (cs : List Char) (start : ℕ) (word : List Char) :
    (overwrite cs start word).length = cs.length := by
  induction word using List.reverseRecOn with
  | nil => rfl
  | append_singleton word c ih => simp [ih]

theorem getD_overwrite (h : start + word.length ≤ cs.length) (i : ℕ) :
    (overwrite cs start word).getD i ' ' =
      if start ≤ i ∧ i < start + word.length then word.getD (i - start) ' '
      else cs.getD i ' ' := by
  induction word using List.reverseRecOn with
  | nil =>
    rw [if_neg (by simp)]
    rfl
  | append_singleton word c ih =>
    rw [List.length_append, List.length_singleton] at h
    have hbefore := ih (by omega)
    rw [overwrite_concat, List.getD_eq_getElem?_getD, List.getElem?_set, length_overwrite,
      List.length_append, List.length_singleton]
    by_cases hi : start + word.length = i
    · subst hi
      rw [if_pos rfl, if_pos (by omega), if_pos (by omega)]
      simp
    · rw [if_neg hi, ← List.getD_eq_getElem?_getD, hbefore]
      by_cases hin : start ≤ i ∧ i < start + word.length
      · rw [if_pos hin, if_pos (by omega), List.getD_append _ _ _ _ (by omega)]
      · rw [if_neg hin, if_neg (by omega)]

theorem write?_eq (cs : List Char) (start : ℕ) (word : List Char) : write? cs start word =
    if word = [] ∨ start + word.length ≤ cs.length then some (overwrite cs start word)
    else none := by
  induction word using List.reverseRecOn with
  | nil => rfl
  | append_singleton word c ih =>
    rw [write?] at ih ⊢
    rw [List.zipIdx_append, List.foldlM_append, ih]
    have hnil : word ++ [c] ≠ [] := by simp
    simp only [List.zipIdx_singleton, List.foldlM_cons, List.foldlM_nil, Nat.zero_add, hnil,
      false_or, List.length_append, List.length_singleton]
    by_cases hroom : start + word.length < cs.length
    · rw [if_pos (.inr hroom.le), if_pos (show start + (word.length + 1) ≤ cs.length from hroom)]
      simp [hroom]
    · rw [if_neg (show ¬start + (word.length + 1) ≤ cs.length from hroom)]
      split_ifs <;> simp [hroom]

/-! The line of labels -/

/-- Writes the labels on an empty line, in the order of their depths. -/
def labels? (n : ℕ) : Option (List Char) :=
  (tickDepths n).foldlM (fun cs d => write? cs (tickStart d) (decimal d))
    (List.replicate (tickWidth n) ' ')

/-- Writing one label after the other goes through if each has room on the line. -/
theorem foldlM_write? (ds : List ℕ) (cs : List Char) :
    (∃ cs', ds.foldlM (fun cs d => write? cs (tickStart d) (decimal d)) cs = some cs') ↔
      ∀ d ∈ ds, tickStart d + (decimal d).length ≤ cs.length := by
  induction ds generalizing cs with
  | nil => simp
  | cons d ds ih =>
    rw [List.foldlM_cons, List.forall_mem_cons, write?_eq]
    by_cases hd : tickStart d + (decimal d).length ≤ cs.length
    · have hnext := ih (overwrite cs (tickStart d) (decimal d))
      rw [length_overwrite] at hnext
      simp only [hd, or_true, ↓reduceIte, Option.bind_eq_bind, Option.bind_some, hnext, true_and]
    · simp [hd, decimal_ne_nil]

/-- The labels in a row, each filled up to the start of the next. -/
def labelRow (k : ℕ) : List Char :=
  ' ' :: (List.range k).flatMap fun i => padRight 15 ' ' (decimal (5 * i))

theorem labelRow_succ (k : ℕ) :
    labelRow (k + 1) = labelRow k ++ padRight 15 ' ' (decimal (5 * k)) := by
  simp [labelRow, List.range_succ]

theorem length_labelRow {k : ℕ} (h : 5 * k ≤ 10 ^ 15) : (labelRow k).length = 15 * k + 1 := by
  induction k with
  | zero => rfl
  | succ k ih =>
    have hdigits : (decimal (5 * k)).length ≤ 15 := length_decimal_le (by norm_num) (by omega)
    rw [labelRow_succ, List.length_append, ih (by omega), padRight, List.length_append,
      List.length_replicate]
    omega

theorem getD_padRight (w : ℕ) (cs : List Char) (i : ℕ) :
    (padRight w ' ' cs).getD i ' ' = cs.getD i ' ' := by
  rw [padRight]
  rcases lt_or_ge i cs.length with h | h
  · exact List.getD_append _ _ _ _ h
  · rw [List.getD_append_right _ _ _ _ h, List.getD_eq_default _ _ h]
    exact getD_spaces _ _

/-- Writing the labels shows them in a row. -/
theorem foldlM_write?_shows {k : ℕ} (hk : 5 * k ≤ 10 ^ 15)
    (hfit : ∀ i < k, tickStart (5 * i) + (decimal (5 * i)).length ≤ cs.length)
    (hblank : ∀ i, cs.getD i ' ' = ' ') :
    ∃ cs', ((List.range k).map (5 * ·)).foldlM
        (fun cs d => write? cs (tickStart d) (decimal d)) cs = some cs' ∧
      cs'.length = cs.length ∧ ∀ i, cs'.getD i ' ' = (labelRow k).getD i ' ' := by
  induction k with
  | zero =>
    refine ⟨cs, rfl, rfl, fun i => (hblank i).trans ?_⟩
    rcases i with - | i <;> rfl
  | succ k ih =>
    obtain ⟨cs', hrun, hlength, hshows⟩ := ih (by omega) fun i hi => hfit i (by omega)
    have hroom := hfit k k.lt_succ_self
    rw [← hlength] at hroom
    refine ⟨overwrite cs' (tickStart (5 * k)) (decimal (5 * k)), ?_,
      (length_overwrite _ _ _).trans hlength, fun i => ?_⟩
    · rw [List.range_succ, List.map_append, List.foldlM_append, hrun]
      simp [write?_eq, hroom]
    · have hstart : tickStart (5 * k) = (labelRow k).length := by
        rw [length_labelRow (by omega), tickStart, columnWidth]
        omega
      rw [getD_overwrite hroom, labelRow_succ, hstart]
      rcases lt_or_ge i (labelRow k).length with hi | hi
      · rw [if_neg (by omega), List.getD_append _ _ _ _ hi, hshows]
      · rw [List.getD_append_right _ _ _ _ hi, getD_padRight]
        split_ifs with hin
        · rfl
        · rw [hshows, List.getD_eq_default _ _ hi, List.getD_eq_default _ _ (by omega)]

/-- Whether every label has room. -/
def LabelsFit (n : ℕ) : Prop :=
  ∀ d ∈ tickDepths n, tickStart d + (decimal d).length ≤ tickWidth n

theorem labels?_iff : (∃ cs, labels? n = some cs) ↔ LabelsFit n := by
  rw [labels?, foldlM_write?, List.length_replicate]
  rfl

theorem tickFault?_eq_none_iff : tickFault? n = none ↔ LabelsFit n := by
  simp [tickFault?, LabelsFit]

/-- The line that writing leaves is the one below the axis. -/
theorem labels?_shows (h : LabelsFit n) (hn : n ≤ 10 ^ 15) :
    ∃ cs, labels? n = some cs ∧ trimRight cs = tickLine n := by
  have hdepths : tickDepths n = (List.range ((n + 4) / 5)).map (5 * ·) := rfl
  have hrow : labelRow ((n + 4) / 5) =
      ' ' :: (tickDepths n).flatMap fun d =>
        padRight (columnWidth * tickEvery) ' ' (decimal d) := by
    rw [hdepths, List.flatMap_map]
    rfl
  have hfit : ∀ i < (n + 4) / 5, tickStart (5 * i) + (decimal (5 * i)).length ≤
      (List.replicate (tickWidth n) ' ').length := by
    intro i hi
    rw [List.length_replicate]
    exact h _ (hdepths ▸ List.mem_map_of_mem (List.mem_range.mpr hi))
  obtain ⟨cs, hrun, -, hshows⟩ := foldlM_write?_shows (by omega) hfit (getD_spaces _)
  refine ⟨cs, hrun, ?_⟩
  rw [tickLine, ← hrow]
  exact trimRight_eq_of_getD hshows

theorem mem_tickDepths : d ∈ tickDepths n ↔ d < n ∧ 5 ∣ d := by
  simp only [tickDepths, tickEvery, List.mem_map, List.mem_range]
  constructor
  · rintro ⟨k, hk, rfl⟩
    omega
  · rintro ⟨hd, k, rfl⟩
    exact ⟨k, by omega, rfl⟩

/-- All labels have room if the last one does: it has three places for each column from its own on,
and two more. -/
theorem labelsFit_iff :
    LabelsFit n ↔ n = 0 ∨ 5 * ((n - 1) / 5) < 10 ^ (5 + 3 * ((n - 1) % 5)) := by
  simp only [LabelsFit, mem_tickDepths, tickStart, tickWidth, columnWidth]
  constructor
  · intro h
    rcases Nat.eq_zero_or_pos n with hn | hn
    · exact .inl hn
    · right
      have hlast := h (5 * ((n - 1) / 5)) ⟨by omega, Nat.dvd_mul_right 5 _⟩
      calc 5 * ((n - 1) / 5) < 10 ^ (decimal (5 * ((n - 1) / 5))).length :=
            lt_pow_length_decimal _
        _ ≤ 10 ^ (5 + 3 * ((n - 1) % 5)) := Nat.pow_le_pow_right (by norm_num) (by omega)
  · rintro (rfl | hlast) d ⟨hd, hdvd⟩
    · omega
    · have hle : d ≤ 5 * ((n - 1) / 5) := by omega
      have hdigits : (decimal d).length ≤ 5 + 3 * ((n - 1) % 5) :=
        length_decimal_le (by omega) (hle.trans_lt hlast)
      omega

theorem labelsFit_of_le (h : n ≤ 100000) : LabelsFit n := by
  refine labelsFit_iff.mpr (or_iff_not_imp_left.mpr fun hn => ?_)
  calc 5 * ((n - 1) / 5) < 10 ^ 5 := by omega
    _ ≤ 10 ^ (5 + 3 * ((n - 1) % 5)) := Nat.pow_le_pow_right (by norm_num) (by omega)

/-! The chart -/

variable [MathLibrary] {series : List ChartSeries} {title : String} {rows : ℕ}

theorem render_of_fit (h : LabelsFit (depthCount series)) :
    render series title rows = .ok (text series title rows) := by
  simp [render, tickFault?_eq_none_iff.mpr h]

theorem render_ok_iff : (∃ t, render series title rows = .ok t) ↔
    (isPlottable series = true → LabelsFit (depthCount series)) := by
  cases hplot : isPlottable series with
  | false => simp [render, hplot]
  | true =>
    rw [← tickFault?_eq_none_iff]
    cases hfault : tickFault? (depthCount series) <;> simp [render, hplot, hfault]

end BucketOverflow.Chart
