import Mathlib.Data.List.GetD
import BucketOverflow.Proofs.Chart.Axis

/-! The grid of a chart. Drawing point by point, with every line and every column looked up, finds a
place for each point, and leaves in a cell the marks that met there in the order of the series. -/
namespace BucketOverflow.Chart
open Binary64 Text

variable {i j r d n c : ℕ} {col : List (Option ℕ)} {marks : List Char} {m g : Char}

/-! Marks -/

theorem glyph_mem (i : ℕ) : glyph i ∈ glyphs := by
  rw [glyph, List.getD_eq_getElem _ _ (Nat.mod_lt _ (by decide))]
  exact List.getElem_mem _

theorem glyph_ne_blank (i : ℕ) : glyph i ≠ ' ' ∧ isBlank (glyph i) = false ∧ glyph i ≠ overlap := by
  have h := glyph_mem i
  simp only [glyphs, List.mem_cons, List.not_mem_nil, or_false] at h
  rcases h with h | h | h | h | h | h <;> rw [h] <;> decide

/-- Glyphs repeat after the last one and not before. -/
theorem glyph_eq_iff : glyph i = glyph j ↔ i % 6 = j % 6 := by
  have hnodup : glyphs.Nodup := by decide
  have hi : i % glyphs.length < glyphs.length := Nat.mod_lt _ (by decide)
  have hj : j % glyphs.length < glyphs.length := Nat.mod_lt _ (by decide)
  rw [glyph, glyph, List.getD_eq_getElem _ _ hi, List.getD_eq_getElem _ _ hj,
    hnodup.getElem_inj_iff]
  rfl

theorem mark_blank (m : Char) : mark ' ' m = m := if_pos (by simp)

theorem mark_self (m : Char) : mark m m = m := if_pos (by simp)

theorem mark_of_ne (hg : g ≠ ' ') (hm : g ≠ m) : mark g m = overlap := if_neg (by simp [hg, hm])

theorem foldl_mark_overlap (h : overlap ∉ marks) : marks.foldl mark overlap = overlap := by
  induction marks with
  | nil => rfl
  | cons m marks ih =>
    rw [List.mem_cons, not_or] at h
    rw [List.foldl_cons, mark_of_ne (by decide) h.1, ih h.2]

theorem foldl_mark_same (h : ∀ m ∈ marks, m = g) : marks.foldl mark g = g := by
  induction marks with
  | nil => rfl
  | cons m marks ih =>
    rw [List.forall_mem_cons] at h
    rw [List.foldl_cons, h.1, mark_self, ih h.2]

/-- Over a mark, another one leaves an overlap, which stays. -/
theorem foldl_mark_differ (hg : g ≠ ' ') (h : overlap ∉ marks) (hm : m ∈ marks) (hne : m ≠ g) :
    marks.foldl mark g = overlap := by
  induction marks with
  | nil => cases hm
  | cons m' marks ih =>
    rw [List.mem_cons, not_or] at h
    rw [List.foldl_cons]
    by_cases hsame : m' = g
    · rw [hsame, mark_self]
      exact ih h.2 ((List.mem_cons.mp hm).resolve_left fun heq => hne (heq.trans hsame))
    · rw [mark_of_ne hg (Ne.symm hsame), foldl_mark_overlap h.2]

/-! Cells -/

/-- The marks that meet in a cell, in the order of the series. -/
def marksAt (r : ℕ) (col : List (Option ℕ)) : List Char :=
  col.zipIdx.filterMap fun p => if p.1 = some r then some (glyph p.2) else none

theorem cell_eq (r : ℕ) (col : List (Option ℕ)) : cell r col = (marksAt r col).foldl mark ' ' := by
  rw [cell, marksAt, List.foldl_filterMap]
  congr 1
  funext shown p
  split_ifs <;> rfl

theorem mem_marksAt : m ∈ marksAt r col ↔ ∃ i, col[i]? = some (some r) ∧ m = glyph i := by
  simp only [marksAt, List.mem_filterMap, Option.ite_none_right_eq_some, Option.some.injEq,
    Prod.exists, List.mem_zipIdx_iff_getElem?]
  constructor
  · rintro ⟨p, i, hp, rfl, rfl⟩
    exact ⟨i, hp, rfl⟩
  · rintro ⟨i, hi, rfl⟩
    exact ⟨some r, i, hi, rfl, rfl⟩

theorem overlap_notMem_marksAt (r : ℕ) (col : List (Option ℕ)) : overlap ∉ marksAt r col := by
  intro h
  obtain ⟨i, -, hi⟩ := mem_marksAt.mp h
  exact (glyph_ne_blank i).2.2 hi.symm

/-- A cell where no point falls stays empty. -/
theorem cell_of_none (h : ∀ i : ℕ, col[i]? ≠ some (some r)) : cell r col = ' ' := by
  have hnone : marksAt r col = [] := by
    rw [List.eq_nil_iff_forall_not_mem]
    intro m hm
    obtain ⟨i, hi, -⟩ := mem_marksAt.mp hm
    exact h i hi
  rw [cell_eq, hnone, List.foldl_nil]

/-- A cell shows the mark that all points on it share. -/
theorem cell_of_same (hi : col[i]? = some (some r))
    (h : ∀ j : ℕ, col[j]? = some (some r) → glyph j = glyph i) : cell r col = glyph i := by
  have hall : ∀ m ∈ marksAt r col, m = glyph i := by
    intro m hm
    obtain ⟨j, hj, rfl⟩ := mem_marksAt.mp hm
    exact h j hj
  have hmem : glyph i ∈ marksAt r col := mem_marksAt.mpr ⟨i, hi, rfl⟩
  rw [cell_eq]
  cases hmarks : marksAt r col with
  | nil => simp [hmarks] at hmem
  | cons m marks =>
    rw [hmarks, List.forall_mem_cons] at hall
    rw [List.foldl_cons, mark_blank, hall.1, foldl_mark_same hall.2]

/-- A cell with points of different marks shows an overlap. -/
theorem cell_of_differ (hi : col[i]? = some (some r)) (hj : col[j]? = some (some r))
    (h : glyph i ≠ glyph j) : cell r col = overlap := by
  have hnone := overlap_notMem_marksAt r col
  have hmi : glyph i ∈ marksAt r col := mem_marksAt.mpr ⟨i, hi, rfl⟩
  have hmj : glyph j ∈ marksAt r col := mem_marksAt.mpr ⟨j, hj, rfl⟩
  rw [cell_eq]
  cases hmarks : marksAt r col with
  | nil => simp [hmarks] at hmi
  | cons m marks =>
    obtain ⟨k, -, hk⟩ := mem_marksAt.mp (hmarks ▸ List.mem_cons_self : m ∈ marksAt r col)
    rw [hmarks] at hnone hmi hmj
    rw [List.mem_cons, not_or] at hnone
    rw [List.foldl_cons, mark_blank]
    -- one of the two differs from the first mark, and so comes after it
    have hfirst : m ≠ ' ' := hk ▸ (glyph_ne_blank k).1
    rcases eq_or_ne (glyph i) m with heq | hne
    · have hne : glyph j ≠ m := fun h' => h (heq.trans h'.symm)
      exact foldl_mark_differ hfirst hnone.2 ((List.mem_cons.mp hmj).resolve_left hne) hne
    · exact foldl_mark_differ hfirst hnone.2 ((List.mem_cons.mp hmi).resolve_left hne) hne

/-- Where a point falls, a cell shows a mark. -/
theorem cell_of_some (hi : col[i]? = some (some r)) :
    cell r col = overlap ∨ ∃ j, cell r col = glyph j := by
  by_cases hsame : ∀ j : ℕ, col[j]? = some (some r) → glyph j = glyph i
  · exact .inr ⟨i, cell_of_same hi hsame⟩
  · simp only [not_forall, exists_prop] at hsame
    obtain ⟨j, hj, hne⟩ := hsame
    exact .inl (cell_of_differ hj hi hne)

theorem isBlank_cell (hi : col[i]? = some (some r)) : isBlank (cell r col) = false := by
  rcases cell_of_some hi with h | ⟨j, h⟩ <;> rw [h]
  · decide
  · exact (glyph_ne_blank j).2.1

/-- A cell is empty exactly where no point falls. -/
theorem cell_ne_blank_iff : cell r col ≠ ' ' ↔ ∃ i : ℕ, col[i]? = some (some r) := by
  constructor
  · intro h
    by_contra hnone
    exact h (cell_of_none fun i hi => hnone ⟨i, hi⟩)
  · rintro ⟨i, hi⟩ hspace
    have := isBlank_cell hi
    rw [hspace] at this
    exact absurd this (by decide)

theorem cell_eq_space (h : isBlank (cell r col) = true) : cell r col = ' ' := by
  by_contra hne
  obtain ⟨i, hi⟩ := cell_ne_blank_iff.mp hne
  rw [isBlank_cell hi] at h
  cases h

/-- Every further series puts its mark over what a cell shows. -/
theorem cell_append (r : ℕ) (col : List (Option ℕ)) (p : Option ℕ) : cell r (col ++ [p]) =
    if p = some r then mark (cell r col) (glyph col.length) else cell r col := by
  simp [cell, List.zipIdx_append]

/-! Lines -/

/-- A line with one character in the middle of each column. -/
def spread (f : ℕ → Char) (n : ℕ) : List Char := (List.range n).flatMap fun d => [' ', f d, ' ']

@[simp] theorem length_spread (f : ℕ → Char) (n : ℕ) : (spread f n).length = n * 3 := by
  simp [spread]

theorem spread_succ (f : ℕ → Char) (n : ℕ) :
    spread f (n + 1) = spread f n ++ [' ', f n, ' '] := by
  simp [spread, List.range_succ]

theorem getElem?_spread (f : ℕ → Char) (n c : ℕ) : (spread f n)[c]? =
    if c < n * 3 then some (if c % 3 = 1 then f (c / 3) else ' ') else none := by
  induction n with
  | zero => simp [spread]
  | succ n ih =>
    rw [spread_succ, List.getElem?_append, length_spread]
    by_cases hc : c < n * 3
    · rw [if_pos hc, ih, if_pos hc, if_pos (show c < (n + 1) * 3 by omega)]
    · rw [if_neg hc]
      obtain ⟨k, rfl⟩ := Nat.exists_eq_add_of_le (not_lt.mp hc)
      rw [Nat.add_sub_cancel_left]
      match k with
      | 0 | 2 =>
        rw [if_pos (by omega), if_neg (by omega)]
        rfl
      | 1 =>
        rw [if_pos (by omega), if_pos (by omega), show (n * 3 + 1) / 3 = n by omega]
        rfl
      | k + 3 =>
        rw [if_neg (by omega)]
        rfl

theorem spread_blank (n : ℕ) : List.replicate (n * 3) ' ' = spread (fun _ => ' ') n := by
  apply List.ext_getElem?
  intro c
  rw [getElem?_spread, List.getElem?_replicate]
  split_ifs <;> rfl

theorem getElem?_spread_middle (f : ℕ → Char) (hd : d < n) :
    (spread f n)[d * 3 + 1]? = some (f d) := by
  rw [getElem?_spread, if_pos (by omega), if_pos (by omega), show (d * 3 + 1) / 3 = d by omega]

theorem set_spread (f : ℕ → Char) (hd : d < n) (x : Char) :
    (spread f n).set (d * 3 + 1) x = spread (Function.update f d x) n := by
  apply List.ext_getElem?
  intro c
  rw [List.getElem?_set, length_spread, getElem?_spread, getElem?_spread]
  by_cases hc : d * 3 + 1 = c
  · rw [if_pos hc, if_pos (by omega), if_pos (by omega), if_pos (by omega),
      show c / 3 = d by omega, Function.update_self]
  · rw [if_neg hc]
    congr 2
    by_cases hmid : c % 3 = 1
    · rw [if_pos hmid, if_pos hmid, Function.update_of_ne (by omega)]
    · rw [if_neg hmid, if_neg hmid]

/-! Drawing with every place looked up -/

/-- Puts a mark over a cell of the grid, if there is such a line and such a column on it. -/
def put? (grid : List (List Char)) (r c : ℕ) (new : Char) : Option (List (List Char)) :=
  grid[r]?.bind fun cs => cs[c]?.map fun shown => grid.set r (cs.set c (mark shown new))

/-- A grid of some lines and columns with the given cells. -/
def gridOf (rows n : ℕ) (f : ℕ → ℕ → Char) : List (List Char) :=
  (List.range rows).map fun r => spread (f r) n

theorem getElem?_gridOf (rows n : ℕ) (f : ℕ → ℕ → Char) (r : ℕ) :
    (gridOf rows n f)[r]? = if r < rows then some (spread (f r) n) else none := by
  split_ifs with h <;> simp [gridOf, h]

theorem put?_gridOf {rows : ℕ} (f : ℕ → ℕ → Char) (hr : r < rows) (hd : d < n) (new : Char) :
    put? (gridOf rows n f) r (d * columnWidth + 1) new = some (gridOf rows n fun r' d' =>
      if r = r' ∧ d' = d then mark (f r d) new else f r' d') := by
  have hline : (gridOf rows n f)[r]? = some (spread (f r) n) := by rw [getElem?_gridOf, if_pos hr]
  have hcell : (spread (f r) n)[d * columnWidth + 1]? = some (f r d) :=
    getElem?_spread_middle (f r) hd
  rw [put?, hline, Option.bind_some, hcell, Option.map_some, Option.some_inj]
  change (gridOf rows n f).set r ((spread (f r) n).set (d * 3 + 1) _) = _
  rw [set_spread _ hd]
  apply List.ext_getElem?
  intro r'
  rw [List.getElem?_set, getElem?_gridOf, getElem?_gridOf, gridOf, List.length_map,
    List.length_range]
  by_cases hsame : r = r'
  · subst hsame
    simp only [↓reduceIte, true_and]
    congr 3
    funext d'
    exact Function.update_apply _ _ _ _
  · simp only [hsame, ↓reduceIte, false_and]

theorem foldl_max_le_iff (ns : List ℕ) (init k : ℕ) :
    ns.foldl Nat.max init ≤ k ↔ init ≤ k ∧ ∀ n ∈ ns, n ≤ k := by
  induction ns generalizing init with
  | nil => simp
  | cons n ns ih => rw [List.foldl_cons, ih, Nat.max_le, List.forall_mem_cons, and_assoc]

theorem depthCount_le_iff {series : List ChartSeries} {k : ℕ} :
    depthCount series ≤ k ↔ ∀ s ∈ series, s.values.length ≤ k := by
  simp [depthCount, foldl_max_le_iff]

section Library

variable [MathLibrary]

/-- Puts the points of one series on the grid, depth by depth. -/
def drawSeries? (a : Axis) (grid : List (List Char)) (values : List Binary64) (i : ℕ) :
    Option (List (List Char)) :=
  values.zipIdx.foldlM (fun grid p =>
    if isPlotted p.1 then put? grid (a.row p.1.log10) (p.2 * columnWidth + 1) (glyph i)
    else some grid) grid

/-- Puts the points of all series on an empty grid, series by series. -/
def draw? (a : Axis) (series : List ChartSeries) : Option (List (List Char)) :=
  series.zipIdx.foldlM (fun grid p => drawSeries? a grid p.1.values p.2)
    (List.replicate a.rows (List.replicate (depthCount series * columnWidth) ' '))

/-- The line of the point at a depth, if it has one. -/
def lineAt (a : Axis) (values : List Binary64) (d : ℕ) : Option ℕ :=
  (values[d]?).bind fun v => if isPlotted v then some (a.row v.log10) else none

theorem lineAt_eq_some_iff {a : Axis} {values : List Binary64} : lineAt a values d = some r ↔
    ∃ v, values[d]? = some v ∧ isPlotted v = true ∧ a.row v.log10 = r := by
  simp [lineAt, Option.bind_eq_some_iff]

theorem lineAt_concat (a : Axis) (values : List Binary64) (v : Binary64) (d : ℕ) :
    lineAt a (values ++ [v]) d = if d = values.length then
      if isPlotted v then some (a.row v.log10) else none
    else lineAt a values d := by
  rcases lt_trichotomy d values.length with h | rfl | h
  · rw [if_neg h.ne, lineAt, lineAt, List.getElem?_append_left h]
  · rw [if_pos rfl, lineAt, List.getElem?_concat_length, Option.bind_some]
  · rw [if_neg h.ne', lineAt, lineAt, List.getElem?_eq_none h.le,
      List.getElem?_eq_none (by simpa using h)]

theorem lineAt_length (a : Axis) (values : List Binary64) :
    lineAt a values values.length = none := by
  rw [lineAt, List.getElem?_eq_none le_rfl, Option.bind_none]

/-- The points of a series all find a place, and nothing else changes. -/
theorem drawSeries?_gridOf {a : Axis} {values : List Binary64} (f : ℕ → ℕ → Char)
    (ha : 0 < a.rows) (hn : values.length ≤ n) (i : ℕ) :
    drawSeries? a (gridOf a.rows n f) values i = some (gridOf a.rows n fun r d =>
      if lineAt a values d = some r then mark (f r d) (glyph i) else f r d) := by
  induction values using List.reverseRecOn with
  | nil => simp [drawSeries?, lineAt]
  | append_singleton values v ih =>
    rw [List.length_append, List.length_singleton] at hn
    have hstep := ih (by omega)
    rw [drawSeries?] at hstep ⊢
    rw [List.zipIdx_append, List.foldlM_append, hstep, Option.bind_eq_bind, Option.bind_some]
    simp only [List.zipIdx_singleton, List.foldlM_cons, List.foldlM_nil, Nat.zero_add,
      lineAt_concat]
    -- the depth of the new value had no point before
    cases hv : isPlotted v with
    | false =>
      simp only [Bool.false_eq_true, ↓reduceIte, Option.bind_eq_bind, Option.bind_some,
        Option.pure_def]
      congr 2
      funext r d
      rcases eq_or_ne d values.length with rfl | hd
      · simp [lineAt_length]
      · simp [hd]
    | true =>
      simp only [↓reduceIte, put?_gridOf _ (Axis.row_lt ha _) (show values.length < n by omega),
        Option.bind_eq_bind, Option.bind_some, Option.pure_def]
      congr 2
      funext r d
      rcases eq_or_ne d values.length with rfl | hd
      · by_cases hr : a.row v.log10 = r <;> simp [lineAt_length, hr]
      · simp [hd]

theorem column_eq (a : Axis) (series : List ChartSeries) (d : ℕ) :
    column (series.map (points a)) d = series.map fun s => lineAt a s.values d := by
  rw [column, List.map_map]
  apply List.map_congr_left
  intro s _
  simp only [Function.comp_apply, points, List.getElem?_toArray, List.getElem?_map, lineAt]
  cases s.values[d]? <;> rfl

/-- Drawing ends with the cells that the points of all series leave. -/
theorem draw?_eq {a : Axis} (ha : 0 < a.rows) (series : List ChartSeries) :
    draw? a series = some (gridOf a.rows (depthCount series) fun r d =>
      cell r (series.map fun s => lineAt a s.values d)) := by
  have hlength : ∀ s ∈ series, s.values.length ≤ depthCount series :=
    depthCount_le_iff.mp le_rfl
  have hblank : List.replicate a.rows (List.replicate (depthCount series * columnWidth) ' ') =
      gridOf a.rows (depthCount series) fun _ _ => ' ' := by
    rw [columnWidth, spread_blank, gridOf, List.map_const', List.length_range]
  rw [draw?, hblank]
  generalize depthCount series = n at *
  induction series using List.reverseRecOn with
  | nil => rfl
  | append_singleton series s ih =>
    have hstep := ih fun s hs => hlength s (List.mem_append_left _ hs)
    rw [List.zipIdx_append, List.foldlM_append, hstep, Option.bind_eq_bind, Option.bind_some,
      List.zipIdx_singleton, List.foldlM_cons, drawSeries?_gridOf _ ha (hlength s (by simp))]
    simp [cell_append]

end Library

end BucketOverflow.Chart
