import BucketOverflow.Proofs.Binary64.Platform
import BucketOverflow.Proofs.Chart.Labels

/-! What a chart shows. Between the heading and the axis stands one line of the plot for each line
of the grid; its columns show a mark exactly where points fall, and the glyph of a series where no
series with another glyph meets it. -/
namespace BucketOverflow.Chart
open Binary64 Text

variable {series : List ChartSeries} {title : String} {rows r d i j : ℕ} {v w : Binary64}

/-- The lines above the plot. -/
def heading (title : String) : List (List Char) := [title.toList, "log10 P(load > Z)".toList]

/-- The lines below the plot. -/
def footing (series : List ChartSeries) : List (List Char) :=
  [List.replicate labelWidth ' ' ++ ' ' :: '+' ::
      List.replicate (depthCount series * columnWidth) '-',
    List.replicate labelWidth ' ' ++ ' ' :: ' ' :: tickLine (depthCount series),
    List.replicate labelWidth ' ' ++ "  Depth (d)".toList,
    "Legend: ".toList ++ legend series]
  ++ (if 1 < series.length then
      [List.replicate labelWidth ' ' ++ overlap :: " overlapping series".toList] else [])
  ++ series.flatMap omission

/-- A text of lines, each ended. -/
def ended (ls : List (List Char)) : String := String.ofList (ls.flatMap (· ++ ['\n']))

section Library

variable [MathLibrary]

/-- The line of a value on the axis of some series. -/
def lineOf (series : List ChartSeries) (rows : ℕ) (v : Binary64) : ℕ :=
  (Axis.around (logs series) rows).row v.log10

/-- What a line of the plot shows to the right of the bar. -/
def body (series : List ChartSeries) (rows r : ℕ) : List Char :=
  trimRight (spread (fun d => cell r
    (series.map fun s => lineAt (Axis.around (logs series) rows) s.values d)) (depthCount series))

/-- A line of the plot and its label. -/
def plotLine (series : List ChartSeries) (rows r : ℕ) : List Char :=
  padLeft labelWidth ' ' ((Axis.around (logs series) rows).label r) ++ ' ' :: '|' ::
    body series rows r

theorem lines_eq (h : isPlottable series = true) (title : String) (rows : ℕ) :
    lines series title rows =
      heading title ++ (List.range (Nat.max rows 2)).map (plotLine series rows) ++
        footing series := by
  have hline (r : ℕ) : gridLine (Axis.around (logs series) rows)
      ((List.range (depthCount series)).map
        (column (series.map (points (Axis.around (logs series) rows))))) r =
      plotLine series rows r := by
    simp only [gridLine, List.flatMap_map, column_eq, plotLine, body, spread, List.append_assoc,
      List.cons_append, List.nil_append]
  simp only [lines, h, Bool.not_true, Bool.false_eq_true, ↓reduceIte, funext hline, heading,
    footing, Axis.rows_around, List.append_assoc]

/-- With at most a hundred thousand depths a chart that has something to plot is rendered. -/
theorem render_eq (hlen : ∀ s ∈ series, s.values.length ≤ 100000)
    (h : isPlottable series = true) (title : String) (rows : ℕ) :
    render series title rows = .ok (ended (heading title ++
      (List.range (Nat.max rows 2)).map (plotLine series rows) ++ footing series)) := by
  rw [render_of_fit (labelsFit_of_le (depthCount_le_iff.mpr hlen)), text, lines_eq h, ended]

/-- The lines of the plot are those of the grid that drawing leaves, trimmed. -/
theorem draw?_bodies (series : List ChartSeries) (rows : ℕ) :
    ∃ grid, draw? (Axis.around (logs series) rows) series = some grid ∧
      grid.map trimRight = (List.range (Nat.max rows 2)).map (body series rows) := by
  have hrows : 0 < (Axis.around (logs series) rows).rows :=
    lt_of_lt_of_le Nat.two_pos (Nat.le_max_right rows 2)
  refine ⟨_, draw?_eq hrows series, ?_⟩
  rw [gridOf, List.map_map]
  rfl

variable [LawfulMathLibrary]

/-- Every access to the grid finds its line and its column, whatever the values are, and the plot is
what drawing leaves. A chart is rendered exactly if it has nothing to plot or every character of a
label has its place, and that is when the last label has no more digits than the columns from its
own on leave room for. The labels then stand on the line below the axis as they are written, unless
one reaches the next. That there is nothing to plot shows in the least logarithm, which is infinite
then and only then. -/
theorem writes_in_bounds (series : List ChartSeries) (title : String) (rows : ℕ) :
    (∃ grid, draw? (Axis.around (logs series) rows) series = some grid ∧
      grid.map trimRight = (List.range (Nat.max rows 2)).map (body series rows)) ∧
      ((∃ t, render series title rows = .ok t) ↔
        (isPlottable series = true → ∃ cs, labels? (depthCount series) = some cs)) ∧
      ((∃ cs, labels? (depthCount series) = some cs) ↔ depthCount series = 0 ∨
        5 * ((depthCount series - 1) / 5) < 10 ^ (5 + 3 * ((depthCount series - 1) % 5))) ∧
      (∀ cs, labels? (depthCount series) = some cs → depthCount series ≤ 10 ^ 15 →
        trimRight cs = tickLine (depthCount series)) ∧
      ((logs series).foldl Binary64.min (inf false)).isFinite = isPlottable series := by
  refine ⟨draw?_bodies series rows, ?_, labels?_iff.trans labelsFit_iff, ?_, isFinite_least_iff⟩
  · rw [render_ok_iff, labels?_iff]
  · intro cs hcs hn
    obtain ⟨cs', hcs', hline⟩ := labels?_shows (labels?_iff.mp ⟨cs, hcs⟩) hn
    rwa [Option.some_inj.mp (hcs.symm.trans hcs')]

end Library

/-- A series over two decades, with a zero on the way, and a half beside it. -/
def decades : List ChartSeries :=
  [⟨"p", [one, zero false, ⟨0x3f847ae147ae147b⟩]⟩, ⟨"q", [⟨0x3fe0000000000000⟩]⟩]

theorem writes_in_bounds_decades :
    (∃ grid, draw? (Axis.around (logs decades) 5) decades = some grid ∧
      grid.map trimRight = [" *".toList, " o".toList, [], [], "       *".toList]) ∧
    ∃ cs, labels? (depthCount decades) = some cs ∧ trimRight cs = " 0".toList := by
  obtain ⟨⟨grid, hdraw, hplot⟩, -, hfit, hlabels, -⟩ := writes_in_bounds decades "t" 5
  obtain ⟨cs, hcs⟩ := hfit.mpr (.inr (by decide))
  have hbodies : (List.range (Nat.max 5 2)).map (body decades 5) =
      [" *".toList, " o".toList, [], [], "       *".toList] := by decide +kernel
  have hline : tickLine (depthCount decades) = " 0".toList := by decide +kernel
  exact ⟨⟨grid, hdraw, hplot.trans hbodies⟩, cs, hcs, (hlabels cs hcs (by decide)).trans hline⟩

/-- One depth more than a hundred thousand leaves no room for the label of the last. -/
theorem render_past_labels : ¬∃ t, render [⟨"", one :: List.replicate 100000 (zero false)⟩] "" 2 =
    .ok t := by
  rw [render_ok_iff, labelsFit_iff]
  have hcount : depthCount [⟨"", one :: List.replicate 100000 (zero false)⟩] = 100001 := by
    rw [depthCount, List.map_singleton, List.length_cons, List.length_replicate]
    rfl
  have hone : isPlotted one = true := by decide
  rw [hcount, isPlottable, List.any_cons, List.any_cons, hone, Bool.true_or, Bool.true_or]
  norm_num

section Library

variable [MathLibrary]

/-! Columns of the plot -/

/-- A line of the plot shows the cells in the middle of their columns, and nothing else. -/
theorem getD_body (series : List ChartSeries) (rows r c : ℕ) : (body series rows r).getD c ' ' =
    if c < depthCount series * 3 ∧ c % 3 = 1 then cell r (series.map fun s =>
      lineAt (Axis.around (logs series) rows) s.values (c / 3)) else ' ' := by
  rw [body, getD_trimRight, List.getD_eq_getElem?_getD, getElem?_spread]
  · split_ifs <;> simp_all
  · intro c hc hblank
    simp only [spread, List.mem_flatMap, List.mem_cons, List.not_mem_nil, or_false] at hc
    obtain ⟨d, -, rfl | rfl | rfl⟩ := hc
    · rfl
    · exact cell_eq_space hblank
    · rfl

/-- A series has a point in a cell. -/
def Meets (series : List ChartSeries) (rows r d i : ℕ) : Prop :=
  ∃ s v, series[i]? = some s ∧ s.values[d]? = some v ∧ isPlotted v = true ∧
    lineOf series rows v = r

theorem meets_iff : Meets series rows r d i ↔ (series.map fun s =>
    lineAt (Axis.around (logs series) rows) s.values d)[i]? = some (some r) := by
  simp only [List.getElem?_map, Option.map_eq_some_iff, lineAt_eq_some_iff, Meets, lineOf]
  constructor
  · rintro ⟨s, v, hs, hv⟩
    exact ⟨s, hs, v, hv⟩
  · rintro ⟨s, hs, v, hv⟩
    exact ⟨s, v, hs, hv⟩

theorem Meets.depth_lt (h : Meets series rows r d i) : d < depthCount series := by
  obtain ⟨s, v, hs, hv, -⟩ := h
  have hlength := depthCount_le_iff.mp le_rfl s (List.mem_of_getElem? hs)
  exact ((List.getElem?_eq_some_iff.mp hv).1).trans_le hlength

/-- The middle of a column shows the cell of its depth. -/
theorem getD_body_middle (h : Meets series rows r d i) :
    (body series rows r).getD (3 * d + 1) ' ' = cell r (series.map fun s =>
      lineAt (Axis.around (logs series) rows) s.values d) := by
  have hd := h.depth_lt
  rw [getD_body, if_pos (by omega), show (3 * d + 1) / 3 = d by omega]

/-- A column is not empty exactly if it is the middle of a depth with a point on the line. -/
theorem getD_body_ne_iff {c : ℕ} : (body series rows r).getD c ' ' ≠ ' ' ↔
    ∃ d i, c = 3 * d + 1 ∧ Meets series rows r d i := by
  constructor
  · intro h
    rw [getD_body] at h
    split_ifs at h with hc
    · obtain ⟨i, hi⟩ := cell_ne_blank_iff.mp h
      exact ⟨c / 3, i, by omega, meets_iff.mpr hi⟩
    · exact absurd rfl h
  · rintro ⟨d, i, rfl, h⟩
    rw [getD_body_middle h]
    exact cell_ne_blank_iff.mpr ⟨i, meets_iff.mp h⟩

/-! The plot of a chart -/

/-- How the lines beside the bars show the values of some series. -/
structure Shows (series : List ChartSeries) (rows : ℕ) : Prop where
  /-- Something stands exactly where a value with a place on the plot belongs. -/
  shown (r c : ℕ) : (body series rows r).getD c ' ' ≠ ' ' ↔ ∃ d, c = 3 * d + 1 ∧ ∃ s ∈ series,
    ∃ v, s.values[d]? = some v ∧ isPlotted v = true ∧ lineOf series rows v = r
  /-- The line of a value is on the plot already before it is kept there. -/
  within {v : Binary64} (hv : v ∈ plotted series) :
    (Axis.around (logs series) rows).place v.log10 < Nat.max rows 2 ∧
      lineOf series rows v = (Axis.around (logs series) rows).place v.log10
  /-- A greater value is never further down. -/
  ordered {v w : Binary64} (hv : v ∈ plotted series) (hw : w ∈ plotted series) (h : v ≤ w) :
    lineOf series rows w ≤ lineOf series rows v

theorem exists_meets_iff : (∃ i, Meets series rows r d i) ↔ ∃ s ∈ series,
    ∃ v, s.values[d]? = some v ∧ isPlotted v = true ∧ lineOf series rows v = r := by
  constructor
  · rintro ⟨i, s, v, hs, hv⟩
    exact ⟨s, List.mem_of_getElem? hs, v, hv⟩
  · rintro ⟨s, hs, v, hv⟩
    obtain ⟨i, hi⟩ := List.mem_iff_getElem?.mp hs
    exact ⟨i, s, v, hi, hv⟩

variable [LawfulMathLibrary]

theorem shows_of_lt (hrows : rows < 2 ^ 53) : Shows series rows where
  shown r c := by
    rw [getD_body_ne_iff]
    simp only [exists_and_left, exists_meets_iff]
  within hv := ⟨place_lt hrows hv, row_eq_place hrows hv⟩
  ordered := row_anti hrows

/-- With at most a hundred thousand values to a series, one of them on the plot, and on fewer than
`2 ^ 53` lines, a chart shows each value in its column on the line of its logarithm. -/
theorem render_shows (hlen : ∀ s ∈ series, s.values.length ≤ 100000)
    (hpos : ∃ s ∈ series, ∃ v ∈ s.values, zero false < v ∧ v.isFinite = true)
    (hrows : rows < 2 ^ 53) (title : String) :
    render series title rows = .ok (ended (heading title ++
      (List.range (Nat.max rows 2)).map (plotLine series rows) ++ footing series)) ∧
    Shows series rows :=
  ⟨render_eq hlen (isPlottable_of_exists hpos) title rows, shows_of_lt hrows⟩

end Library

theorem render_shows_decades : (∃ t, render decades "t" 5 = .ok t) ∧ Shows decades 5 ∧
    lineOf decades 5 one = 0 ∧ lineOf decades 5 ⟨0x3fe0000000000000⟩ = 1 ∧
    lineOf decades 5 ⟨0x3f847ae147ae147b⟩ = 4 := by
  have hlen : ∀ s ∈ decades, s.values.length ≤ 100000 := by decide
  have hpos : ∃ s ∈ decades, ∃ v ∈ s.values, zero false < v ∧ v.isFinite = true :=
    ⟨_, List.mem_cons_self, _, List.mem_cons_self, by decide⟩
  have hrows : 5 < 2 ^ 53 := by norm_num
  obtain ⟨hrender, hshows⟩ := render_shows hlen hpos hrows "t"
  exact ⟨⟨_, hrender⟩, hshows, by decide +kernel⟩

section Library

variable [MathLibrary]

/-- What a cell of the plot shows, by the series that have points on it. -/
structure Marked (series : List ChartSeries) (rows r d : ℕ) : Prop where
  of_none (h : ∀ i, ¬Meets series rows r d i) : (body series rows r).getD (3 * d + 1) ' ' = ' '
  /-- Series with the same glyph are not told apart. -/
  of_same {i : ℕ} (hi : Meets series rows r d i)
    (h : ∀ j, Meets series rows r d j → j % 6 = i % 6) :
    (body series rows r).getD (3 * d + 1) ' ' = glyph i
  of_differ {i j : ℕ} (hi : Meets series rows r d i) (hj : Meets series rows r d j)
    (h : i % 6 ≠ j % 6) : (body series rows r).getD (3 * d + 1) ' ' = overlap

theorem marked (series : List ChartSeries) (rows r d : ℕ) : Marked series rows r d where
  of_none h := by
    by_contra hne
    obtain ⟨d', i, hd, hi⟩ := getD_body_ne_iff.mp hne
    obtain rfl : d = d' := by omega
    exact h i hi
  of_same hi h := by
    rw [getD_body_middle hi]
    exact cell_of_same (meets_iff.mp hi) fun j hj => glyph_eq_iff.mpr (h j (meets_iff.mpr hj))
  of_differ hi hj h := by
    rw [getD_body_middle hi]
    exact cell_of_differ (meets_iff.mp hi) (meets_iff.mp hj) fun heq => h (glyph_eq_iff.mp heq)

/-- A cell on which one series alone has a point shows the glyph of that series. Where several
meet it shows an overlap if two of them have different glyphs, and only then: the glyphs repeat
after six series, and those that share one leave it standing. -/
theorem render_marks (hlen : ∀ s ∈ series, s.values.length ≤ 100000)
    (hpos : ∃ s ∈ series, ∃ v ∈ s.values, zero false < v ∧ v.isFinite = true)
    (title : String) (rows : ℕ) :
    render series title rows = .ok (ended (heading title ++
      (List.range (Nat.max rows 2)).map (plotLine series rows) ++ footing series)) ∧
    ∀ r d, Marked series rows r d :=
  ⟨render_eq hlen (isPlottable_of_exists hpos) title rows, marked series rows⟩

end Library

theorem render_marks_pair : ∃ r, Meets [⟨"p", [one]⟩, ⟨"q", [one]⟩] 2 r 0 0 ∧
    (body [⟨"p", [one]⟩, ⟨"q", [one]⟩] 2 r).getD 1 ' ' = overlap := by
  generalize hseries : ([⟨"p", [one]⟩, ⟨"q", [one]⟩] : List ChartSeries) = series
  have hfirst : Meets series 2 (lineOf series 2 one) 0 0 :=
    ⟨⟨"p", [one]⟩, one, by rw [← hseries]; rfl, rfl, by decide, rfl⟩
  have hsecond : Meets series 2 (lineOf series 2 one) 0 1 :=
    ⟨⟨"q", [one]⟩, one, by rw [← hseries]; rfl, rfl, by decide, rfl⟩
  have hlen : ∀ s ∈ series, s.values.length ≤ 100000 := by simp [← hseries]
  have hmem : ⟨"p", [one]⟩ ∈ series := hseries ▸ List.mem_cons_self
  obtain ⟨-, hmarked⟩ := render_marks hlen ⟨_, hmem, one, List.mem_cons_self, by decide⟩ "t" 2
  exact ⟨_, hfirst, (hmarked _ 0).of_differ hfirst hsecond (by decide)⟩

/-- The first and the seventh series have the same glyph, which hides that they meet. -/
theorem overlap_hidden : ∃ series rows r d i j, i ≠ j ∧ Meets series rows r d i ∧
    Meets series rows r d j ∧ (body series rows r).getD (3 * d + 1) ' ' = '*' := by
  -- all but the two are without values
  let series : List ChartSeries :=
    [⟨"p", [one]⟩, ⟨"", []⟩, ⟨"", []⟩, ⟨"", []⟩, ⟨"", []⟩, ⟨"", []⟩, ⟨"q", [one]⟩]
  have hfirst : Meets series 2 (lineOf series 2 one) 0 0 :=
    ⟨⟨"p", [one]⟩, one, rfl, rfl, by decide, rfl⟩
  have hlast : Meets series 2 (lineOf series 2 one) 0 6 :=
    ⟨⟨"q", [one]⟩, one, rfl, rfl, by decide, rfl⟩
  refine ⟨series, 2, _, 0, 0, 6, by decide, hfirst, hlast, ?_⟩
  apply (marked series 2 _ 0).of_same hfirst
  rintro j ⟨s, v, hs, hv, -⟩
  match j with
  | 0 | 6 => rfl
  | 1 | 2 | 3 | 4 | 5 =>
    cases hs
    cases hv
  | j + 7 => cases hs

end BucketOverflow.Chart
