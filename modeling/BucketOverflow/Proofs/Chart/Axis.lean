import BucketOverflow.Chart
import BucketOverflow.Proofs.Binary64.Extremes
import BucketOverflow.Proofs.Binary64.Library

/-! The axis of a chart. Its ends are whole numbers with every logarithm between them, so the line
of a point is among the lines before it is bounded by them, and a greater value is never further
down. -/
namespace BucketOverflow
open Binary64

namespace Chart.Axis

variable {a : Axis} {bottom top : ℤ} {log log' : Binary64} {logs : List Binary64} {rows : ℕ}

/-- The ends are whole numbers, at least one apart and no further than logarithms reach. -/
structure Spans (a : Axis) (bottom top : ℤ) : Prop where
  low : a.low.worth = bottom * 2 ^ unitExp
  high : a.high.worth = top * 2 ^ unitExp
  lt : bottom < top
  bottom_ge : -400 ≤ bottom
  top_le : top ≤ 400

theorem Spans.natAbs_le (h : Spans a bottom top) :
    bottom.natAbs ≤ 2 ^ 53 ∧ top.natAbs ≤ 2 ^ 53 ∧ (top - bottom).natAbs ≤ 2 ^ 53 := by
  have := h.lt
  have := h.bottom_ge
  have := h.top_le
  omega

theorem Spans.isFinite_low (h : Spans a bottom top) : a.low.isFinite = true :=
  isFinite_of_whole h.low h.natAbs_le.1

theorem Spans.isFinite_high (h : Spans a bottom top) : a.high.isFinite = true :=
  isFinite_of_whole h.high h.natAbs_le.2.1

/-- A finite word between the ends of an axis. -/
structure Holds (a : Axis) (log : Binary64) : Prop where
  finite : log.isFinite = true
  low_le : a.low.worth ≤ log.worth
  le_high : log.worth ≤ a.high.worth

/-- A finite word no further from zero than logarithms reach. -/
structure Reached (log : Binary64) : Prop where
  finite : log.isFinite = true
  abs_le : |log.worth| ≤ 324 * 2 ^ unitExp

theorem Reached.exists_ceil (h : Reached log) : ∃ k : ℤ, log.ceil.worth = k * 2 ^ unitExp ∧
    (∀ j : ℤ, log.worth ≤ j * 2 ^ unitExp ↔ k ≤ j) ∧ k ≤ 324 := by
  have hone : (0 : ℚ) < 2 ^ unitExp := by positivity
  have hnear := h.abs_le
  have hceil := worth_ceil (hnear.trans (mul_le_mul_of_nonneg_right (by norm_num) hone.le))
  generalize (2 : ℚ) ^ unitExp = unit at *
  refine ⟨_, hceil, fun j => ?_, Int.ceil_le.mpr ?_⟩
  · rw [Int.ceil_le, div_le_iff₀ hone]
  · rw [div_le_iff₀ hone]
    exact (le_abs_self _).trans hnear

theorem Reached.exists_floor (h : Reached log) : ∃ k : ℤ, log.floor.worth = k * 2 ^ unitExp ∧
    (∀ j : ℤ, j * 2 ^ unitExp ≤ log.worth ↔ j ≤ k) ∧ -324 ≤ k := by
  have hone : (0 : ℚ) < 2 ^ unitExp := by positivity
  have hnear := h.abs_le
  have hfloor := worth_floor (hnear.trans (mul_le_mul_of_nonneg_right (by norm_num) hone.le))
  generalize (2 : ℚ) ^ unitExp = unit at *
  refine ⟨_, hfloor, fun j => ?_, Int.le_floor.mpr ?_⟩
  · rw [Int.le_floor, le_div_iff₀ hone]
  · rw [le_div_iff₀ hone]
    push_cast
    linarith [neg_le_of_abs_le hnear]

/-- The greatest whole number below all of some words and the least one above them. -/
structure Bounds (logs : List Binary64) (bottom top : ℤ) : Prop where
  bottom_iff (j : ℤ) : (∀ log ∈ logs, j * 2 ^ unitExp ≤ log.worth) ↔ j ≤ bottom
  top_iff (j : ℤ) : (∀ log ∈ logs, log.worth ≤ j * 2 ^ unitExp) ↔ top ≤ j

theorem Bounds.le (h : Bounds logs bottom top) (hne : logs ≠ []) : bottom ≤ top := by
  obtain ⟨log, hlog⟩ := List.exists_mem_of_ne_nil _ hne
  have hlow := (h.bottom_iff bottom).mpr le_rfl log hlog
  have hhigh := (h.top_iff top).mpr le_rfl log hlog
  have hle : (bottom : ℚ) ≤ top := le_of_mul_le_mul_right (hlow.trans hhigh) (by positivity)
  exact_mod_cast hle

/-- Ends that meet are drawn apart at the lower one. -/
def lowerEnd (bottom top : ℤ) : ℤ := if bottom = top then top - 1 else bottom

theorem spans_lowerEnd {low high : Binary64} (hlow : low.worth = bottom * 2 ^ unitExp)
    (hhigh : high.worth = top * 2 ^ unitExp) (hends : bottom ≤ top) (hbottom : -324 ≤ bottom)
    (htop : top ≤ 324) (rows : ℕ) :
    Spans ⟨if high ≤ low then high - one else low, high, rows⟩ (lowerEnd bottom top) top := by
  have hle : high ≤ low ↔ top ≤ bottom := le_iff_of_whole hhigh hlow (by omega) (by omega)
  unfold lowerEnd
  by_cases hmeet : bottom = top
  · rw [if_pos (hle.mpr hmeet.ge), if_pos hmeet]
    exact ⟨worth_sub_one hhigh (by omega), hhigh, by omega, by omega, by omega⟩
  · rw [if_neg (hle.not.mpr (by omega)), if_neg hmeet]
    exact ⟨hlow, hhigh, by omega, by omega, by omega⟩

/-- The axis around some logarithms ends with the whole numbers that bound them. -/
theorem around_bounds (hne : logs ≠ []) (hlogs : ∀ log ∈ logs, Reached log) (rows : ℕ) :
    ∃ bottom top, Bounds logs bottom top ∧
      Spans (around logs rows) (lowerEnd bottom top) top := by
  have hfinite log (h : log ∈ logs) := (hlogs log h).finite
  obtain ⟨hmaxmem, hmax⟩ := foldl_max_mem hne hfinite
  obtain ⟨hminmem, hmin⟩ := foldl_min_mem hne hfinite
  obtain ⟨top, hhigh, htop, htople⟩ := (hlogs _ hmaxmem).exists_ceil
  obtain ⟨bottom, hlow, hbottom, hbottomle⟩ := (hlogs _ hminmem).exists_floor
  have hbounds : Bounds logs bottom top := by
    constructor <;> intro j
    · rw [← hbottom]
      exact ⟨fun h => h _ hminmem, fun h log hlog => h.trans (hmin log hlog)⟩
    · rw [← htop]
      exact ⟨fun h => h _ hmaxmem, fun h log hlog => (hmax log hlog).trans h⟩
  exact ⟨bottom, top, hbounds,
    spans_lowerEnd hlow hhigh (hbounds.le hne) hbottomle htople (Nat.max rows 2)⟩

/-- The axis around some logarithms spans them. -/
theorem around_spans (hne : logs ≠ []) (hlogs : ∀ log ∈ logs, Reached log) (rows : ℕ) :
    (∃ bottom top, Spans (around logs rows) bottom top) ∧
      ∀ log ∈ logs, Holds (around logs rows) log := by
  obtain ⟨bottom, top, hbounds, hspans⟩ := around_bounds hne hlogs rows
  have hlower : lowerEnd bottom top ≤ bottom := by
    unfold lowerEnd
    split_ifs <;> omega
  refine ⟨⟨_, top, hspans⟩, fun log hlog => ⟨(hlogs log hlog).finite, ?_, ?_⟩⟩
  · rw [hspans.low]
    exact (hbounds.bottom_iff _).mpr hlower log hlog
  · rw [hspans.high]
    exact (hbounds.top_iff _).mpr le_rfl log hlog

/-! The line of a point -/

/-- How far below the upper end a word lies, as a share of the axis. -/
def share (a : Axis) (log : Binary64) : Binary64 := (a.high - log) / (a.high - a.low)

/-- The line of a logarithm before it is kept among the lines. -/
def place (a : Axis) (log : Binary64) : ℕ := (a.share log * ofNat (a.rows - 1)).roundToNat

theorem row_eq (a : Axis) (log : Binary64) : a.row log = Nat.min (a.place log) (a.rows - 1) := rfl

theorem row_lt (h : 0 < a.rows) (log : Binary64) : a.row log < a.rows :=
  (Nat.min_le_right _ _).trans_lt (Nat.sub_one_lt_of_lt h)

theorem rows_around (logs : List Binary64) (rows : ℕ) : (around logs rows).rows = Nat.max rows 2 :=
  rfl

theorem Spans.width (h : Spans a bottom top) :
    (a.high - a.low).worth = (top - bottom : ℤ) * 2 ^ unitExp ∧
      (a.high - a.low).isFinite = true ∧ 0 < (a.high - a.low).worth := by
  have hnear := isNearest_sub h.isFinite_high h.isFinite_low
  rw [h.high, h.low, ← sub_mul, ← Int.cast_sub] at hnear
  have hworth := hnear.worth_eq_whole h.natAbs_le.2.2
  refine ⟨hworth, isFinite_of_whole hworth h.natAbs_le.2.2, ?_⟩
  rw [hworth]
  have : (0 : ℚ) < (top - bottom : ℤ) := by exact_mod_cast sub_pos.mpr h.lt
  positivity

theorem Spans.upto_drop (h : Spans a bottom top) (hlog : Holds a log) :
    Upto (a.high - log) (a.high - a.low).worth := by
  have hdrop := isNearest_sub h.isFinite_high hlog.finite
  have hwidth := isNearest_sub h.isFinite_high h.isFinite_low
  have hle := worth_le_worth (hdrop.le hwidth (sub_le_sub_left hlog.low_le _))
  have hspan : a.high.worth - log.worth ≤ (top - bottom).natAbs * 2 ^ unitExp := by
    rw [h.high, Nat.cast_natAbs, abs_of_pos (sub_pos.mpr h.lt), Int.cast_sub, sub_mul, ← h.low]
    exact sub_le_sub_left hlog.low_le _
  have hupto := upto_of_isNearest hdrop (sub_nonneg.mpr hlog.le_high) hspan h.natAbs_le.2.2
  exact ⟨hupto.finite, hupto.nonneg, hle⟩

theorem Spans.isNearest_share (h : Spans a bottom top) (hlog : Holds a log) :
    IsNearest (a.share log) ((a.high - log).worth * 2 ^ unitExp / (a.high - a.low).worth) := by
  obtain ⟨-, hfinite, hpos⟩ := h.width
  apply isNearest_div (h.upto_drop hlog).finite hfinite
  intro hzero
  rw [worth_eq_units, hzero] at hpos
  simp [units, significand] at hpos

/-- The share lies between none and all. -/
theorem Spans.upto_share (h : Spans a bottom top) (hlog : Holds a log) :
    Upto (a.share log) ((1 : ℕ) * 2 ^ unitExp) := by
  obtain ⟨-, -, hpos⟩ := h.width
  have hdrop := h.upto_drop hlog
  have hone : (0 : ℚ) < 2 ^ unitExp := by positivity
  refine upto_of_isNearest (h.isNearest_share hlog)
    (div_nonneg (mul_nonneg hdrop.nonneg hone.le) hpos.le) ?_ (by norm_num)
  rw [div_le_iff₀ hpos, Nat.cast_one, one_mul, mul_comm]
  exact mul_le_mul_of_nonneg_left hdrop.le hone.le

theorem Spans.share_anti (h : Spans a bottom top) (hlog : Holds a log) (hlog' : Holds a log')
    (hle : log.worth ≤ log'.worth) : (a.share log').worth ≤ (a.share log).worth := by
  obtain ⟨-, -, hpos⟩ := h.width
  have hdrop := worth_le_worth ((isNearest_sub h.isFinite_high hlog'.finite).le
    (isNearest_sub h.isFinite_high hlog.finite) (sub_le_sub_left hle _))
  have hone : (0 : ℚ) ≤ 2 ^ unitExp := by positivity
  exact worth_le_worth ((h.isNearest_share hlog').le (h.isNearest_share hlog)
    (div_le_div_of_nonneg_right (mul_le_mul_of_nonneg_right hdrop hone) hpos.le))

variable (hrows : a.rows ≤ 2 ^ 53)
include hrows

theorem Spans.isNearest_descent (h : Spans a bottom top) (hlog : Holds a log) :
    IsNearest (a.share log * ofNat (a.rows - 1)) ((a.share log).worth * (a.rows - 1 : ℕ)) := by
  have hsteps : a.rows - 1 ≤ 2 ^ 53 := (Nat.sub_le _ _).trans hrows
  have hcount : (ofNat (a.rows - 1)).worth = (a.rows - 1 : ℕ) * 2 ^ unitExp :=
    worth_ofNat (hsteps.trans (by decide))
  have hnear := isNearest_mul (h.upto_share hlog).finite (isFinite_ofNat_of_le hsteps)
  rwa [hcount, ← mul_assoc, mul_div_cancel_right₀ _ (by positivity)] at hnear

theorem Spans.upto_descent (h : Spans a bottom top) (hlog : Holds a log) :
    Upto (a.share log * ofNat (a.rows - 1)) ((a.rows - 1 : ℕ) * 2 ^ unitExp) := by
  have hshare := h.upto_share hlog
  refine upto_of_isNearest (h.isNearest_descent hrows hlog)
    (mul_nonneg hshare.nonneg (Nat.cast_nonneg _)) ?_ ((Nat.sub_le _ _).trans hrows)
  rw [mul_comm]
  refine mul_le_mul_of_nonneg_left ?_ (Nat.cast_nonneg _)
  simpa only [Nat.cast_one, one_mul] using hshare.le

/-- Before it is kept among the lines, the line of a point is already one of them. -/
theorem Spans.place_le (h : Spans a bottom top) (hlog : Holds a log) :
    a.place log ≤ a.rows - 1 :=
  have hdescent := h.upto_descent hrows hlog
  roundToNat_le hdescent.finite hdescent.le

/-- A greater logarithm is never on a line further down. -/
theorem Spans.place_anti (h : Spans a bottom top) (hlog : Holds a log) (hlog' : Holds a log')
    (hle : log.worth ≤ log'.worth) : a.place log' ≤ a.place log := by
  apply roundToNat_mono (h.upto_descent hrows hlog').finite (h.upto_descent hrows hlog).finite
  exact worth_le_worth ((h.isNearest_descent hrows hlog').le (h.isNearest_descent hrows hlog)
    (mul_le_mul_of_nonneg_right (h.share_anti hlog hlog' hle) (Nat.cast_nonneg _)))

end Chart.Axis

/-! The axis of some series -/

namespace Chart

variable {series : List ChartSeries} {v w : Binary64} {rows : ℕ}

theorem isPlotted_iff : isPlotted v = true ↔ zero false < v ∧ v.isFinite = true := by
  simp [isPlotted]

/-- The values of some series that have a place on the plot. -/
def plotted (series : List ChartSeries) : List Binary64 :=
  (series.flatMap (·.values)).filter isPlotted

theorem mem_plotted :
    v ∈ plotted series ↔ (∃ s ∈ series, v ∈ s.values) ∧ isPlotted v = true := by
  simp [plotted]

theorem isPlottable_iff : isPlottable series = true ↔ plotted series ≠ [] := by
  simp only [isPlottable, List.any_eq_true]
  constructor
  · rintro ⟨s, hs, v, hv, hp⟩
    exact List.ne_nil_of_mem (mem_plotted.mpr ⟨⟨s, hs, hv⟩, hp⟩)
  · intro hne
    obtain ⟨v, hmem⟩ := List.exists_mem_of_ne_nil _ hne
    obtain ⟨⟨s, hs, hv⟩, hp⟩ := mem_plotted.mp hmem
    exact ⟨s, hs, v, hv, hp⟩

theorem isPlottable_of_exists
    (h : ∃ s ∈ series, ∃ v ∈ s.values, zero false < v ∧ v.isFinite = true) :
    isPlottable series = true := by
  obtain ⟨s, hs, v, hv, hp⟩ := h
  exact isPlottable_iff.mpr
    (List.ne_nil_of_mem (mem_plotted.mpr ⟨⟨s, hs, hv⟩, isPlotted_iff.mpr hp⟩))

section Library

variable [MathLibrary]

theorem logs_eq (series : List ChartSeries) : logs series = (plotted series).map log10 := rfl

variable [LawfulMathLibrary]

theorem reached_log10 (hv : isPlotted v = true) : Axis.Reached v.log10 := by
  obtain ⟨hpos, hfinite⟩ := isPlotted_iff.mp hv
  exact ⟨isFinite_log10 hfinite hpos, abs_log10_le hfinite hpos⟩

/-- The least logarithm is finite exactly if there is one. -/
theorem isFinite_least_iff :
    ((logs series).foldl Binary64.min (inf false)).isFinite = isPlottable series := by
  rw [Bool.eq_iff_iff, isPlottable_iff]
  constructor
  · intro hfinite hnone
    rw [logs_eq, hnone, List.map_nil, List.foldl_nil] at hfinite
    exact absurd hfinite (by decide)
  · intro hne
    have hall : ∀ log ∈ logs series, log.isFinite = true := by
      intro log hlog
      obtain ⟨v, hv, rfl⟩ := List.mem_map.mp hlog
      exact (reached_log10 (mem_plotted.mp hv).2).finite
    exact hall _ (foldl_min_mem (List.map_eq_nil_iff.not.mpr hne) hall).1

/-- The axis of some series is in order, and the logarithms of their values lie on it. -/
theorem around_logs (hne : plotted series ≠ []) (rows : ℕ) :
    (∃ bottom top, (Axis.around (logs series) rows).Spans bottom top) ∧
      ∀ v ∈ plotted series, (Axis.around (logs series) rows).Holds v.log10 := by
  have hreached : ∀ log ∈ logs series, Axis.Reached log := by
    intro log hlog
    obtain ⟨v, hv, rfl⟩ := List.mem_map.mp hlog
    exact reached_log10 (mem_plotted.mp hv).2
  obtain ⟨hspans, hholds⟩ := Axis.around_spans (List.map_eq_nil_iff.not.mpr hne) hreached rows
  exact ⟨hspans, fun v hv => hholds _ (List.mem_map_of_mem hv)⟩

variable (hrows : rows < 2 ^ 53)
include hrows

/-- On fewer than `2 ^ 53` lines every plotted value has its line before lines are bounded. -/
theorem place_lt (hv : v ∈ plotted series) :
    (Axis.around (logs series) rows).place v.log10 < Nat.max rows 2 := by
  obtain ⟨⟨bottom, top, hspans⟩, hholds⟩ := around_logs (List.ne_nil_of_mem hv) rows
  have hle := hspans.place_le (max_le hrows.le (by norm_num)) (hholds v hv)
  rw [Axis.rows_around] at hle
  have : 2 ≤ Nat.max rows 2 := Nat.le_max_right _ _
  omega

theorem row_eq_place (hv : v ∈ plotted series) :
    (Axis.around (logs series) rows).row v.log10 =
      (Axis.around (logs series) rows).place v.log10 :=
  (Axis.row_eq _ _).trans (Nat.min_eq_left (Nat.le_sub_one_of_lt (place_lt hrows hv)))

/-- A greater value is never on a line further down. -/
theorem row_anti (hv : v ∈ plotted series) (hw : w ∈ plotted series) (h : v ≤ w) :
    (Axis.around (logs series) rows).row w.log10 ≤
      (Axis.around (logs series) rows).row v.log10 := by
  rw [row_eq_place hrows hv, row_eq_place hrows hw]
  obtain ⟨⟨bottom, top, hspans⟩, hholds⟩ := around_logs (List.ne_nil_of_mem hv) rows
  have hpos := (isPlotted_iff.mp (mem_plotted.mp hv).2).1
  have hfinite := (isPlotted_iff.mp (mem_plotted.mp hw).2).2
  exact hspans.place_anti (max_le hrows.le (by norm_num)) (hholds v hv) (hholds w hw)
    (worth_le_worth (log10_mono hpos hfinite h))

end Library

end Chart
end BucketOverflow
