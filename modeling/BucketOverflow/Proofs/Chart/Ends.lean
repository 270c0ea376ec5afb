import BucketOverflow.Proofs.Binary64.Relative
import BucketOverflow.Proofs.Chart.Plot
import BucketOverflow.Proofs.Decimal.Fixed

/-! The labels at the ends of a chart. The ends of the axis are whole numbers, and what is computed
for the first and the last line stays beside them; so their labels are these numbers. But a zero may
come with a minus sign: at the top when all values are less than one, and at the bottom when there
are so many lines that a product of 53 bits is passed. -/
namespace BucketOverflow
open Binary64 Text

namespace Chart.Axis

variable {a : Axis} {bottom top k : ℤ} {x y : Binary64} {n r : ℕ}

/-- How far below the upper end of an axis the logarithm written beside a line lies. -/
def labelDrop (a : Axis) (r : ℕ) : Binary64 := (a.high - a.low) * ofNat r / ofNat (a.rows - 1)

/-! What is taken from the upper end -/

/-- A drop by a whole number, up to rounding. -/
structure Drops (x : Binary64) (k : ℤ) : Prop where
  finite : x.isFinite = true
  not_neg : x.isNeg = false
  beside : Beside x k

/-- A drop from the upper end to a whole number leads beside it. -/
theorem Spans.beside_sub (h : Spans a bottom top) (hx : Drops x (top - k))
    (hk : k.natAbs ≤ 2 ^ 40) : Beside (a.high - x) k := by
  refine beside_of_isNearest (isNearest_sub h.isFinite_high hx.finite) hk ?_
  have hswap : a.high.worth - x.worth - k * 2 ^ unitExp =
      -(x.worth - (top - k : ℤ) * 2 ^ unitExp) := by
    rw [h.high]
    push_cast
    ring
  rw [hswap, abs_neg]
  exact hx.beside

theorem beside_of_worth (h : x.worth = k * 2 ^ unitExp) : Beside x k := by
  rw [Beside, h, sub_self, abs_zero]
  positivity

/-- Relative errors of two roundings are small beside the length of an axis. -/
theorem beside_of_near (h : Near (1 + 1 / 2 ^ 51) x.worth (k * 2 ^ unitExp)) (h0 : 0 ≤ k)
    (hk : k ≤ 800) : Beside x k := by
  obtain ⟨habove, hbelow⟩ := h
  have hlow : (0 : ℚ) ≤ k := by exact_mod_cast h0
  have hhigh : (k : ℚ) ≤ 800 := by exact_mod_cast hk
  have hone : (0 : ℚ) < 2 ^ unitExp := by positivity
  have hlength : k * (2 : ℚ) ^ unitExp ≤ 800 * 2 ^ unitExp :=
    mul_le_mul_of_nonneg_right hhigh hone.le
  rw [Beside, abs_le]
  generalize (2 : ℚ) ^ unitExp = unit at *
  constructor <;> linarith

/-- Whatever is worth at least one is far above the first binade. -/
theorem two_pow_le_of_one_le {q : ℚ} (h : 1 ≤ q) : (2 : ℚ) ^ 54 ≤ q * 2 ^ unitExp := by
  calc (2 : ℚ) ^ 54 ≤ 1 * 2 ^ unitExp := by
        rw [one_mul]
        exact pow_le_pow_right₀ (by norm_num) (by decide)
    _ ≤ q * 2 ^ unitExp := mul_le_mul_of_nonneg_right h (by positivity)

/-- What is nearest to a number that one rounding keeps from a whole one drops by that one. -/
theorem drops_of_near {q : ℚ} (hx : IsNearest x q) (hneg : x.isNeg = false)
    (hq : Near (1 + roundoff) q (k * 2 ^ unitExp)) (hk : 1 ≤ k) (hk800 : k ≤ 800) : Drops x k := by
  have hone : (0 : ℚ) < 2 ^ unitExp := by positivity
  have hround : 1 ≤ 1 + roundoff ∧ 1 + roundoff ≤ 2 := by norm_num [roundoff]
  have hk0 : (1 : ℚ) ≤ k := by exact_mod_cast hk
  have hlength : k * (2 : ℚ) ^ unitExp ≤ 800 * 2 ^ unitExp :=
    mul_le_mul_of_nonneg_right (by exact_mod_cast hk800) hone.le
  have hfits : Fits x 1600 unitExp := by
    refine hx.fits hneg (by decide) (by decide) (hq.le_mul.trans ?_)
    calc k * (2 : ℚ) ^ unitExp * (1 + roundoff) ≤ 800 * 2 ^ unitExp * 2 :=
          mul_le_mul hlength hround.2 (by linarith) (by positivity)
      _ = (1600 : ℕ) * 2 ^ unitExp := by
          push_cast
          ring
  have hlarge : (2 : ℚ) ^ 53 ≤ q := by
    refine hq.le_of_mul_le (by linarith) ?_
    calc (2 : ℚ) ^ 53 * (1 + roundoff) ≤ 2 ^ 53 * 2 :=
          mul_le_mul_of_nonneg_left hround.2 (by positivity)
      _ = 2 ^ 54 := by norm_num
      _ ≤ k * 2 ^ unitExp := two_pow_le_of_one_le hk0
  have hboth := (hx.near hfits.finite hlarge).trans hq (by linarith) (by linarith)
  have hclose := hboth.mono (d := 1 + 1 / 2 ^ 51) (by norm_num [roundoff]) hfits.worth_nonneg
    (by positivity)
  exact ⟨hfits.finite, hneg, beside_of_near hclose (by omega) hk800⟩

section
variable {w : Binary64} (hw : w.worth = k * 2 ^ unitExp) (hk : 1 ≤ k) (hk800 : k ≤ 800)
  (hn : 1 ≤ n) (hn53 : n ≤ 2 ^ 53)
include hw hk hk800 hn hn53

/-- The product of two whole numbers, up to rounding. -/
theorem mul_of_whole : IsNearest (w * ofNat n) ((k * n : ℤ) * 2 ^ unitExp) ∧
    Fits (w * ofNat n) 800 (53 + unitExp) ∧
    Near (1 + roundoff) (w * ofNat n).worth (k * n * 2 ^ unitExp) := by
  have hone : (0 : ℚ) < 2 ^ unitExp := by positivity
  have hfinite : w.isFinite = true := isFinite_of_whole hw (by omega)
  have hk0 : (1 : ℚ) ≤ k := by exact_mod_cast hk
  have hn0 : (1 : ℚ) ≤ n := by exact_mod_cast hn
  have hneg : (w * ofNat n).isNeg = false := by
    rw [isNeg_mul hfinite (isFinite_ofNat_of_le hn53), isNeg_of_worth_pos (hw ▸ by positivity),
      isNeg_ofNat]
    rfl
  have hexact : w.worth * (ofNat n).worth / 2 ^ unitExp = k * n * 2 ^ unitExp := by
    rw [hw, worth_ofNat (hn53.trans (by decide))]
    field_simp
  have hnear := isNearest_mul hfinite (isFinite_ofNat_of_le hn53)
  rw [hexact] at hnear
  have hle : k * n * (2 : ℚ) ^ unitExp ≤ (800 : ℕ) * 2 ^ (53 + unitExp) := by
    have hkn : (k : ℚ) * n ≤ 800 * 2 ^ 53 := by
      have : (k : ℚ) ≤ 800 := by exact_mod_cast hk800
      have : (n : ℚ) ≤ 2 ^ 53 := by exact_mod_cast hn53
      gcongr
    calc k * n * (2 : ℚ) ^ unitExp ≤ 800 * 2 ^ 53 * 2 ^ unitExp :=
          mul_le_mul_of_nonneg_right hkn hone.le
      _ = (800 : ℕ) * 2 ^ (53 + unitExp) := by
          rw [pow_add, ← mul_assoc]
          norm_num
  have hfits := hnear.fits hneg (show 800 ≤ 2 * hiddenBit by decide) (by decide) hle
  have hlarge : (2 : ℚ) ^ 54 ≤ k * n * 2 ^ unitExp :=
    two_pow_le_of_one_le (one_le_mul_of_one_le_of_one_le hk0 hn0)
  refine ⟨?_, hfits, hnear.near hfits.finite (le_trans (by norm_num) hlarge)⟩
  push_cast
  exact hnear

/-- Divided by one of the numbers it is the other, up to rounding, and exactly so if the product is
exact. -/
theorem drops_mul_div : Drops (w * ofNat n / ofNat n) k ∧
    (k * n ≤ 2 ^ 53 → (w * ofNat n / ofNat n).worth = k * 2 ^ unitExp) := by
  obtain ⟨hproduct, hfits, hnear⟩ := mul_of_whole hw hk hk800 hn hn53
  have hn0 : (0 : ℚ) < n := by exact_mod_cast hn
  have hcount : (ofNat n).isFinite = true := isFinite_ofNat_of_le hn53
  have hmag : (ofNat n).mag ≠ 0 := mag_ofNat_ne_zero hn
  have hquotient := isNearest_div hfits.finite hcount hmag
  have hscale : (w * ofNat n).worth * 2 ^ unitExp / (ofNat n).worth =
      (w * ofNat n).worth * (n : ℚ)⁻¹ := by
    rw [worth_ofNat (hn53.trans (by decide))]
    field_simp
  rw [hscale] at hquotient
  have hback : k * n * (2 : ℚ) ^ unitExp * (n : ℚ)⁻¹ = k * 2 ^ unitExp := by
    field_simp
  have hnear' := hnear.mul_right (inv_nonneg.mpr hn0.le)
  rw [hback] at hnear'
  have hneg : (w * ofNat n / ofNat n).isNeg = false := by
    rw [isNeg_div hfits.finite hcount hmag, hfits.not_neg, isNeg_ofNat]
    rfl
  refine ⟨drops_of_near hquotient hneg hnear' hk hk800, fun hexact => ?_⟩
  have hpos : 0 ≤ k * (n : ℤ) := mul_nonneg (by omega) (Nat.cast_nonneg n)
  have hproduct' := hproduct.worth_eq_whole (by omega)
  rw [hproduct'] at hquotient
  push_cast at hquotient
  rw [hback] at hquotient
  exact hquotient.worth_eq_whole (by omega)
end

/-- When more is taken for the last line than there is above zero. -/
def Overshoots (a : Axis) (bottom : ℤ) : Prop := bottom = 0 ∧ a.high < a.labelDrop (a.rows - 1)

instance : Decidable (a.Overshoots bottom) := inferInstanceAs (Decidable (_ ∧ _))

theorem label_of_end (hr : r = 0 ∨ r = a.rows - 1) :
    a.label r = (a.high - a.labelDrop r).signed [] (fixedPlaces 1) := by
  rw [label, if_pos (by rcases hr with hr | hr <;> simp [hr])]
  rfl

section
variable (h : Spans a bottom top) (hlines : 2 ≤ a.rows) (hrows : a.rows ≤ 2 ^ 53)
include h hlines hrows

/-- Nothing is taken for the first line. -/
theorem Spans.drops_top : Drops (a.labelDrop 0) (top - top) ∧ (a.labelDrop 0).worth = 0 := by
  obtain ⟨-, hspan, hpos⟩ := h.width
  have hcount : (ofNat (a.rows - 1)).isFinite = true :=
    isFinite_ofNat_of_le ((Nat.sub_le _ _).trans hrows)
  have hmag : (ofNat (a.rows - 1)).mag ≠ 0 := mag_ofNat_ne_zero (by omega)
  have hzero : (ofNat 0).worth = 0 := by rw [worth_ofNat (Nat.zero_le _), Nat.cast_zero, zero_mul]
  have hproduct : (a.high - a.low) * ofNat 0 = zero false := by
    rw [mul_eq_zero_of_worth hspan (isFinite_ofNat_of_le (Nat.zero_le _))
      (by rw [hzero, mul_zero]), isNeg_of_worth_pos hpos, isNeg_ofNat]
    rfl
  have hdrop : a.labelDrop 0 = zero false / ofNat (a.rows - 1) := by rw [labelDrop, hproduct]
  have hnear := isNearest_div (isFinite_zero false) hcount hmag
  have hwhole : IsNearest (a.labelDrop 0) ((top - top : ℤ) * 2 ^ unitExp) := by
    rw [worth_zero, zero_mul, zero_div] at hnear
    rwa [hdrop, sub_self, Int.cast_zero, zero_mul]
  have hworth := hwhole.worth_eq_whole (by rw [sub_self]; decide)
  have hneg : (a.labelDrop 0).isNeg = false := by
    rw [hdrop, isNeg_div (isFinite_zero false) hcount hmag, isNeg_ofNat]
    rfl
  refine ⟨⟨isFinite_of_whole hworth (by rw [sub_self]; decide), hneg, beside_of_worth hworth⟩, ?_⟩
  rw [hworth, sub_self, Int.cast_zero, zero_mul]

/-- For the last line the whole axis is taken, and exactly so as long as its length times the number
of steps has room in 53 bits. -/
theorem Spans.drops_bottom : Drops (a.labelDrop (a.rows - 1)) (top - bottom) ∧
    ((top - bottom) * (a.rows - 1 : ℕ) ≤ 2 ^ 53 →
      (a.labelDrop (a.rows - 1)).worth = (top - bottom : ℤ) * 2 ^ unitExp) := by
  have hends := h.lt
  have hlow := h.bottom_ge
  have hhigh := h.top_le
  exact drops_mul_div h.width.1 (by omega) (by omega) (by omega)
    ((Nat.sub_le a.rows 1).trans hrows)

/-- Above the whole plot stands the upper end, but a zero keeps its sign. -/
theorem Spans.label_top : a.label 0 =
    if top = 0 ∧ a.high.isNeg = true then "-0.0".toList else wholeText top := by
  obtain ⟨hdrops, hworth⟩ := h.drops_top hlines hrows
  have hlow := h.bottom_ge
  have hhigh := h.top_le
  have hends := h.lt
  rw [label_of_end (.inl rfl), (h.beside_sub hdrops (by omega)).signed_eq (by omega),
    isNeg_sub h.isFinite_high hdrops.finite, hdrops.not_neg, hworth, h.high]
  congr 1
  simp +contextual

/-- Below the whole plot stands the lower end, but a zero has a sign if too much was taken. -/
theorem Spans.label_bottom : a.label (a.rows - 1) =
    if a.Overshoots bottom then "-0.0".toList else wholeText bottom := by
  obtain ⟨hdrops, -⟩ := h.drops_bottom hlines hrows
  have hlow := h.bottom_ge
  have hhigh := h.top_le
  have hends := h.lt
  rw [label_of_end (.inr rfl), (h.beside_sub hdrops (by omega)).signed_eq (by omega),
    isNeg_sub h.isFinite_high hdrops.finite]
  refine if_congr (and_congr_right fun hzero => ?_) rfl rfl
  have hpos : 0 < a.high.worth := by
    have : (0 : ℚ) < top := by exact_mod_cast (show 0 < top by omega)
    rw [h.high]
    positivity
  rw [isNeg_of_worth_pos hpos, worth_lt_iff h.isFinite_high hdrops.finite]
  simp

theorem Spans.lt_of_overshoots (hover : a.Overshoots bottom) :
    2 ^ 53 < top * (a.rows - 1 : ℕ) := by
  obtain ⟨rfl, hlt⟩ := hover
  obtain ⟨hdrops, hexact⟩ := h.drops_bottom hlines hrows
  rw [sub_zero] at hexact
  by_contra hle
  rw [worth_lt_iff h.isFinite_high hdrops.finite, hexact (not_lt.mp hle), h.high] at hlt
  exact hlt.false

end

end Chart.Axis

/-! The ends of a chart -/

namespace Chart

variable {series : List ChartSeries} {bottom top : ℤ} {rows : ℕ} {v : Binary64}

section Library

variable [MathLibrary]

/-- The whole numbers at the ends of an axis: the least one above all logarithms, and the greatest
one below them, but one less than the other where they meet. -/
structure Ends (series : List ChartSeries) (bottom top : ℤ) : Prop where
  top_least : IsLeast {k : ℤ | ∀ v ∈ plotted series, v.log10.worth ≤ k * 2 ^ unitExp} top
  bottom_greatest : ∃ k,
    IsGreatest {k : ℤ | ∀ v ∈ plotted series, k * 2 ^ unitExp ≤ v.log10.worth} k ∧
      bottom = if k = top then top - 1 else k

theorem forall_logs_iff {p : Binary64 → Prop} :
    (∀ log ∈ logs series, p log) ↔ ∀ v ∈ plotted series, p v.log10 := by
  rw [logs_eq, List.forall_mem_map]

/-- A line of the plot with some label. -/
def labelled (label : List Char) (series : List ChartSeries) (rows r : ℕ) : List Char :=
  padLeft labelWidth ' ' label ++ ' ' :: '|' :: body series rows r

variable [LawfulMathLibrary]

theorem exists_ends (hne : plotted series ≠ []) (rows : ℕ) :
    ∃ bottom top, Ends series bottom top ∧
      (Axis.around (logs series) rows).Spans bottom top := by
  obtain ⟨bottom, top, hbounds, hspans⟩ := Axis.around_bounds
    (List.map_eq_nil_iff.not.mpr hne)
    (forall_logs_iff.mpr fun v hv => reached_log10 (mem_plotted.mp hv).2) rows
  refine ⟨_, top, ⟨⟨?_, fun k hk => ?_⟩, bottom, ⟨?_, fun k hk => ?_⟩, rfl⟩, hspans⟩
  · exact forall_logs_iff.mp ((hbounds.top_iff top).mpr le_rfl)
  · exact (hbounds.top_iff k).mp (forall_logs_iff.mpr hk)
  · exact forall_logs_iff.mp ((hbounds.bottom_iff bottom).mpr le_rfl)
  · exact (hbounds.bottom_iff k).mp (forall_logs_iff.mpr hk)

/-- The upper end has a minus sign, also where it is zero, exactly if all values are less than
one. -/
theorem isNeg_high_iff (hne : plotted series ≠ []) :
    (Axis.around (logs series) rows).high.isNeg = true ↔ ∀ v ∈ plotted series, v < one := by
  have hreached : ∀ log ∈ logs series, Axis.Reached log :=
    forall_logs_iff.mpr fun v hv => reached_log10 (mem_plotted.mp hv).2
  have hlogs : logs series ≠ [] := List.map_eq_nil_iff.not.mpr hne
  obtain ⟨hmem, hmax⟩ := foldl_max_mem hlogs fun log hlog => (hreached log hlog).finite
  have hhigh : (Axis.around (logs series) rows).high =
      ((logs series).foldl Binary64.max (inf true)).ceil := rfl
  rw [hhigh, Binary64.ceil, isNeg_toWhole _ (hreached _ hmem).finite]
  obtain ⟨w, hw, hlog⟩ := List.mem_map.mp hmem
  obtain ⟨hpos, hfinite⟩ := isPlotted_iff.mp (mem_plotted.mp hw).2
  rw [← hlog] at hmax ⊢
  rw [isNeg_log10_iff hfinite hpos]
  refine ⟨fun hlt v hv => ?_, fun h => h w hw⟩
  -- a logarithm below a negative one is negative
  obtain ⟨hpos', hfinite'⟩ := isPlotted_iff.mp (mem_plotted.mp hv).2
  rw [← isNeg_log10_iff hfinite' hpos']
  by_contra hn
  have hle := hmax _ (List.mem_map_of_mem hv)
  have := worth_nonneg (Bool.eq_false_iff.mpr hn)
  have := worth_log10_neg hpos hlt
  linarith

/-- A chart with something to plot, if the labels of its depths have room, has for its first label
the least whole number above all logarithms and for its last one the greatest below them, or one
less than the first where they meet. But zero is written with a minus sign: at the top if no value
reaches one, at the bottom if there are so many lines that rounding takes too much. -/
theorem render_ends (hpos : ∃ s ∈ series, ∃ v ∈ s.values, zero false < v ∧ v.isFinite = true)
    (hrows : rows < 2 ^ 53) (title : String) :
    (∀ t, render series title rows = .ok t ↔ LabelsFit (depthCount series) ∧
      t = ended (heading title ++
        (List.range (Nat.max rows 2)).map (plotLine series rows) ++ footing series)) ∧
    ∃ bottom top, Ends series bottom top ∧
      plotLine series rows 0 = labelled (if top = 0 ∧ ∀ v ∈ plotted series, v < one
        then "-0.0".toList else wholeText top) series rows 0 ∧
      plotLine series rows (Nat.max rows 2 - 1) = labelled
        (if (Axis.around (logs series) rows).Overshoots bottom
          then "-0.0".toList else wholeText bottom) series rows (Nat.max rows 2 - 1) ∧
      ((Axis.around (logs series) rows).Overshoots bottom →
        2 ^ 53 < top * (Nat.max rows 2 - 1 : ℕ)) := by
  have hplot := isPlottable_of_exists hpos
  have hne := isPlottable_iff.mp hplot
  obtain ⟨bottom, top, hends, hspans⟩ := exists_ends hne rows
  have hlines : 2 ≤ (Axis.around (logs series) rows).rows := Nat.le_max_right _ _
  have hmany : (Axis.around (logs series) rows).rows ≤ 2 ^ 53 := max_le hrows.le (by norm_num)
  refine ⟨fun t => ⟨fun h => ?_, ?_⟩, bottom, top, hends, ?_, ?_, ?_⟩
  · have hfit := render_ok_iff.mp ⟨t, h⟩ hplot
    rw [render_of_fit hfit, text, lines_eq hplot] at h
    exact ⟨hfit, (Except.ok.inj h).symm⟩
  · rintro ⟨hfit, rfl⟩
    rw [render_of_fit hfit, text, lines_eq hplot, ended]
  · rw [plotLine, labelled, hspans.label_top hlines hmany]
    simp only [isNeg_high_iff hne]
  · exact congrArg (labelled · series rows _) (hspans.label_bottom hlines hmany)
  · exact hspans.lt_of_overshoots hlines hmany

end Library

/-- From one to a thousand the axis is three long, and on the way down the product is rounded up. -/
example : (Axis.around (logs [⟨"p", [one, ofNat 1000]⟩]) 3002399751580334).Overshoots 0 := by
  decide +kernel

/-- One series with one value, a half. -/
def oneHalf : List ChartSeries := [⟨"p", [⟨0x3fe0000000000000⟩]⟩]

/-- The logarithm of a half lies between minus one and zero. -/
theorem isLeast_oneHalf :
    IsLeast {k : ℤ | ∀ v ∈ plotted oneHalf, v.log10.worth ≤ k * 2 ^ unitExp} 0 := by
  have hone : (0 : ℚ) < 2 ^ unitExp := by positivity
  have hplotted : plotted oneHalf = [⟨0x3fe0000000000000⟩] := by decide +kernel
  simp only [hplotted, List.mem_singleton, forall_eq]
  constructor
  · rw [Set.mem_ofPred_eq, Int.cast_zero, zero_mul]
    exact (worth_log10_neg (by decide) (by decide)).le
  · intro k hk
    rw [Set.mem_ofPred_eq] at hk
    have hlow : -one < log10 ⟨0x3fe0000000000000⟩ := by decide +kernel
    rw [worth_lt_iff (by decide) (by decide +kernel), worth_neg, worth_one] at hlow
    have hmul : (-1 : ℚ) * 2 ^ unitExp < k * 2 ^ unitExp := by linarith
    have hlt : (-1 : ℚ) < k := lt_of_mul_lt_mul_right hmul hone.le
    have : -1 < k := by exact_mod_cast hlt
    omega

theorem render_ends_oneHalf : (∃ t, render oneHalf "t" 2 = .ok t) ∧
    plotLine oneHalf 2 0 = labelled "-0.0".toList oneHalf 2 0 := by
  have hpos : ∃ s ∈ oneHalf, ∃ v ∈ s.values, zero false < v ∧ v.isFinite = true :=
    ⟨_, List.mem_singleton_self _, _, List.mem_singleton_self _, by decide⟩
  have hrows : 2 < 2 ^ 53 := by norm_num
  obtain ⟨hrender, bottom, top, hends, htop, -⟩ := render_ends hpos hrows "t"
  have hzero : top = 0 := hends.top_least.unique isLeast_oneHalf
  have hbelow : ∀ v ∈ plotted oneHalf, v < one := by decide +kernel
  rw [if_pos ⟨hzero, hbelow⟩] at htop
  exact ⟨⟨_, (hrender _).mpr ⟨labelsFit_of_le (by decide), rfl⟩⟩, htop⟩

/-- For a half the upper end is zero, and the sign that its label has shows in the text. -/
theorem render_oneHalf :
    IsLeast {k : ℤ | ∀ v ∈ plotted oneHalf, v.log10.worth ≤ k * 2 ^ unitExp} 0 ∧
      render oneHalf "t" 2 = .ok ("t\nlog10 P(load > Z)\n    -0.0 | *\n    -1.0 |\n" ++
        "         +---\n           0\n          Depth (d)\nLegend: * p\n") ∧
      plotLine oneHalf 2 0 ≠ labelled "0.0".toList oneHalf 2 0 := by
  refine ⟨isLeast_oneHalf, ?_, by decide +kernel⟩
  rw [render_of_fit (labelsFit_of_le (by decide))]
  exact congrArg Except.ok (by decide +kernel)

end Chart
end BucketOverflow
