import BucketOverflow.Proofs.Sweep.Peak

/-! The peak of a clamped sweep with saturated depths. Its probability is one, and it stands at the
first depth whose probability is one. That is the first saturated depth, unless a bounded depth
before it has so small an exponent that its exponential rounds to one. -/
namespace BucketOverflow
open Binary64

/-! Exponentials that round to one -/

namespace Binary64

variable {t : Binary64}

variable [MathLibrary] [LawfulMathLibrary]

/-- The exponential of minus an exponent is one exactly if the exponent is at most `2 ^ -54`. -/
theorem exp_neg_eq_one_iff (ht : t.isNaN = false) (hn : t.isNeg = false) :
    exp (-t) = one ↔ t ≤ faint := by
  have hfaint : faint.isNaN = false := by decide +kernel
  have hkey : faint.key = faint.mag := key_of_not_isNeg (isNeg_twoPowNeg 54)
  constructor
  · intro h
    by_contra hle
    have hlt : faint.key < t.key := (lt_iff.mp ((Binary64.not_le ht hfaint).mp hle)).2.2
    have hmag : faint.mag + 1 < 2 ^ 63 := by decide +kernel
    have hnext : ofMag false (faint.mag + 1) ≤ t := by
      refine le_of_key (by decide +kernel) ht ?_
      rw [key_of_not_isNeg (isNeg_ofMag false hmag), mag_ofMag false hmag]
      omega
    have hone : one ≤ exp (-t) := by
      rw [h]
      exact Binary64.le_refl (isNaN_of_isFinite isFinite_one)
    exact exp_neg_faint_succ (Binary64.le_trans hone (exp_mono (neg_le_neg hnext)))
  · intro h
    have hge : one ≤ exp (-t) := exp_neg_faint ▸ exp_mono (neg_le_neg h)
    have hle : exp (-t) ≤ one := exp_le_one (neg_le_zero ht hn)
    exact eq_of_key_eq (isNeg_exp (by simpa using ht)) isNeg_one
      (le_antisymm (key_le hle) (key_le hge))

end Binary64

/-- A depth that is saturated, or bounded with an exponent whose exponential is one. -/
def SweepRow.Certain (capacity : ℕ) (r : SweepRow) : Prop :=
  r.regime = .saturated ∨
    r.regime = .bounded ∧ chernoffExponent (ofNat capacity) r.load ≤ faint

namespace Sweep

variable {p : Params} {d : ℕ}

section Library

variable [MathLibrary]

theorem sorted_saturatedDepths_grid (p : Params) : (grid p).saturatedDepths.Pairwise (· < ·) := by
  simp only [saturatedDepths, rows_grid, List.filter_map, List.map_map]
  rw [List.pairwise_map]
  exact List.Pairwise.filter _ List.pairwise_lt_range

/-- The first saturated depth is the least. -/
theorem le_of_head?_saturatedDepths {first : ℕ}
    (hfirst : (grid p).saturatedDepths.head? = some first) (hd : d ∈ (grid p).saturatedDepths) :
    first ≤ d := by
  have hsorted := sorted_saturatedDepths_grid p
  obtain ⟨rest, hrest⟩ := List.head?_eq_some_iff.mp hfirst
  rw [hrest] at hd hsorted
  rcases List.mem_cons.mp hd with rfl | hd
  · exact le_rfl
  · exact (List.rel_of_pairwise_cons hsorted hd).le

variable [LawfulMathLibrary]

/-- Probability one is given to the certain depths alone. -/
theorem certain_rowAt_iff (hv : p.Valid) (hs : p.tailPolicy = .saturating)
    (hd : d ≤ p.maxDepth.toNat) :
    (rowAt p d).Certain p.capacity.toNat ↔ (estimateAt p d).probability = one := by
  have hl := fits_loadAt hv hd
  have he := estimateAt_sound hv hd
  cases hr : (estimateAt p d).regime with
  | zeroLoad =>
    have hne : zero false ≠ one := by decide
    simp [SweepRow.Certain, rowAt, hr, he.zeroLoad_probability hr, hne]
  | saturated => simp [SweepRow.Certain, rowAt, hr, he.saturated_probability hr hs]
  | bounded =>
    obtain ⟨hne, hcap⟩ := he.bounded_iff.mp hr
    have hpos : ¬loadAt p d ≤ zero false := fun h =>
      hne ((le_zero_iff_eq hl.not_nan hl.not_neg).mp h)
    have hexp := fits_chernoffExponent hv.capacity_pos p.capacity.toNat_lt hl
    have hprob : (estimateAt p d).probability =
        exp (-(chernoffExponent (ofNat p.capacity.toNat) (loadAt p d))) := by
      simp only [estimateAt, overflowProbability, hpos, hcap, ↓reduceIte]
    rw [hprob, exp_neg_eq_one_iff hexp.not_nan hexp.not_neg]
    simp [SweepRow.Certain, rowAt, hr]

/-- The peak of a clamped sweep with a saturated depth. -/
theorem peak_grid_saturated (hv : p.Valid) (hs : p.tailPolicy = .saturating)
    (hd : d ∈ (grid p).saturatedDepths) : (grid p).peak.probability = one := by
  obtain ⟨hle, hsat⟩ := mem_saturatedDepths_grid.mp hd
  obtain ⟨hpeak, hprob, hall⟩ := peak_grid hv
  have hunit := (estimateAt_sound hv hpeak).probability_unit
  have hone := hall d hle
  rw [(estimateAt_sound hv hle).saturated_probability hsat hs] at hone
  rw [← hprob] at hunit
  exact eq_of_key_eq hunit.not_neg isNeg_one
    (le_antisymm (key_le hunit.le_one) (key_le hone))

theorem certain_peak (hv : p.Valid) (hs : p.tailPolicy = .saturating)
    (hone : (grid p).peak.probability = one) :
    (rowAt p (grid p).peak.depth).Certain p.capacity.toNat := by
  obtain ⟨hpeak, hprob, -⟩ := peak_grid hv
  exact (certain_rowAt_iff hv hs hpeak).mpr (hprob ▸ hone)

theorem peak_le_of_certain (hv : p.Valid) (hs : p.tailPolicy = .saturating)
    (hone : (grid p).peak.probability = one) (hd : d ≤ p.maxDepth.toNat)
    (hcertain : (rowAt p d).Certain p.capacity.toNat) : (grid p).peak.depth ≤ d := by
  by_contra hlt
  apply peak_grid_first hv (not_le.mp hlt)
  rw [hone, (certain_rowAt_iff hv hs hd).mp hcertain]
  exact Binary64.le_refl (isNaN_of_isFinite isFinite_one)

/-- A bounded depth alone can come before the first saturated one. -/
theorem peak_eq_first_iff (hv : p.Valid) (hs : p.tailPolicy = .saturating) {first : ℕ}
    (hfirst : (grid p).saturatedDepths.head? = some first) :
    (grid p).peak.depth = first ↔ ∀ r ∈ (grid p).rows, r.depth < first → r.regime = .bounded →
      ¬chernoffExponent (ofNat p.capacity.toNat) r.load ≤ faint := by
  have hmem : first ∈ (grid p).saturatedDepths := List.mem_of_mem_head? hfirst
  have hone := peak_grid_saturated hv hs hmem
  obtain ⟨hle, hsat⟩ := mem_saturatedDepths_grid.mp hmem
  constructor
  · rintro hpeak r hr hlt hbounded hexp
    obtain ⟨d, hd, rfl⟩ := mem_rows_grid.mp hr
    have hearly := peak_le_of_certain hv hs hone hd (.inr ⟨hbounded, hexp⟩)
    exact absurd (hpeak ▸ hearly) (not_le.mpr hlt)
  · intro hnone
    have hpeak := (peak_grid hv).1
    apply le_antisymm (peak_le_of_certain hv hs hone hle (.inl hsat))
    rcases certain_peak hv hs hone with hsat' | ⟨hbounded, hexp⟩
    · exact le_of_head?_saturatedDepths hfirst (mem_saturatedDepths_grid.mpr ⟨hpeak, hsat'⟩)
    · by_contra hlt
      exact hnone _ (mem_rows_grid.mpr ⟨_, hpeak, rfl⟩) (not_le.mp hlt) hbounded hexp

/-- Where a clamped sweep has saturated depths, its peak has probability one and stands at the first
certain depth. It stands at the first saturated one exactly if no bounded depth before that one is
certain. -/
theorem run_peak_saturated (p : Params) (h : p.validate = .ok ())
    (hs : p.tailPolicy = .saturating) : ∃ s, run p = .ok s ∧
      ∀ first, s.saturatedDepths.head? = some first →
        s.peak.probability = one ∧
        (∃ r ∈ s.rows, r.depth = s.peak.depth ∧ r.Certain p.capacity.toNat) ∧
        (∀ r ∈ s.rows, r.Certain p.capacity.toNat → s.peak.depth ≤ r.depth) ∧
        (s.peak.depth = first ↔ ∀ r ∈ s.rows, r.depth < first → r.regime = .bounded →
          ¬chernoffExponent (ofNat p.capacity.toNat) r.load ≤ faint) := by
  have hv := Params.valid_of_validate h
  refine ⟨grid p, run_eq_grid h, fun first hfirst => ?_⟩
  have hone := peak_grid_saturated hv hs (List.mem_of_mem_head? hfirst)
  refine ⟨hone, ⟨_, mem_rows_grid.mpr ⟨_, (peak_grid hv).1, rfl⟩, rfl, certain_peak hv hs hone⟩, ?_,
    peak_eq_first_iff hv hs hfirst⟩
  intro r hr hcertain
  obtain ⟨d, hd, rfl⟩ := mem_rows_grid.mp hr
  exact peak_le_of_certain hv hs hone hd hcertain

end Library

/-- Loads that reach the capacity at depth one: the depth above it is bounded, and no peak. -/
theorem run_peak_saturated_second : ∃ p : Params, p.validate = .ok () ∧
    p.tailPolicy = .saturating ∧ ∃ s, run p = .ok s ∧ s.saturatedDepths.head? = some 1 ∧
      s.regimes[0]? = some .bounded ∧ s.peak.probability = one ∧ s.peak.depth = 1 := by
  let p : Params := ⟨20, 1000, 10, 3, 3, .saturating⟩
  have h : p.validate = .ok () := rfl
  obtain ⟨s, hrun, hall⟩ := run_peak_saturated p h rfl
  obtain rfl : grid p = s := Except.ok.inj ((run_eq_grid h).symm.trans hrun)
  have hfirst : (grid p).saturatedDepths.head? = some 1 := by decide +kernel
  obtain ⟨hone, -, -, hiff⟩ := hall 1 hfirst
  refine ⟨p, h, rfl, _, hrun, hfirst, by decide +kernel, hone, hiff.mpr fun r hr hlt _ => ?_⟩
  obtain ⟨d, -, rfl⟩ := mem_rows_grid.mp hr
  obtain rfl : d = 0 := Nat.lt_one_iff.mp hlt
  decide +kernel

/-- One place for just below one expected item: the exponential of the root's exponent rounds to
one, so that the root takes the peak from the saturated depth below it. -/
theorem run_peak_rounded : ∃ p : Params, p.validate = .ok () ∧ p.tailPolicy = .saturating ∧
    ∃ s, run p = .ok s ∧ s.saturatedDepths = [1] ∧ s.regimes[0]? = some .bounded ∧
      s.peak.probability = one ∧ s.peak.depth = 0 := by
  let p : Params := ⟨1, 63, 6, 1, 5, .saturating⟩
  have h : p.validate = .ok () := rfl
  exact ⟨p, h, rfl, grid p, run_eq_grid h, by decide +kernel, by decide +kernel, by decide +kernel,
    by decide +kernel⟩

end Sweep
end BucketOverflow
