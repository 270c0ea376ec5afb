import BucketOverflow.Proofs.Sweep.Peak

/-! The two tail policies. They see the same loads and the same regimes, and part at saturated
depths alone: there one reports certainty, and the other what the bound gives above the capacity. -/
namespace BucketOverflow
open Binary64

variable {capacity : ℕ} {load clamped literal : Binary64} {a b : TailPolicy} {regime : Regime}

/-- The probabilities that the two policies give to one depth. -/
structure Clamped (regime : Regime) (clamped literal : Binary64) : Prop where
  unsaturated : regime ≠ .saturated → clamped = literal
  saturated : regime = .saturated → clamped = one
  literal_unit : InUnit literal

theorem Clamped.literal_le (h : Clamped regime clamped literal) : literal ≤ clamped := by
  by_cases hr : regime = .saturated
  · rw [h.saturated hr]
    exact h.literal_unit.le_one
  · rw [h.unsaturated hr]
    exact Binary64.le_refl h.literal_unit.not_nan

section Library

variable [MathLibrary]

/-- Where a load lies is no matter of policy. -/
theorem regime_overflowProbability (capacity : ℕ) (load : Binary64) (a b : TailPolicy) :
    (overflowProbability capacity load a).regime =
      (overflowProbability capacity load b).regime := by
  by_cases hzero : load ≤ zero false
  · simp only [overflowProbability, hzero, ↓reduceIte]
  · by_cases hcap : ofNat capacity ≤ load
    · simp only [overflowProbability, hzero, hcap, ↓reduceIte]
    · simp only [overflowProbability, hzero, hcap, ↓reduceIte]

/-- Policies agree on every load that is not saturated. -/
theorem probability_overflowProbability
    (h : (overflowProbability capacity load a).regime ≠ .saturated) :
    (overflowProbability capacity load a).probability =
      (overflowProbability capacity load b).probability := by
  by_cases hzero : load ≤ zero false
  · simp only [overflowProbability, hzero, ↓reduceIte]
  · by_cases hcap : ofNat capacity ≤ load
    · simp only [overflowProbability, hzero, hcap, ↓reduceIte, ne_eq, not_true_eq_false] at h
    · simp only [overflowProbability, hzero, hcap, ↓reduceIte]

variable [LawfulMathLibrary]

theorem clamped_overflowProbability (hc0 : 0 < capacity) (hc : capacity < 2 ^ 64)
    (hl : Fits load 1 (96 + unitExp)) :
    Clamped (overflowProbability capacity load .saturating).regime
      (overflowProbability capacity load .saturating).probability
      (overflowProbability capacity load .literal).probability where
  unsaturated := probability_overflowProbability
  saturated hr := (overflowProbability_sound hc0 hc hl .saturating).saturated_probability hr rfl
  literal_unit := (overflowProbability_sound hc0 hc hl .literal).probability_unit

end Library

namespace Sweep

variable {p : Params} {d : ℕ}

/-- No constraint on parameters is about their policy. -/
theorem valid_withTailPolicy (hv : p.Valid) (a : TailPolicy) : (p.withTailPolicy a).Valid :=
  ⟨hv.capacity_pos, hv.items_pos, hv.paths_pos, hv.maxDepth_le, hv.hopBudget_pos⟩

@[simp] theorem depths_withTailPolicy (p : Params) (a : TailPolicy) :
    (p.withTailPolicy a).depths = p.depths := rfl

section Library

variable [MathLibrary]

theorem regime_withTailPolicy (p : Params) (a b : TailPolicy) (d : ℕ) :
    (estimateAt (p.withTailPolicy a) d).regime = (estimateAt (p.withTailPolicy b) d).regime :=
  regime_overflowProbability p.capacity.toNat (loadAt p d) a b

theorem regimes_withTailPolicy (p : Params) (a b : TailPolicy) :
    (grid (p.withTailPolicy a)).regimes = (grid (p.withTailPolicy b)).regimes := by
  apply List.map_congr_left
  intro d _
  exact regime_withTailPolicy p a b d

theorem saturatedDepths_withTailPolicy (p : Params) (a b : TailPolicy) :
    (grid (p.withTailPolicy a)).saturatedDepths = (grid (p.withTailPolicy b)).saturatedDepths := by
  simp only [saturatedDepths, rows_grid, depths_withTailPolicy, List.filter_map, List.map_map]
  congr 1
  apply List.filter_congr
  intro d _
  simp only [Function.comp_apply, regime_withTailPolicy p a b d]

variable [LawfulMathLibrary]

theorem clamped_estimateAt (hv : p.Valid) (hd : d ≤ p.maxDepth.toNat) :
    Clamped (estimateAt (p.withTailPolicy .saturating) d).regime
      (estimateAt (p.withTailPolicy .saturating) d).probability
      (estimateAt (p.withTailPolicy .literal) d).probability := by
  have hl := fits_loadAt hv hd
  exact clamped_overflowProbability hv.capacity_pos p.capacity.toNat_lt hl

/-- The peak of the literal sweep is a probability that the clamped one matches or exceeds. -/
theorem peak_literal_le (hv : p.Valid) :
    (grid (p.withTailPolicy .literal)).peak.probability ≤
      (grid (p.withTailPolicy .saturating)).peak.probability := by
  obtain ⟨hd, heq, -⟩ := peak_grid (valid_withTailPolicy hv .literal)
  obtain ⟨-, -, hall⟩ := peak_grid (valid_withTailPolicy hv .saturating)
  rw [heq]
  exact Binary64.le_trans (clamped_estimateAt hv hd).literal_le (hall _ hd)

/-- Whatever is swept, the policies give the same loads, regimes and saturated depths. Where a depth
is not saturated they give one probability; where it is, the clamped one is one and the literal one
a unit value. So the literal peak is never above the clamped one. -/
theorem run_policies (p : Params) (h : p.validate = .ok ()) : ∃ s l,
    run (p.withTailPolicy .saturating) = .ok s ∧ run (p.withTailPolicy .literal) = .ok l ∧
      s.loads = l.loads ∧ s.regimes = l.regimes ∧ s.saturatedDepths = l.saturatedDepths ∧
      s.probabilities.length = p.maxDepth.toNat + 1 ∧
      l.probabilities.length = p.maxDepth.toNat + 1 ∧
      (∀ d ≤ p.maxDepth.toNat, ∃ regime clamped literal, s.regimes[d]? = some regime ∧
        s.probabilities[d]? = some clamped ∧ l.probabilities[d]? = some literal ∧
        Clamped regime clamped literal) ∧
      l.peak.probability ≤ s.peak.probability := by
  have hv := Params.valid_of_validate h
  refine ⟨grid (p.withTailPolicy .saturating), grid (p.withTailPolicy .literal), run_eq_grid h,
    run_eq_grid h, rfl, regimes_withTailPolicy p _ _, saturatedDepths_withTailPolicy p _ _,
    by simp [grid], by simp [grid], ?_, peak_literal_le hv⟩
  intro d hd
  exact ⟨_, _, _, getElem?_map_depths _ hd, getElem?_map_depths _ hd, getElem?_map_depths _ hd,
    clamped_estimateAt hv hd⟩

end Library

/-- Half of all items in one place: the bound far above the capacity vanishes, and is not NaN. -/
theorem run_policies_one_place : ∃ p : Params, p.validate = .ok () ∧
    p.items = 0xffffffffffffffff ∧ p.capacity = 1 ∧ ∃ s l,
      run (p.withTailPolicy .saturating) = .ok s ∧ run (p.withTailPolicy .literal) = .ok l ∧
      s.loads = l.loads ∧ s.saturatedDepths = [0, 1] ∧ l.saturatedDepths = [0, 1] ∧
      s.probabilities = [one, one] ∧ l.probabilities = [zero false, zero false] ∧
      l.peak.probability ≤ s.peak.probability := by
  let p : Params := ⟨1, 0xffffffffffffffff, 1, 1, 1, .literal⟩
  have h : p.validate = .ok () := rfl
  obtain ⟨s, l, hs, hl, hloads, -, hsat, -, -, -, hpeak⟩ := run_policies p h
  obtain ⟨-, rfl⟩ := eq_grid_of_run hs
  obtain ⟨-, rfl⟩ := eq_grid_of_run hl
  have hfirst : (grid (p.withTailPolicy .saturating)).saturatedDepths = [0, 1] := by decide +kernel
  exact ⟨p, h, rfl, rfl, _, _, hs, hl, hloads, hfirst, hsat ▸ hfirst, by decide +kernel,
    by decide +kernel, hpeak⟩

end Sweep
end BucketOverflow
