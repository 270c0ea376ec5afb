import BucketOverflow.Proofs.Sweep.Estimate
import BucketOverflow.Sweep.Basic

/-! A sweep of validated parameters. It always succeeds, and every depth of its grid holds a load, a
probability and a regime in their ranges. -/
namespace BucketOverflow
open Binary64

/-- The constraints that a set of parameters meets once it is validated. -/
structure Params.Valid (p : Params) : Prop where
  capacity_pos : 0 < p.capacity.toNat
  items_pos : 0 < p.items.toNat
  paths_pos : 0 < p.paths.toNat
  maxDepth_le : p.maxDepth.toNat ≤ 1021
  hopBudget_pos : 0 < p.hopBudget.toNat

variable {p : Params} {d : ℕ}

theorem Params.valid_of_validate (h : p.validate = .ok ()) : p.Valid := by
  have hpos64 {n : UInt64} (hn : n ≠ 0) : 0 < n.toNat := by
    rw [Nat.pos_iff_ne_zero]
    exact fun h0 => hn (UInt64.toNat_inj.mp h0)
  have hpos32 {n : UInt32} (hn : n ≠ 0) : 0 < n.toNat := by
    rw [Nat.pos_iff_ne_zero]
    exact fun h0 => hn (UInt32.toNat_inj.mp h0)
  unfold Params.validate at h
  split_ifs at h with hc hi hp hd hb
  refine ⟨hpos64 hc, hpos64 hi, hpos64 hp, ?_, hpos32 hb⟩
  rw [UInt32.lt_iff_toNat_lt] at hd
  exact not_lt.mp hd

namespace Sweep

theorem depth_le (hv : p.Valid) (hd : d ≤ p.maxDepth.toNat) : d ≤ unitExp := by
  have := hv.maxDepth_le
  unfold unitExp
  omega

theorem mem_depths : d ∈ p.depths ↔ d ≤ p.maxDepth.toNat := by
  simp [Params.depths, Params.depthRange]

@[simp] theorem length_depths (p : Params) : p.depths.length = p.maxDepth.toNat + 1 := by
  simp [Params.depths, Params.depthRange]

theorem getElem?_map_depths {α : Type*} (f : ℕ → α) (hd : d ≤ p.maxDepth.toNat) :
    (p.depths.map f)[d]? = some (f d) := by
  simp [Params.depths, Params.depthRange, Nat.lt_succ_iff.mpr hd]

section Library

variable [MathLibrary]

/-- The expected load of a depth. -/
def loadAt (p : Params) (d : ℕ) : Binary64 :=
  expectedLoad p.hopBudget.toNat d p.items.toNat p.paths.toNat

/-- The estimate for a depth. -/
def estimateAt (p : Params) (d : ℕ) : Estimate :=
  overflowProbability p.capacity.toNat (loadAt p d) p.tailPolicy

/-- The sweep of a grid, depth by depth. -/
def grid (p : Params) : Sweep where
  params := p
  loads := p.depths.map (loadAt p)
  probabilities := p.depths.map fun d => (estimateAt p d).probability
  regimes := p.depths.map fun d => (estimateAt p d).regime

/-- Validated parameters are swept without a fault. -/
theorem run_eq_grid (h : p.validate = .ok ()) : run p = .ok (grid p) := by
  simp only [run, h, grid, estimateAt, loadAt, List.map_map]
  rfl

/-- Only validated parameters are swept. -/
theorem eq_grid_of_run {s : Sweep} (h : run p = .ok s) : p.Valid ∧ s = grid p := by
  cases hv : p.validate with
  | error e => simp [run, hv, bind, Except.bind] at h
  | ok u =>
    have hv : p.validate = .ok () := hv
    rw [run_eq_grid hv] at h
    exact ⟨Params.valid_of_validate hv, (Except.ok.inj h).symm⟩

/-- The rows of a grid stand in the order of depth, none of them cut off. -/
theorem rows_grid (p : Params) : (grid p).rows = p.depths.map fun d =>
    ⟨d, loadAt p d, (estimateAt p d).probability, (estimateAt p d).regime⟩ := by
  apply List.ext_getElem
  · simp [rows, grid]
  · intro i _ _
    simp [rows, grid, Params.depths]

theorem length_rows_grid (p : Params) : (grid p).rows.length = p.maxDepth.toNat + 1 := by
  rw [rows_grid, List.length_map, length_depths]

theorem mem_saturatedDepths_grid : d ∈ (grid p).saturatedDepths ↔
    d ≤ p.maxDepth.toNat ∧ (estimateAt p d).regime = .saturated := by
  simp [saturatedDepths, rows_grid, mem_depths, and_assoc]

variable [LawfulMathLibrary]

theorem fits_loadAt (hv : p.Valid) (hd : d ≤ p.maxDepth.toNat) :
    Fits (loadAt p d) 1 (96 + unitExp) :=
  fits_expectedLoad hv.hopBudget_pos p.hopBudget.toNat_lt p.items.toNat_lt hv.paths_pos
    p.paths.toNat_lt (depth_le hv hd)

theorem estimateAt_sound (hv : p.Valid) (hd : d ≤ p.maxDepth.toNat) :
    (estimateAt p d).Sound (ofNat p.capacity.toNat) (loadAt p d) p.tailPolicy :=
  overflowProbability_sound hv.capacity_pos p.capacity.toNat_lt (fits_loadAt hv hd) _

/-- The values at one depth of a sweep, and what they have to be. -/
structure DepthSound (p : Params) (d : ℕ) (load probability : Binary64) (regime : Regime) :
    Prop where
  load_finite : load.isFinite = true
  load_not_nan : load.isNaN = false
  load_not_neg : load.isNeg = false
  load_le : load ≤ ofNat p.items.toNat * (ofNat p.hopBudget.toNat * twoPowNeg d)
  probability_not_nan : probability.isNaN = false
  probability_not_neg : probability.isNeg = false
  probability_le_one : probability ≤ one
  zeroLoad_iff : regime = .zeroLoad ↔ load = zero false
  saturated_iff : regime = .saturated ↔ ofNat p.capacity.toNat ≤ load
  bounded_iff : regime = .bounded ↔ load ≠ zero false ∧ ¬ofNat p.capacity.toNat ≤ load
  zeroLoad_probability : regime = .zeroLoad → probability = zero false
  saturated_probability : regime = .saturated → p.tailPolicy = .saturating → probability = one

theorem depthSound (hv : p.Valid) (hd : d ≤ p.maxDepth.toNat) :
    DepthSound p d (loadAt p d) (estimateAt p d).probability (estimateAt p d).regime := by
  have hl := fits_loadAt hv hd
  have he := estimateAt_sound hv hd
  exact {
    load_finite := hl.finite
    load_not_nan := hl.not_nan
    load_not_neg := hl.not_neg
    load_le := expectedLoad_le hv.hopBudget_pos p.hopBudget.toNat_lt p.items.toNat_lt
      hv.paths_pos p.paths.toNat_lt (depth_le hv hd)
    probability_not_nan := he.probability_unit.not_nan
    probability_not_neg := he.probability_unit.not_neg
    probability_le_one := he.probability_unit.le_one
    zeroLoad_iff := he.zeroLoad_iff
    saturated_iff := he.saturated_iff
    bounded_iff := he.bounded_iff
    zeroLoad_probability := he.zeroLoad_probability
    saturated_probability := he.saturated_probability }

/-- Every validated set is swept, and each depth up to its maximum has values in range. -/
theorem run_depthSound (p : Params) (h : p.validate = .ok ()) :
    ∃ s, run p = .ok s ∧ s.loads.length = p.maxDepth.toNat + 1 ∧
      s.probabilities.length = p.maxDepth.toNat + 1 ∧ s.regimes.length = p.maxDepth.toNat + 1 ∧
      ∀ d ≤ p.maxDepth.toNat, ∃ load probability regime, s.loads[d]? = some load ∧
        s.probabilities[d]? = some probability ∧ s.regimes[d]? = some regime ∧
        DepthSound p d load probability regime := by
  have hv := Params.valid_of_validate h
  refine ⟨grid p, run_eq_grid h, by simp [grid], by simp [grid], by simp [grid], ?_⟩
  intro d hd
  exact ⟨_, _, _, getElem?_map_depths _ hd, getElem?_map_depths _ hd, getElem?_map_depths _ hd,
    depthSound hv hd⟩

end Library

/-- The largest of all parameters: loads up to `2 ^ 96` and a capacity that is not a word. -/
theorem run_depthSound_largest : ∃ p : Params, p.validate = .ok () ∧
    p.capacity = 0xffffffffffffffff ∧ p.hopBudget = 0xffffffff ∧ p.maxDepth.toNat = 1021 ∧
    ∃ s, run p = .ok s ∧ s.loads.length = 1022 ∧ ∀ d ≤ 1021, ∃ load probability regime,
      s.loads[d]? = some load ∧ s.probabilities[d]? = some probability ∧
        s.regimes[d]? = some regime ∧ DepthSound p d load probability regime := by
  let p : Params := ⟨0xffffffffffffffff, 0xffffffffffffffff, 0xffffffffffffffff, 1021, 0xffffffff,
    .literal⟩
  have h : p.validate = .ok () := rfl
  obtain ⟨s, hs, hl, -, -, hd⟩ := run_depthSound p h
  exact ⟨p, h, rfl, rfl, rfl, s, hs, hl, hd⟩

end Sweep
end BucketOverflow
