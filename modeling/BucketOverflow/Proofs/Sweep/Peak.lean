import BucketOverflow.Proofs.Sweep.Argmax
import BucketOverflow.Proofs.Sweep.Run

/-! The peak of a sweep is the entry that the scan of its probabilities ends on. The probabilities
of a grid are numbers, so no depth exceeds the peak, and every depth before it has less. -/
namespace BucketOverflow
open Binary64

namespace Sweep

variable {s : Sweep} {p : Params} {d : ℕ}

/-- The peak leads the probabilities, if there are any at all. -/
theorem peak_leads (h : s.probabilities ≠ []) :
    Leads s.probabilities (s.peak.depth, s.peak.probability) := by
  obtain ⟨r, hr, hleads⟩ := exists_leads h
  simpa only [peak, hr, Option.getD_some] using hleads

section Library

variable [MathLibrary]

/-! The peak of a grid -/

/-- The row of a depth. -/
def rowAt (p : Params) (d : ℕ) : SweepRow :=
  ⟨d, loadAt p d, (estimateAt p d).probability, (estimateAt p d).regime⟩

theorem mem_rows_grid {r : SweepRow} :
    r ∈ (grid p).rows ↔ ∃ d ≤ p.maxDepth.toNat, rowAt p d = r := by
  simp [rows_grid, mem_depths, rowAt]

theorem probabilities_grid_ne_nil (p : Params) : (grid p).probabilities ≠ [] := by
  simp [grid, Params.depths]

theorem getElem?_probabilities_grid (hd : d ≤ p.maxDepth.toNat) :
    (grid p).probabilities[d]? = some (estimateAt p d).probability :=
  getElem?_map_depths _ hd

variable [LawfulMathLibrary]

theorem probabilities_grid_not_nan (hv : p.Valid) :
    ∀ v ∈ (grid p).probabilities, v.isNaN = false := by
  intro v hmem
  obtain ⟨d, hd, rfl⟩ := List.mem_map.mp hmem
  exact (depthSound hv (mem_depths.mp hd)).probability_not_nan

/-- The peak of a grid lies at one of its depths. None exceeds it, and none before it reaches it. -/
theorem peak_grid_top (hv : p.Valid) : (grid p).peak.depth ≤ p.maxDepth.toNat ∧
    ∀ d ≤ p.maxDepth.toNat, (estimateAt p d).probability ≤ (grid p).peak.probability ∧
      (d < (grid p).peak.depth → ¬(grid p).peak.probability ≤ (estimateAt p d).probability) := by
  have hleads := peak_leads (probabilities_grid_ne_nil p)
  have hnan := probabilities_grid_not_nan hv
  have hpeak := hnan _ (List.mem_of_getElem? hleads.place)
  constructor
  · obtain ⟨hlt, -⟩ := List.getElem?_eq_some_iff.mp hleads.place
    simp only [grid, List.length_map, length_depths] at hlt
    exact Nat.lt_succ_iff.mp hlt
  · intro d hd
    refine hleads.top hpeak d _ ?_ (getElem?_probabilities_grid hd)
    rw [behindNaN_eq_zero hnan]
    exact d.zero_le

/-- The peak of a grid is the probability of its depth, and no other exceeds it. -/
theorem peak_grid (hv : p.Valid) : (grid p).peak.depth ≤ p.maxDepth.toNat ∧
    (grid p).peak.probability = (estimateAt p (grid p).peak.depth).probability ∧
      ∀ d ≤ p.maxDepth.toNat, (estimateAt p d).probability ≤ (grid p).peak.probability := by
  obtain ⟨hle, htop⟩ := peak_grid_top hv
  have hplace := (peak_leads (probabilities_grid_ne_nil p)).place
  rw [getElem?_probabilities_grid hle] at hplace
  exact ⟨hle, (Option.some.inj hplace).symm, fun d hd => (htop d hd).1⟩

/-- No depth before the peak has its probability. -/
theorem peak_grid_first (hv : p.Valid) (hd : d < (grid p).peak.depth) :
    ¬(grid p).peak.probability ≤ (estimateAt p d).probability := by
  obtain ⟨hle, htop⟩ := peak_grid_top hv
  exact (htop d (hd.le.trans hle)).2 hd

/-- The load at the peak is the load of the peak's depth. -/
theorem peak_load_grid (hv : p.Valid) :
    (grid p).peak.load = loadAt p (grid p).peak.depth := by
  obtain ⟨hpeak, -⟩ := peak_grid hv
  have hget := getElem?_map_depths (loadAt p) hpeak
  simp only [peak, grid] at hget ⊢
  simp [List.getD, hget]

/-- The depths whose probability no depth exceeds. -/
def topDepths (s : Sweep) : Set ℕ :=
  {d | ∃ r ∈ s.rows, r.depth = d ∧ ∀ q ∈ s.rows, q.probability ≤ r.probability}

theorem peak_grid_isLeast (hv : p.Valid) : IsLeast (grid p).topDepths (grid p).peak.depth := by
  obtain ⟨hle, hprob, hall⟩ := peak_grid hv
  constructor
  · refine ⟨_, mem_rows_grid.mpr ⟨_, hle, rfl⟩, rfl, fun q hq => ?_⟩
    obtain ⟨d, hd, rfl⟩ := mem_rows_grid.mp hq
    have htop := hall d hd
    rwa [hprob] at htop
  · rintro d ⟨r, hr, rfl, htop⟩
    obtain ⟨d, hd, rfl⟩ := mem_rows_grid.mp hr
    by_contra hlt
    have hreach : (estimateAt p (grid p).peak.depth).probability ≤ (estimateAt p d).probability :=
      htop (rowAt p _) (mem_rows_grid.mpr ⟨_, hle, rfl⟩)
    rw [← hprob] at hreach
    exact peak_grid_first hv (not_le.mp hlt) hreach

/-- A scan finds nothing in an empty list alone. Otherwise it ends on the last value if that is a
NaN, and else on the first value behind the last NaN that none there exceeds. So the peak of a sweep
is the row of the smallest depth of the highest probability. -/
theorem run_peak_isLeast : (∀ values, argmaxFirst values = none ↔ values = []) ∧
    (∀ values last, values.getLast? = some last →
      ∃ i v, argmaxFirst values = some (i, v) ∧ values[i]? = some v ∧
        if last.isNaN then i + 1 = values.length
        else IsLeast (topPlaces values (behindNaN values)) i) ∧
    ∀ p : Params, p.validate = .ok () → ∃ s, run p = .ok s ∧ IsLeast s.topDepths s.peak.depth ∧
      ∃ r ∈ s.rows, s.peak = ⟨r.depth, r.probability, r.load⟩ := by
  refine ⟨fun _ => argmaxFirst_eq_none_iff, fun _ _ => argmaxFirst_of_getLast?, fun p h => ?_⟩
  have hv := Params.valid_of_validate h
  obtain ⟨hle, hprob, -⟩ := peak_grid hv
  refine ⟨grid p, run_eq_grid h, peak_grid_isLeast hv, _, mem_rows_grid.mpr ⟨_, hle, rfl⟩, ?_⟩
  rw [rowAt, ← hprob, ← peak_load_grid hv]

end Library

/-- One NaN in front of both zeros, of which the first is taken; and a sweep whose peak lies below
the root. -/
theorem run_peak_isLeast_zeros : ∃ values last, values.getLast? = some last ∧
    argmaxFirst values = some (2, zero true) ∧ IsLeast (topPlaces values 2) 2 ∧
      ∃ p : Params, p.validate = .ok () ∧ ∃ s, run p = .ok s ∧ s.peak.depth = 1 ∧
        IsLeast s.topDepths 1 := by
  let values := [one, nan, zero true, zero false]
  let p : Params := ⟨20, 1000, 10, 3, 3, .saturating⟩
  have hlast : values.getLast? = some (zero false) := rfl
  have h : p.validate = .ok () := rfl
  have hscan : argmaxFirst values = some (2, zero true) := by decide
  obtain ⟨-, hplace, hpeak⟩ := run_peak_isLeast
  obtain ⟨i, v, hiv, -, hleast⟩ := hplace values (zero false) hlast
  obtain ⟨rfl, rfl⟩ : i = 2 ∧ v = zero true := by simpa [hscan, eq_comm] using hiv
  obtain ⟨s, hrun, hdepth, -⟩ := hpeak p h
  obtain rfl : grid p = s := Except.ok.inj ((run_eq_grid h).symm.trans hrun)
  have hone : (grid p).peak.depth = 1 := by decide +kernel
  exact ⟨values, zero false, hlast, hscan, hleast, p, h, _, hrun, hone, hone ▸ hdepth⟩

end Sweep
end BucketOverflow
