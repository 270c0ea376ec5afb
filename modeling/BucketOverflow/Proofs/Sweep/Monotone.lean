import BucketOverflow.Proofs.Sweep.Peak

/-! More items and more hops never lower the risk. Loads and clamped probabilities grow depth by
depth, so saturated depths stay saturated and the peak does not sink. -/
namespace BucketOverflow.Sweep
open Binary64

variable {p q : Params} {d : ℕ}

/-- Parameters that differ from others by no fewer items and no fewer hops, clamped both. -/
structure Grows (p q : Params) : Prop where
  capacity : p.capacity = q.capacity
  paths : p.paths = q.paths
  maxDepth : p.maxDepth = q.maxDepth
  saturating : p.tailPolicy = .saturating
  saturating' : q.tailPolicy = .saturating
  items : p.items ≤ q.items
  hopBudget : p.hopBudget ≤ q.hopBudget

section Library

variable [MathLibrary] [LawfulMathLibrary]

theorem loadAt_mono (hp : p.Valid) (hq : q.Valid) (h : Grows p q) (hd : d ≤ p.maxDepth.toNat) :
    loadAt p d ≤ loadAt q d := by
  unfold loadAt
  rw [h.paths]
  exact expectedLoad_mono hp.hopBudget_pos (UInt32.le_iff_toNat_le.mp h.hopBudget)
    q.hopBudget.toNat_lt (UInt64.le_iff_toNat_le.mp h.items) q.items.toNat_lt hq.paths_pos
    q.paths.toNat_lt (depth_le hp hd)

theorem estimateAt_mono (hp : p.Valid) (hq : q.Valid) (h : Grows p q)
    (hd : d ≤ p.maxDepth.toNat) :
    (estimateAt p d).probability ≤ (estimateAt q d).probability := by
  have hl := loadAt_mono hp hq h hd
  have hf := fits_loadAt hp hd
  have hf' := fits_loadAt hq (h.maxDepth ▸ hd)
  unfold estimateAt
  rw [h.saturating, h.saturating', h.capacity]
  exact overflowProbability_mono hq.capacity_pos q.capacity.toNat_lt hf hf' hl

theorem saturated_mono (hp : p.Valid) (hq : q.Valid) (h : Grows p q)
    (hd : d ≤ p.maxDepth.toNat) (hs : (estimateAt p d).regime = .saturated) :
    (estimateAt q d).regime = .saturated := by
  have hcap := (depthSound hp hd).saturated_iff.mp hs
  rw [h.capacity] at hcap
  exact (depthSound hq (h.maxDepth ▸ hd)).saturated_iff.mpr
    (Binary64.le_trans hcap (loadAt_mono hp hq h hd))

/-- More items and hops give no smaller load or probability at any depth, keep every saturated
depth saturated, and do not lower the peak. -/
theorem run_mono (p q : Params) (hp : p.validate = .ok ()) (hq : q.validate = .ok ())
    (h : Grows p q) : ∃ s t, run p = .ok s ∧ run q = .ok t ∧
      s.loads.length = p.maxDepth.toNat + 1 ∧ List.Forall₂ (· ≤ ·) s.loads t.loads ∧
      s.probabilities.length = p.maxDepth.toNat + 1 ∧
      List.Forall₂ (· ≤ ·) s.probabilities t.probabilities ∧
      s.saturatedDepths ⊆ t.saturatedDepths ∧ s.peak.probability ≤ t.peak.probability := by
  have hvp := Params.valid_of_validate hp
  have hvq := Params.valid_of_validate hq
  have hdepths : q.depths = p.depths := by simp only [Params.depths, Params.depthRange, h.maxDepth]
  refine ⟨grid p, grid q, run_eq_grid hp, run_eq_grid hq, by simp [grid], ?_, by simp [grid], ?_,
    ?_, ?_⟩
  · simp only [grid, hdepths, List.forall₂_map_left_iff, List.forall₂_map_right_iff,
      List.forall₂_same, mem_depths]
    exact fun d hd => loadAt_mono hvp hvq h hd
  · simp only [grid, hdepths, List.forall₂_map_left_iff, List.forall₂_map_right_iff,
      List.forall₂_same, mem_depths]
    exact fun d hd => estimateAt_mono hvp hvq h hd
  · intro d hd
    obtain ⟨hle, hs⟩ := mem_saturatedDepths_grid.mp hd
    exact mem_saturatedDepths_grid.mpr ⟨h.maxDepth ▸ hle, saturated_mono hvp hvq h hle hs⟩
  · obtain ⟨hd, heq, -⟩ := peak_grid hvp
    obtain ⟨-, -, hall⟩ := peak_grid hvq
    rw [heq]
    exact Binary64.le_trans (estimateAt_mono hvp hvq h hd) (hall _ (h.maxDepth ▸ hd))

end Library

/-- From the least items and hops to the most, at full depth. -/
theorem run_mono_least_to_most : ∃ p q : Params, p.validate = .ok () ∧ q.validate = .ok () ∧
    Grows p q ∧ p.items = 1 ∧ q.items = 0xffffffffffffffff ∧ ∃ s t, run p = .ok s ∧
      run q = .ok t ∧ s.loads.length = 1022 ∧ List.Forall₂ (· ≤ ·) s.loads t.loads ∧
      List.Forall₂ (· ≤ ·) s.probabilities t.probabilities ∧
      s.saturatedDepths ⊆ t.saturatedDepths ∧ s.peak.probability ≤ t.peak.probability := by
  let p : Params := ⟨20, 1, 3, 1021, 1, .saturating⟩
  let q : Params := ⟨20, 0xffffffffffffffff, 3, 1021, 0xffffffff, .saturating⟩
  have hp : p.validate = .ok () := rfl
  have hq : q.validate = .ok () := rfl
  have hg : Grows p q := ⟨rfl, rfl, rfl, rfl, rfl, by decide, by decide⟩
  obtain ⟨s, t, hs, ht, hlen, hloads, -, hprobs, hsat, hpeak⟩ := run_mono p q hp hq hg
  exact ⟨p, q, hp, hq, hg, rfl, rfl, s, t, hs, ht, hlen, hloads, hprobs, hsat, hpeak⟩

end BucketOverflow.Sweep
