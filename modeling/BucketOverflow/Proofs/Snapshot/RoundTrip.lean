import BucketOverflow.Proofs.Snapshot.Text
import BucketOverflow.Proofs.Sweep.Peak

/-! The snapshot of a sweep survives its text. Whatever was swept, the snapshot reads back and a
full comparison with the one that was written finds every field the same. -/
namespace BucketOverflow
open Binary64

namespace Json

theorem moderate_of_fits {x : Binary64} {s : ℕ} (hx : Fits x 1 (s + unitExp)) (hs : s ≤ 96) :
    Moderate x := by
  have hu : (0 : ℚ) < 2 ^ unitExp := pow_pos (by norm_num) _
  have hle := hx.worth_le
  rw [worth_of_not_isNeg hx.not_neg, Nat.cast_one, one_mul, pow_add] at hle
  have hpow : (2 : ℚ) ^ s < 10 ^ (30 : ℤ) := by
    calc (2 : ℚ) ^ s ≤ 2 ^ 96 := pow_le_pow_right₀ (by norm_num) hs
      _ < 10 ^ (30 : ℤ) := by norm_num
  exact ⟨hx.finite, hle.trans_lt (mul_lt_mul_of_pos_right hpow hu)⟩

theorem moderate_of_inUnit {x : Binary64} (hx : InUnit x) : Moderate x :=
  moderate_of_fits (s := 0) (by rw [zero_add]; exact hx.fits) (by omega)

end Json

namespace Sweep

variable {p : Params} {d : ℕ}

theorem depth_lt (hv : p.Valid) (hd : d ≤ p.maxDepth.toNat) : d < 0x100000000 :=
  (hd.trans hv.maxDepth_le).trans_lt (by decide)

section Library

variable [MathLibrary]

theorem saturatedDepths_lt (hv : p.Valid) : ∀ d ∈ (grid p).saturatedDepths, d < 0x100000000 :=
  fun _ hd => depth_lt hv (mem_saturatedDepths_grid.mp hd).1

variable [LawfulMathLibrary]

theorem moderate_probability (hv : p.Valid) (hd : d ≤ p.maxDepth.toNat) :
    Json.Moderate (estimateAt p d).probability :=
  Json.moderate_of_inUnit (estimateAt_sound hv hd).probability_unit

theorem moderate_load (hv : p.Valid) (hd : d ≤ p.maxDepth.toNat) : Json.Moderate (loadAt p d) :=
  Json.moderate_of_fits (fits_loadAt hv hd) le_rfl

theorem moderate_peak (hv : p.Valid) :
    Json.Moderate (grid p).peak.probability ∧ Json.Moderate (grid p).peak.load := by
  obtain ⟨hpeak, hprob, -⟩ := peak_grid hv
  rw [hprob, peak_load_grid hv]
  exact ⟨moderate_probability hv hpeak, moderate_load hv hpeak⟩

end Library

end Sweep

namespace Snapshot
open Sweep

variable {p : Params}

section Library

variable [MathLibrary]

theorem take_eq (h : p.validate = .ok ()) : take p = .ok (ofSweep (grid p)) := by
  rw [take, run_eq_grid h]
  rfl

/-- The rows of the snapshot of a grid. -/
theorem rows_ofSweep (p : Params) : (ofSweep (grid p)).rows = p.depths.map fun d =>
    ⟨d, loadAt p d, (loadAt p d).bitsText, (estimateAt p d).probability,
      (estimateAt p d).probability.bitsText, (estimateAt p d).regime.name⟩ := by
  rw [ofSweep, rows_grid, List.map_map]
  rfl

theorem depths_ofSweep (p : Params) : (ofSweep (grid p)).rows.map (·.depth) = p.depths := by
  rw [rows_ofSweep, List.map_map]
  exact List.map_id _

/-- The rows of a sweep stand in the order of depth. -/
theorem pairwise_depths (p : Params) :
    ((ofSweep (grid p)).rows.map (·.depth)).Pairwise (· < ·) := by
  rw [depths_ofSweep]
  exact List.pairwise_lt_range

theorem nodup_depths (p : Params) : ((ofSweep (grid p)).rows.map (·.depth)).Nodup :=
  (pairwise_depths p).imp ne_of_lt

variable [LawfulMathLibrary]

theorem writable_ofSweep (hv : p.Valid) : (ofSweep (grid p)).Writable := by
  refine ⟨depth_lt hv (peak_grid hv).1, (moderate_peak hv).1, saturatedDepths_lt hv, ?_⟩
  intro r hr
  rw [rows_ofSweep] at hr
  obtain ⟨d, hd, rfl⟩ := List.mem_map.mp hr
  have hd := mem_depths.mp hd
  exact ⟨depth_lt hv hd, moderate_load hv hd, moderate_probability hv hd⟩

theorem readable_ofSweep (hv : p.Valid) : Drift.Readable (ofSweep (grid p)) := by
  have hunit {d : ℕ} (hd : d ≤ p.maxDepth.toNat) : (estimateAt p d).probability.isNaN = false :=
    (estimateAt_sound hv hd).probability_unit.not_nan
  obtain ⟨hpeak, hprob, -⟩ := peak_grid hv
  refine ⟨?_, ?_, ?_⟩
  · change IsNumber (grid p).peak.probability.bitsText
    rw [hprob]
    exact isNumber_bitsText (hunit hpeak)
  · intro r hr
    rw [rows_ofSweep] at hr
    obtain ⟨d, hd, rfl⟩ := List.mem_map.mp hr
    exact isNumber_bitsText (fits_loadAt hv (mem_depths.mp hd)).not_nan
  · intro r hr
    rw [rows_ofSweep] at hr
    obtain ⟨d, hd, rfl⟩ := List.mem_map.mp hr
    exact isNumber_bitsText (hunit (mem_depths.mp hd))

/-- The snapshot of every valid set reads back from its text, and a full comparison with the one
written has ten rows and three for each depth, all of them the same. -/
theorem take_ofText_same (p : Params) (h : p.validate = .ok ()) :
    ∃ s t d, take p = .ok s ∧ ofText s.toText = .ok t ∧ Drift.between t s true = .ok d ∧
      d.rows.length = 10 + 3 * (p.maxDepth.toNat + 1) ∧ ∀ r ∈ d.rows, r.status = .same := by
  have hv := Params.valid_of_validate h
  obtain ⟨t, ht, hbare⟩ := ofText_toText (writable_ofSweep hv)
  obtain ⟨d, hd, hlen, hsame⟩ :=
    Drift.between_of_bare_eq hbare (readable_ofSweep hv) (nodup_depths p)
  refine ⟨_, t, d, take_eq h, ht, hd, ?_, hsame⟩
  rw [hlen, rows_ofSweep, List.length_map, length_depths]

end Library

/-- Two items and one place, over three depths: overflow is certain at the first of them only. -/
def mixed : Params := ⟨1, 2, 1, 2, 3, .saturating⟩

/-- The probability of the second depth, 0.9894208528011335, is read one word off, and still all
fields are the same. -/
theorem take_ofText_same_mixed : mixed.validate = .ok () ∧
    ∃ s t d, take mixed = .ok s ∧ s.saturatedDepths = [0] ∧ ofText s.toText = .ok t ∧
      t.rows.map (·.probability) ≠ s.rows.map (·.probability) ∧ Drift.between t s true = .ok d ∧
      d.rows.length = 19 ∧ ∀ r ∈ d.rows, r.status = .same := by
  have h : mixed.validate = .ok () := rfl
  have hw := writable_ofSweep (Params.valid_of_validate h)
  obtain ⟨s, t, d, hs, ht, hd, hlen, hsame⟩ := take_ofText_same mixed h
  obtain rfl : s = ofSweep (grid mixed) := Except.ok.inj (hs.symm.trans (take_eq h))
  obtain rfl : t = (ofSweep (grid mixed)).reread :=
    Except.ok.inj (ht.symm.trans (ofText_toText_eq hw))
  exact ⟨h, _, _, d, hs, by decide +kernel, ht, by decide +kernel, hd, hlen, hsame⟩

end Snapshot
end BucketOverflow
