import BucketOverflow.Proofs.Results
import BucketOverflow.Proofs.Snapshot.RoundTrip
import BucketOverflow.Proofs.Sweep.Fingerprint

/-! Parallel sequences. A sweep that was run has one load, one probability and one regime for each
depth, and what is read off it fits together. Nothing of this is asked of a sweep in a text. -/
namespace BucketOverflow
open Binary64

namespace Sweep

/-- A sweep with one entry for each of its depths in every sequence. -/
structure Parallel (s : Sweep) : Prop extends Filled s where
  regimes : s.regimes.length = s.params.maxDepth.toNat + 1

/-- What is read off a sweep fits together: it has as many rows as it says it has depths, each row
stands at its depth, and the peak is one of them. -/
structure Coherent (s : Sweep) : Prop where
  size_eq : s.size = s.rows.length
  depth_eq : ∀ (d : ℕ) (r : SweepRow), s.rows[d]? = some r → r.depth = d
  peak_mem : ∃ r ∈ s.rows, s.peak = ⟨r.depth, r.probability, r.load⟩

variable {s : Sweep} {p : Params} {d : ℕ} {r : SweepRow}

/-! Rows and peak of any sweep -/

theorem length_rows (s : Sweep) :
    s.rows.length = min (min s.loads.length s.probabilities.length) s.regimes.length := by
  simp [rows]

theorem getElem?_rows : s.rows[d]? = some r ↔ r.depth = d ∧ s.loads[d]? = some r.load ∧
    s.probabilities[d]? = some r.probability ∧ s.regimes[d]? = some r.regime := by
  simp only [rows, List.getElem?_mapIdx, Option.map_eq_some_iff, List.getElem?_zip_eq_some,
    Prod.exists]
  constructor
  · rintro ⟨load, probability, regime, ⟨⟨hload, hprobability⟩, hregime⟩, rfl⟩
    exact ⟨rfl, hload, hprobability, hregime⟩
  · rintro ⟨rfl, hload, hprobability, hregime⟩
    exact ⟨_, _, _, ⟨⟨hload, hprobability⟩, hregime⟩, rfl⟩

/-- Rows go as far as all sequences reach, so what is read off a sweep fits together exactly if it
has a probability and none without a load and a regime. -/
theorem coherent_iff : s.Coherent ↔ s.probabilities ≠ [] ∧
    s.probabilities.length ≤ s.loads.length ∧ s.probabilities.length ≤ s.regimes.length := by
  constructor
  · intro h
    have hlen := h.size_eq
    rw [length_rows, size] at hlen
    refine ⟨?_, by omega, by omega⟩
    intro hnil
    obtain ⟨r, hr, -⟩ := h.peak_mem
    have hpos := List.length_pos_of_mem hr
    rw [length_rows, hnil, List.length_nil] at hpos
    omega
  · rintro ⟨hne, hloads, hregimes⟩
    have hplace := (peak_leads hne).place
    obtain ⟨hlt, -⟩ := List.getElem?_eq_some_iff.mp hplace
    obtain ⟨load, hload⟩ : ∃ load, s.loads[s.peak.depth]? = some load :=
      ⟨_, List.getElem?_eq_getElem (hlt.trans_le hloads)⟩
    obtain ⟨regime, hregime⟩ : ∃ regime, s.regimes[s.peak.depth]? = some regime :=
      ⟨_, List.getElem?_eq_getElem (hlt.trans_le hregimes)⟩
    have hpeak : s.peak.load = load := by
      change s.loads.getD s.peak.depth (.zero false) = load
      rw [List.getD_eq_getElem?_getD, hload, Option.getD_some]
    refine ⟨by rw [length_rows, size]; omega, fun d r hr => (getElem?_rows.mp hr).1,
      ⟨s.peak.depth, load, s.peak.probability, regime⟩, ?_, by rw [← hpeak]⟩
    exact List.mem_of_getElem? (getElem?_rows.mpr ⟨rfl, hload, hplace, hregime⟩)

theorem Parallel.coherent (h : s.Parallel) : s.Coherent := by
  rw [coherent_iff, h.loads, h.probabilities, h.regimes, ← List.length_pos_iff, h.probabilities]
  exact ⟨Nat.succ_pos _, le_rfl, le_rfl⟩

/-! Sweeps that are run -/

section Library

variable [MathLibrary]

theorem parallel_of_run (h : run p = .ok s) : s.Parallel := by
  obtain ⟨-, rfl⟩ := eq_grid_of_run h
  exact ⟨⟨by simp [grid], by simp [grid]⟩, by simp [grid]⟩

/-- A comparison holds the sweeps for its hop budgets, in their order. -/
theorem compare_eq_ok {budgets : List UInt32} {sweeps : List Sweep} :
    compare p budgets = .ok sweeps ↔ budgets ≠ [] ∧
      List.Forall₂ (fun b s => run (p.withHopBudget b) = .ok s) budgets sweeps := by
  unfold compare
  cases budgets with
  | nil => simp
  | cons b budgets =>
    rw [List.isEmpty_cons, if_neg Bool.false_ne_true, mapM_eq_ok,
      and_iff_right (List.cons_ne_nil b budgets)]

theorem parallel_of_compare {budgets : List UInt32} {sweeps : List Sweep}
    (h : compare p budgets = .ok sweeps) (hs : s ∈ sweeps) : s.Parallel := by
  obtain ⟨-, hall⟩ := compare_eq_ok.mp h
  clear h
  induction hall with
  | nil => cases hs
  | cons hrun _ ih =>
    rcases List.mem_cons.mp hs with rfl | hs
    · exact parallel_of_run hrun
    · exact ih hs

end Library

/-! Sweeps that are read -/

/-- A sweep of decimals that are moderate. -/
structure Writable (s : Sweep) : Prop where
  loads : ∀ x ∈ s.loads, Json.Moderate x
  probabilities : ∀ x ∈ s.probabilities, Json.Moderate x

/-- The sweep that is read from the text of a sweep. -/
def reread (s : Sweep) : Sweep :=
  { s with loads := s.loads.map Json.reread, probabilities := s.probabilities.map Json.reread }

theorem reads_regimes (regimes : List Regime) :
    Json.Reads (Json.list (Json.variant Regime.known)) (.arr (regimes.map fun r => .str r.name))
      regimes := by
  have hreads := Json.reads_list_map (g := id) fun r (_ : r ∈ regimes) =>
    Json.reads_variant r.lookup_name
  rwa [List.map_id] at hreads

open Json in
/-- The text of a sweep is read whatever the lengths of its sequences. -/
theorem ofText_toCompact (h : s.Writable) : ofText s.toJson.toCompact = .ok s.reread := by
  have hloads := reads_list_map fun x hx => reads_binary64 (h.loads x hx)
  have hprobabilities := reads_list_map fun x hx => reads_binary64 (h.probabilities x hx)
  have hregimes := reads_regimes s.regimes
  refine Reads.toCompact (reads_record (x := ⟨some s.params, some (s.loads.map Json.reread),
    some (s.probabilities.map Json.reread), some s.regimes⟩) ?_ rfl)
  refine .cons (readsMember_slot rfl rfl s.params.reads fun _ _ => bind_of_ok) ?_
  refine .cons (readsMember_slot rfl rfl hloads fun _ _ => bind_of_ok) ?_
  refine .cons (readsMember_slot rfl rfl hprobabilities fun _ _ => bind_of_ok) ?_
  exact .cons (readsMember_slot rfl rfl hregimes fun _ _ => bind_of_ok) (.nil _)

/-- Sequences of any lengths are read. -/
theorem exists_ofText (p : Params) (a b c : ℕ) : ∃ text s, ofText text = .ok s ∧ s.params = p ∧
    s.loads.length = a ∧ s.probabilities.length = b ∧ s.regimes.length = c := by
  let s : Sweep := ⟨p, List.replicate a (.zero false), List.replicate b (.zero false),
    List.replicate c .zeroLoad⟩
  have hzero : Json.Moderate (.zero false) := Json.moderate_of_inUnit inUnit_zero
  have hs : s.Writable := by
    constructor
    · intro x hx
      rwa [List.eq_of_mem_replicate hx]
    · intro x hx
      rwa [List.eq_of_mem_replicate hx]
  exact ⟨_, _, ofText_toCompact hs, rfl, by simp [s, reread], by simp [s, reread],
    by simp [s, reread]⟩

/-- A sweep that is run, by itself or for one of several hop budgets, is parallel, and what is read
off a parallel sweep fits together. Of a sweep at large it does exactly if there is a probability
and none is without a load and a regime; and with any parameters, a sweep in a text is read with
whatever lengths it has there. -/
theorem parallel_unless_read [MathLibrary] (p : Params) (s : Sweep) :
    (run p = .ok s → s.Parallel) ∧
      (∀ budgets sweeps, compare p budgets = .ok sweeps → s ∈ sweeps → s.Parallel) ∧
      (s.Parallel → s.Coherent) ∧
      (s.Coherent ↔ s.probabilities ≠ [] ∧
        s.probabilities.length ≤ s.loads.length ∧ s.probabilities.length ≤ s.regimes.length) ∧
      ∀ a b c : ℕ, ∃ text t, ofText text = .ok t ∧ t.params = p ∧
        t.loads.length = a ∧ t.probabilities.length = b ∧ t.regimes.length = c :=
  ⟨parallel_of_run, fun _ _ => parallel_of_compare, Parallel.coherent, coherent_iff,
    exists_ofText p⟩

/-- Two probabilities for one depth: the sweep has one row, and its peak is not there. -/
example : (ofText "[[2,3,1,0,1,\"saturating\"],[1.5],[0.5,0.75],[\"bounded\"]]").toOption.map
    (fun s => (s.size, s.rows.length, s.peak.depth)) = some (2, 1, 1) := by decide +kernel

end Sweep
end BucketOverflow
