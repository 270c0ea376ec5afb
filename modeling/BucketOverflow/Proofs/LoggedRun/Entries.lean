import BucketOverflow.LoggedRun
import BucketOverflow.Proofs.Log.Line
import BucketOverflow.Proofs.Snapshot.RoundTrip

/-! The entries of a run are sound: whatever is swept, every number in them can be read back, and
parameters hold all constants of the model. -/
namespace BucketOverflow
open Json

theorem readable_sorted {fields : Members} {n : ℕ} (h : ∀ f ∈ fields, Readable n f.2) :
    Readable (n + 1) (LoggedRun.sorted fields) := by
  refine .obj fun f hf => ?_
  rcases Fields.mem_of_mem_insertAll hf with hf | hf
  · exact h f hf
  · cases hf

theorem readable_naturals {numbers : List ℕ} {n : ℕ} (h : ∀ k ∈ numbers, k < significandLimit) :
    Readable (n + 1) (.arr (numbers.map .ofNat)) := by
  refine .arr fun j hj => ?_
  obtain ⟨k, hk, rfl⟩ := List.mem_map.mp hj
  exact readable_ofNat (h k hk)

namespace LogEntry

variable {e : LogEntry}

/-! Building entries -/

theorem sound_new (timestamp traceId : String) (level : LogLevel) (event : String) :
    (new timestamp traceId level event).Sound := by
  constructor <;> simp [new]

theorem Sound.withPreset (h : e.Sound) (preset : String) : (e.withPreset preset).Sound :=
  ⟨h.tailPolicy, h.params_readable, h.params_constants, h.duration, h.details_readable,
    h.details_present⟩

theorem Sound.withOutcome (h : e.Sound) (outcome : Outcome) : (e.withOutcome outcome).Sound :=
  ⟨h.tailPolicy, h.params_readable, h.params_constants, h.duration, h.details_readable,
    h.details_present⟩

theorem Sound.withArtifacts (h : e.Sound) (refs : List String) : (e.withArtifacts refs).Sound :=
  ⟨h.tailPolicy, h.params_readable, h.params_constants, h.duration, h.details_readable,
    h.details_present⟩

theorem Sound.withDuration (h : e.Sound) {ms : ℕ} (hms : ms < 0x10000000000000000) :
    (e.withDuration ms).Sound where
  tailPolicy := h.tailPolicy
  params_readable := h.params_readable
  params_constants := h.params_constants
  duration n hn := by
    cases hn
    exact hms
  details_readable := h.details_readable
  details_present := h.details_present

theorem Sound.withDetails (h : e.Sound) {fields : Members} (hf : ∀ f ∈ fields, Readable 125 f.2) :
    (e.withDetails (LoggedRun.sorted fields)).Sound where
  tailPolicy := h.tailPolicy
  params_readable := h.params_readable
  params_constants := h.params_constants
  duration := h.duration
  details_readable j hj := by
    cases hj
    exact readable_sorted hf
  details_present j hj := by
    cases hj
    simp [LoggedRun.sorted]

/-- The fields of parameters as they are logged. -/
def paramsFields (p : Params) : Members :=
  [("capacity", .ofNat p.capacity.toNat), ("items", .ofNat p.items.toNat),
    ("paths", .ofNat p.paths.toNat), ("max_depth", .ofNat p.maxDepth.toNat),
    ("hop_budget", .ofNat p.hopBudget.toNat), ("tail_policy", .str p.tailPolicy.name)]

theorem hasConstants_sortFields (p : Params) :
    HasConstants (.obj (sortFields (paramsFields p))) := by
  refine ⟨_, rfl, Fields.sorted_nil.insertAll _, fun key hkey => ?_⟩
  have hnodup : ((paramsFields p).map (·.1)).Nodup := by
    rw [show (paramsFields p).map (·.1) =
      ["capacity", "items", "paths", "max_depth", "hop_budget", "tail_policy"] from rfl]
    decide
  rw [field?, sortFields, Fields.lookup_insertAll_nil hnodup]
  simp only [Log.modelConstants, List.mem_cons, List.not_mem_nil, or_false] at hkey
  rcases hkey with rfl | rfl | rfl | rfl | rfl <;> exact ⟨_, rfl⟩

theorem Sound.withParams (h : e.Sound) (p : Params) : (e.withParams p).Sound where
  tailPolicy name hname := by
    cases hname
    cases p.tailPolicy <;> decide
  params_readable j hj := by
    cases hj
    exact readable_sorted (p.readable_of_toJson rfl)
  params_constants j hj := by
    cases hj
    exact hasConstants_sortFields p
  duration := h.duration
  details_readable := h.details_readable
  details_present := h.details_present

end LogEntry

namespace LoggedRun
open Sweep

variable {resolved : Resolved} {ctx : RunContext} {p : Params} {d : ℕ}

theorem sound_entry (ctx : RunContext) (reading : ℕ) (level : LogLevel) (event : String) :
    (entry ctx reading level event).Sound :=
  LogEntry.sound_new _ _ _ _

theorem sound_sweepStart (resolved : Resolved) (ctx : RunContext) :
    (sweepStart resolved ctx).Sound :=
  ((sound_entry _ _ _ _).withPreset _).withParams _

theorem sound_sweepRejected (resolved : Resolved) (ctx : RunContext) (e : ParamFault) :
    (sweepRejected resolved ctx e).Sound := by
  refine ((((sound_entry _ _ _ _).withPreset _).withParams _).withOutcome _).withDetails ?_
  simpa using Readable.text _

/-- A depth is far below the limit of a number. -/
theorem depth_lt_limit (hv : p.Valid) (hd : d ≤ p.maxDepth.toNat) : d < significandLimit :=
  (depth_lt hv hd).trans (by decide)

section Library

variable [MathLibrary] [LawfulMathLibrary]

theorem sound_sweepDepth (hv : p.Valid) (ctx : RunContext) :
    ∀ r ∈ (grid p).rows, (sweepDepth ctx r).Sound := by
  intro r hr
  rw [rows_grid] at hr
  obtain ⟨d, hd, rfl⟩ := List.mem_map.mp hr
  have hd := mem_depths.mp hd
  refine (sound_entry _ _ _ _).withDetails ?_
  simp only [List.forall_mem_cons]
  exact ⟨readable_ofNat (depth_lt_limit hv hd), readable_ofBinary64 (moderate_load hv hd),
    readable_ofBinary64 (moderate_probability hv hd), .text _, by simp⟩

theorem readable_peak (hv : p.Valid) {n : ℕ} : Readable n (.ofNat (grid p).peak.depth) ∧
    Readable n (.ofBinary64 (grid p).peak.probability) ∧
      Readable n (.ofBinary64 (grid p).peak.load) := by
  obtain ⟨hprobability, hload⟩ := moderate_peak hv
  exact ⟨readable_ofNat (depth_lt_limit hv (peak_grid hv).1), readable_ofBinary64 hprobability,
    readable_ofBinary64 hload⟩

theorem sound_sweepComplete (hv : p.Valid) (hms : ctx.elapsedMs < 0x10000000000000000)
    (resolved : Resolved) (artifacts : List String) :
    (sweepComplete resolved ctx (grid p) artifacts).Sound := by
  obtain ⟨hdepth, hprob, hload⟩ := readable_peak hv (n := 125)
  have hsaturated : Readable 125 (.arr ((grid p).saturatedDepths.map .ofNat)) :=
    readable_naturals fun d hd => depth_lt_limit hv (mem_saturatedDepths_grid.mp hd).1
  have hfields : ∀ f ∈ [("peak_depth", Json.ofNat (grid p).peak.depth),
      ("peak_probability", .ofBinary64 (grid p).peak.probability),
      ("peak_expected_load", .ofBinary64 (grid p).peak.load),
      ("saturated_depths", .arr ((grid p).saturatedDepths.map .ofNat)),
      ("fingerprint", .str (grid p).fingerprint)], Readable 125 f.2 := by
    simp only [List.forall_mem_cons]
    exact ⟨hdepth, hprob, hload, hsaturated, .text _, by simp⟩
  have hdone := (((((sound_entry ctx ((grid p).rows.length + 2) .info "sweep.complete").withPreset
    resolved.preset.name).withParams resolved.params).withOutcome .pass).withDuration
    hms).withDetails hfields
  unfold sweepComplete
  dsimp only
  split_ifs
  · exact hdone
  · exact hdone.withArtifacts _

end Library

theorem sound_compareStart (ctx : RunContext) : (compareStart ctx).Sound :=
  sound_entry _ _ _ _

theorem sound_compareComplete (hms : ctx.elapsedMs < 0x10000000000000000)
    (hopBudgets : List UInt32) : (compareComplete ctx hopBudgets).Sound := by
  refine (((sound_entry _ _ _ _).withOutcome _).withDuration hms).withDetails ?_
  have hbudgets : Readable 125 (.arr (hopBudgets.map fun b => .ofNat b.toNat)) := by
    have hlist : hopBudgets.map (fun b => Json.ofNat b.toNat) =
        (hopBudgets.map UInt32.toNat).map .ofNat := by
      rw [List.map_map]
      rfl
    rw [hlist]
    refine readable_naturals fun k hk => ?_
    obtain ⟨b, -, rfl⟩ := List.mem_map.mp hk
    exact b.toNat_lt.trans (by decide)
  exact List.forall_mem_singleton.mpr hbudgets

end LoggedRun
end BucketOverflow
