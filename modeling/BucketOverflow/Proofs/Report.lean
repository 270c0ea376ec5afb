import BucketOverflow.Report
import BucketOverflow.Proofs.Binary64.Library
import BucketOverflow.Proofs.Json.Rereading
import BucketOverflow.Proofs.Snapshot.RoundTrip

/-! The JSON of a report reads back. Its floats are read inexactly, but each stays a number, and a
probability stays positive, so that a logarithm is there for the same depths as before. -/
namespace BucketOverflow
open Json Binary64

namespace Json

variable {x : Binary64}

theorem moderate_log10 [MathLibrary] [LawfulMathLibrary] (hx : x.isFinite = true)
    (h0 : zero false < x) : Moderate (log10 x) := by
  have hone : (0 : ℚ) < 2 ^ unitExp := by positivity
  refine ⟨isFinite_log10 hx h0, (units_mag_le (abs_log10_le hx h0)).trans_lt ?_⟩
  exact mul_lt_mul_of_pos_right (by norm_num) hone

/-- What is positive is read as positive, and nothing else is. -/
theorem zero_lt_reread_iff (hx : Moderate x) : zero false < reread x ↔ zero false < x := by
  have hwithin := within_reread hx
  rw [zero_lt_iff, zero_lt_iff, hwithin.isNeg_eq]
  cases hn : x.isNeg with
  | true => simp
  | false =>
    have hmag := mag_reread_eq_zero_iff hx hn
    simp [hwithin.not_nan, isNaN_of_isFinite hx.finite, Nat.pos_iff_ne_zero, hmag]

end Json

/-! Parts of a report -/

/-- The peak that is read from the text of a peak. -/
def Peak.reread (k : Peak) : Peak :=
  { k with probability := Json.reread k.probability, load := Json.reread k.load }

/-- A peak whose depth has 32 bits and whose floats are moderate. -/
structure Peak.Writable (k : Peak) : Prop where
  depth_lt : k.depth < 0x100000000
  probability : Moderate k.probability
  load : Moderate k.load

theorem Peak.reads {k : Peak} (h : k.Writable) : Reads (record Peak.schema) k.toJson k.reread := by
  refine reads_record (x := (some k.depth, some (Json.reread k.probability),
    some (Json.reread k.load))) ?_ rfl
  refine .cons (readsMember_slot rfl rfl (reads_natural32 h.depth_lt) fun _ _ => bind_of_ok) ?_
  refine .cons (readsMember_slot rfl rfl (reads_binary64 h.probability) fun _ _ => bind_of_ok) ?_
  exact .cons (readsMember_slot rfl rfl (reads_binary64 h.load) fun _ _ => bind_of_ok) (.nil _)

namespace ReportRow

/-- The row that is read from the text of a row. -/
def reread (r : ReportRow) : ReportRow :=
  { r with
    load := Json.reread r.load
    probability := Json.reread r.probability
    log10 := r.log10.map Json.reread }

/-- A row whose depth has 32 bits and whose floats are moderate. -/
structure Writable (r : ReportRow) : Prop where
  depth_lt : r.depth < 0x100000000
  load : Moderate r.load
  probability : Moderate r.probability
  log10 : ∀ x ∈ r.log10, Moderate x

theorem reads {r : ReportRow} (h : r.Writable) :
    Reads (record ReportRow.schema) (Report.rowJson r) r.reread := by
  refine reads_record (x := ⟨some r.depth, some (Json.reread r.load),
    some (Json.reread r.probability), some (r.log10.map Json.reread), some r.regime⟩) ?_ rfl
  refine .cons (readsMember_slot rfl rfl (reads_natural32 h.depth_lt) fun _ _ => bind_of_ok) ?_
  refine .cons (readsMember_slot rfl rfl (reads_binary64 h.load) fun _ _ => bind_of_ok) ?_
  refine .cons (readsMember_slot rfl rfl (reads_binary64 h.probability) fun _ _ => bind_of_ok) ?_
  refine .cons (readsMember_slot rfl rfl (reads_optional h.log10) fun _ _ => bind_of_ok) ?_
  exact .cons (readsMember_slot rfl rfl (reads_variant r.regime.lookup_name)
    fun _ _ => bind_of_ok) (.nil _)

end ReportRow

namespace Report
open Sweep

/-- A report whose depths have 32 bits and whose floats are moderate. -/
structure Writable (r : Report) : Prop where
  peak : r.peak.Writable
  saturatedDepths_lt : ∀ d ∈ r.saturatedDepths, d < 0x100000000
  rows : ∀ row ∈ r.rows, row.Writable

/-- The report that is read from the text of a report. -/
def reread (r : Report) : Report :=
  { r with peak := r.peak.reread, rows := r.rows.map (·.reread) }

/-- A written report reads back, each float as the reader takes it. -/
theorem ofText_jsonText {r : Report} (h : r.Writable) : ofText r.jsonText = .ok r.reread := by
  have hdepths := reads_depths h.saturatedDepths_lt
  have hrows := reads_list_map fun row hrow => ReportRow.reads (h.rows row hrow)
  refine Reads.toPretty (reads_record (x := ⟨some r.title, some r.preset, some r.timestamp,
    some r.params, some r.peak.reread, some r.fingerprint, some r.saturatedDepths,
    some (r.rows.map (·.reread))⟩) ?_ rfl)
  refine .cons (readsMember_slot rfl rfl (reads_text r.title) fun _ _ => bind_of_ok) ?_
  refine .cons (readsMember_slot rfl rfl (reads_text r.preset) fun _ _ => bind_of_ok) ?_
  refine .cons (readsMember_slot rfl rfl (reads_text r.timestamp) fun _ _ => bind_of_ok) ?_
  refine .cons (readsMember_slot rfl rfl r.params.reads fun _ _ => bind_of_ok) ?_
  refine .cons (readsMember_slot rfl rfl (Peak.reads h.peak) fun _ _ => bind_of_ok) ?_
  refine .cons (readsMember_slot rfl rfl (reads_text r.fingerprint) fun _ _ => bind_of_ok) ?_
  refine .cons (readsMember_slot rfl rfl hdepths fun _ _ => bind_of_ok) ?_
  exact .cons (readsMember_slot rfl rfl hrows fun _ _ => bind_of_ok) (.nil _)

/-! The report of a sweep -/

variable {title preset timestamp : String} {p : Params}

section Library

variable [MathLibrary]

theorem rows_ofSweep (title preset timestamp : String) (p : Params) :
    (ofSweep title preset timestamp (grid p)).rows = p.depths.map fun d =>
      ⟨d, loadAt p d, (estimateAt p d).probability,
        if zero false < (estimateAt p d).probability then some (estimateAt p d).probability.log10
        else none, (estimateAt p d).regime⟩ := by
  rw [ofSweep, rows_grid, List.map_map]
  rfl

variable [LawfulMathLibrary]

theorem writable_ofSweep (hv : p.Valid) : (ofSweep title preset timestamp (grid p)).Writable := by
  obtain ⟨hprobability, hload⟩ := moderate_peak hv
  refine ⟨⟨depth_lt hv (peak_grid hv).1, hprobability, hload⟩, saturatedDepths_lt hv, ?_⟩
  intro r hr
  rw [rows_ofSweep] at hr
  obtain ⟨d, hd, rfl⟩ := List.mem_map.mp hr
  have hd := mem_depths.mp hd
  refine ⟨depth_lt hv hd, moderate_load hv hd, moderate_probability hv hd, fun x hx => ?_⟩
  dsimp only at hx
  -- a logarithm that is not finite would be written as null and lost; that of zero is not written
  split_ifs at hx with h0
  · obtain rfl := Option.some.inj hx
    exact moderate_log10 (moderate_probability hv hd).finite h0
  · cases hx

end Library

end Report

/-! What is kept -/

/-- What a row keeps through its text. A probability is positive as before, and exactly then there
is a logarithm. -/
structure ReportRow.Kept (r t : ReportRow) : Prop where
  depth : t.depth = r.depth
  regime : t.regime = r.regime
  log10_written : r.log10.isSome = true ↔ zero false < r.probability
  log10_read : t.log10.isSome = true ↔ zero false < r.probability
  positive : zero false < t.probability ↔ zero false < r.probability

/-- What a report keeps through its text: all but the floats, row by row. -/
structure Report.Kept (r t : Report) : Prop where
  title : t.title = r.title
  preset : t.preset = r.preset
  timestamp : t.timestamp = r.timestamp
  params : t.params = r.params
  fingerprint : t.fingerprint = r.fingerprint
  saturatedDepths : t.saturatedDepths = r.saturatedDepths
  peakDepth : t.peak.depth = r.peak.depth
  rows : List.Forall₂ ReportRow.Kept r.rows t.rows

theorem ReportRow.kept_reread {r : ReportRow} (h : r.Writable)
    (hlog : r.log10.isSome = true ↔ zero false < r.probability) : r.Kept r.reread where
  depth := rfl
  regime := rfl
  log10_written := hlog
  log10_read := by
    rw [reread, Option.isSome_map]
    exact hlog
  positive := zero_lt_reread_iff h.probability

namespace Report
open Sweep

variable {title preset timestamp : String} {p : Params}

/-- The text that stands in for a report that cannot be written. -/
def fallback (message : String) : String := "\x7b\"error\": \"" ++ message ++ "\"\x7d"

/-- The text of a report goes on with a new line behind its first bracket. -/
theorem jsonText_ne_fallback (r : Report) (message : String) : r.jsonText ≠ fallback message := by
  intro h
  have hchars := congrArg String.toList h
  rw [jsonText, toPretty, String.toList_ofList, fallback, String.toList_append,
    String.toList_append] at hchars
  have hsecond := congrArg (·[1]?) hchars
  exact absurd (Option.some.inj hsecond) (by decide)

section Library

variable [MathLibrary] [LawfulMathLibrary]

theorem kept_reread (hv : p.Valid) : (ofSweep title preset timestamp (grid p)).Kept
    (ofSweep title preset timestamp (grid p)).reread := by
  refine ⟨rfl, rfl, rfl, rfl, rfl, rfl, rfl, ?_⟩
  rw [reread, List.forall₂_map_right_iff, List.forall₂_same]
  intro r hr
  refine ReportRow.kept_reread ((writable_ofSweep hv).rows r hr) ?_
  rw [rows_ofSweep] at hr
  obtain ⟨d, -, rfl⟩ := List.mem_map.mp hr
  dsimp only
  split_ifs with h0 <;> simp [h0]

/-- The JSON of the report of every valid set is no stand-in and reads back. The strings, the
parameters, the depths and the regimes are those that were written, and a logarithm is there for
exactly the depths whose probability is positive. -/
theorem ofSweep_ofText_kept (title preset timestamp : String) (p : Params)
    (h : p.validate = .ok ()) : ∃ s t, Sweep.run p = .ok s ∧
      (∀ message, (ofSweep title preset timestamp s).jsonText ≠ fallback message) ∧
      ofText (ofSweep title preset timestamp s).jsonText = .ok t ∧
      (ofSweep title preset timestamp s).Kept t := by
  have hv := Params.valid_of_validate h
  exact ⟨_, _, run_eq_grid h, jsonText_ne_fallback _, ofText_jsonText (writable_ofSweep hv),
    kept_reread hv⟩

end Library

/-- Strings with quotes, breaks and brackets, over a capacity that a few items do not reach. -/
theorem ofSweep_ofText_kept_quoted : ∃ p : Params, p.validate = .ok () ∧
    ∃ s t, Sweep.run p = .ok s ∧
      ofText (ofSweep "a \"quoted\"\nΔ" "\x7b\"error\": \"\"\x7d" "" s).jsonText = .ok t ∧
      t.title = "a \"quoted\"\nΔ" ∧ t.preset = "\x7b\"error\": \"\"\x7d" ∧ t.params = p ∧
      t.rows.length = 4 := by
  have h : Params.validate ⟨1000000, 3, 2, 3, 7, .saturating⟩ = .ok () := rfl
  obtain ⟨s, t, hrun, -, hread, hkept⟩ := ofSweep_ofText_kept "a \"quoted\"\nΔ"
    "\x7b\"error\": \"\"\x7d" "" _ h
  obtain ⟨-, rfl⟩ := eq_grid_of_run hrun
  refine ⟨_, h, _, t, hrun, hread, hkept.title, hkept.preset, hkept.params, ?_⟩
  rw [← hkept.rows.length_eq, rows_ofSweep, List.length_map, length_depths]
  rfl

end Report
end BucketOverflow
