import BucketOverflow.Proofs.LoggedRun.Trail

/-! What the log says in the end. The last line names the outcome of a run that went well and of a
sweep that was refused; every other failure leaves a log that just stops. -/
namespace BucketOverflow

namespace Log

variable {component runId : String} {es : List LogEntry} {e : LogEntry}

/-- The last line of a text is the last entry. -/
theorem getLast?_linesOf (h : es.getLast? = some e) : (linesOf component runId es).getLast? =
    some (numbered component runId es.length e).line.toList := by
  obtain ⟨before, rfl⟩ := List.getLast?_eq_some_iff.mp h
  simp [linesOf, List.mapIdx_append]

end Log

namespace LoggedRun

variable {fs opened : Files} {log : String} {es : List LogEntry} {e : LogEntry} {em : Emitter}
  {resolved : Resolved} {ctx : RunContext} {outputs : RunOutputs} {hopBudgets : List UInt32}

/-- A log whose last line has an outcome, or none. -/
def LastOutcome (fs : Files) (log : String) (outcome : Option Outcome) : Prop :=
  ∃ text line fields, fs.readText log = .ok text ∧
    (Text.lines text.toList).getLast? = some line ∧
    Json.parse (String.ofList line) = .ok (.obj fields) ∧
    Json.field? "outcome" fields = outcome.map fun o => .str o.name

/-- The last line tells the outcome of the last entry. -/
theorem lastOutcome_of_text {runId : String} (h : es.getLast? = some e) (hs : e.Sound)
    (hread : fs.readText log = .ok (Log.textOf componentName runId es)) :
    LastOutcome fs log e.outcome := by
  have hsound := Log.sound_numbered hs componentName runId es.length
  have hline : (Text.lines (Log.textOf componentName runId es).toList).getLast? =
      some (Log.numbered componentName runId es.length e).line.toList := by
    rw [Log.lines_textOf, Log.getLast?_linesOf h]
  refine ⟨_, _, (Log.numbered componentName runId es.length e).readFields, hread, hline, ?_, ?_⟩
  · rw [String.ofList_toList, hsound.parse_line]
  · rw [LogEntry.field?_readFields (by decide)]
    have hslot : (Log.numbered componentName runId es.length e).slotOf "outcome" =
        e.outcome.map fun o => .str o.name := rfl
    rw [hslot, Option.map_map]
    rfl

/-- The outcome in the log of a sweep, by the way it ends. -/
def sweepOutcome : Except RunFault SweepRun → Option Outcome
  | .ok _ => some .pass
  | .error (.param _) => some .error
  | .error (.file _) => none

/-- The outcome in the log of a comparison, by the way it ends. -/
def comparisonOutcome : Except RunFault (List Sweep) → Option Outcome
  | .ok _ => some .pass
  | .error _ => none

theorem outcome_sweepComplete (resolved : Resolved) (ctx : RunContext) (sweep : Sweep)
    (artifacts : List String) :
    (sweepComplete resolved ctx sweep artifacts).outcome = some .pass := by
  unfold sweepComplete
  dsimp only
  split_ifs <;> rfl

section Library

variable [MathLibrary]

/-- The last entry of a sweep. -/
theorem SweepLeaves.last {result : Except RunFault SweepRun}
    (h : SweepLeaves resolved ctx result es) :
    ∃ e, es.getLast? = some e ∧ e.outcome = sweepOutcome result := by
  cases h with
  | @complete run hrun =>
    refine ⟨sweepComplete resolved ctx run.sweep run.artifacts, ?_, outcome_sweepComplete _ _ _ _⟩
    rw [← List.cons_append, List.getLast?_concat]
  | @rejected e hrun => exact ⟨sweepRejected resolved ctx e, rfl, rfl⟩
  | @unwritten sweep f hrun =>
    cases hlast : (sweep.rows.map (sweepDepth ctx)).getLast? with
    | none => exact ⟨sweepStart resolved ctx, by simp_all, rfl⟩
    | some e =>
      obtain ⟨r, -, rfl⟩ := List.mem_map.mp (List.mem_of_getLast? hlast)
      exact ⟨sweepDepth ctx r, by rw [List.getLast?_cons, hlast]; rfl, rfl⟩

/-- The last entry of a comparison. -/
theorem ComparisonLeaves.last {result : Except RunFault (List Sweep)}
    (h : ComparisonLeaves resolved hopBudgets ctx result es)
    (hms : ctx.elapsedMs < 0x10000000000000000) :
    ∃ e, es.getLast? = some e ∧ e.Sound ∧ e.outcome = comparisonOutcome result := by
  cases h with
  | complete hrun =>
    refine ⟨compareComplete ctx hopBudgets, ?_, sound_compareComplete hms _, rfl⟩
    rw [← List.cons_append, List.getLast?_concat]
  | rejected hrun => exact ⟨compareStart ctx, rfl, sound_compareStart ctx, rfl⟩

variable [LawfulMathLibrary]

/-- Whatever happens to a run with an open log, the log ends in a readable line. It says that the
run passed exactly when it did; that it failed, only for a sweep of refused parameters, wherever the
report would have gone. -/
theorem last_outcome (resolved : Resolved) (outputs : RunOutputs) (hopBudgets : List UInt32)
    (ctx : RunContext) (fs : Files) (log : String) (hms : ctx.elapsedMs < 0x10000000000000000)
    (hopen : openLog fs (some log) ctx.runId = (.ok em, opened)) :
    (outputs.log = some log →
      (∀ s, Sweep.run resolved.params = .ok s → Apart fs outputs.report log) →
      LastOutcome (sweep resolved outputs ctx fs).2 log
        (sweepOutcome (sweep resolved outputs ctx fs).1)) ∧
    LastOutcome (comparison resolved hopBudgets (some log) ctx fs).2 log
      (comparisonOutcome (comparison resolved hopBudgets (some log) ctx fs).1) := by
  constructor
  · intro hlog hapart
    obtain ⟨es, hleaves, hread⟩ := sweep_leaves hlog hopen hapart
    obtain ⟨e, hlast, houtcome⟩ := hleaves.last
    rw [← houtcome]
    exact lastOutcome_of_text hlast (hleaves.sound hms e (List.mem_of_getLast? hlast)) hread
  · obtain ⟨es, hleaves, hread⟩ := comparison_leaves hopen
    obtain ⟨e, hlast, hsound, houtcome⟩ := hleaves.last hms
    rw [← houtcome]
    exact lastOutcome_of_text hlast hsound hread

end Library

/-- No hop budgets and a report that is a directory leave a log without an end; parameters that are
refused do not, though the report has the path of the log. -/
theorem last_outcome_unfinished :
    ∃ (stopped unwritten rejected : Files),
      (∃ e, comparison ⟨.analysis, ⟨1, 1, 1, 0, 1, .literal⟩⟩ [] (some "run.log")
        ⟨"r", ticking, 0⟩ .empty = (.error (.param e), stopped)) ∧
      LastOutcome stopped "run.log" none ∧
      (∃ f, sweep ⟨.analysis, ⟨1, 1, 1, 0, 1, .literal⟩⟩ ⟨some "d/", some "run.log"⟩
        ⟨"r", ticking, 0⟩ .empty = (.error (.file f), unwritten)) ∧
      LastOutcome unwritten "run.log" none ∧
      (∃ e, sweep ⟨.analysis, ⟨0, 1, 1, 0, 1, .literal⟩⟩ ⟨some "run.log", some "run.log"⟩
        ⟨"r", ticking, 0⟩ .empty = (.error (.param e), rejected)) ∧
      LastOutcome rejected "run.log" (some .error) := by
  have hlog : (openLog .empty (some "run.log") "r").1.isOk = true := by decide +kernel
  obtain ⟨em, opened, hopen⟩ :
      ∃ em opened, openLog .empty (some "run.log") "r" = (.ok em, opened) := by
    generalize openLog .empty (some "run.log") "r" = opening at hlog ⊢
    obtain ⟨_ | em, opened⟩ := opening
    · cases hlog
    · exact ⟨em, opened, rfl⟩
  have hgood := last_outcome ⟨.analysis, ⟨1, 1, 1, 0, 1, .literal⟩⟩ ⟨some "d/", some "run.log"⟩ []
    ⟨"r", ticking, 0⟩ .empty "run.log" (by decide) hopen
  have hbad := last_outcome ⟨.analysis, ⟨0, 1, 1, 0, 1, .literal⟩⟩
    ⟨some "run.log", some "run.log"⟩ [] ⟨"r", ticking, 0⟩ .empty "run.log" (by decide) hopen
  have hapart : Apart .empty (some "d/") "run.log" := by
    rintro _ ⟨⟩
    decide +kernel
  have hinvalid : Sweep.run ⟨0, 1, 1, 0, 1, .literal⟩ = .error .zeroCapacity := rfl
  have hstopped : (comparison ⟨.analysis, ⟨1, 1, 1, 0, 1, .literal⟩⟩ [] (some "run.log")
      ⟨"r", ticking, 0⟩ .empty).1 matches .error (.param _) := by decide +kernel
  have hunwritten : (sweep ⟨.analysis, ⟨1, 1, 1, 0, 1, .literal⟩⟩ ⟨some "d/", some "run.log"⟩
      ⟨"r", ticking, 0⟩ .empty).1 matches .error (.file _) := by decide +kernel
  have hrejected : (sweep ⟨.analysis, ⟨0, 1, 1, 0, 1, .literal⟩⟩
      ⟨some "run.log", some "run.log"⟩ ⟨"r", ticking, 0⟩ .empty).1 matches .error (.param _) := by
    decide +kernel
  have hlast := hgood.1 rfl fun _ _ => hapart
  have hnone := hgood.2
  have herror := hbad.1 rfl fun s hs => by
    rw [hinvalid] at hs
    cases hs
  generalize comparison _ _ _ _ _ = stopped at hnone hstopped ⊢
  generalize sweep _ ⟨some "d/", _⟩ _ _ = unwritten at hlast hunwritten ⊢
  generalize sweep _ ⟨some "run.log", _⟩ _ _ = rejected at herror hrejected ⊢
  obtain ⟨(e | _) | _, stopped⟩ := stopped
  case error.file | ok => cases hstopped
  obtain ⟨(_ | f) | _, unwritten⟩ := unwritten
  case error.param | ok => cases hunwritten
  obtain ⟨(e' | _) | _, rejected⟩ := rejected
  case error.file | ok => cases hrejected
  exact ⟨stopped, unwritten, rejected, ⟨e, rfl⟩, hnone, ⟨f, rfl⟩, hlast, ⟨e', rfl⟩, herror⟩

end LoggedRun
end BucketOverflow
