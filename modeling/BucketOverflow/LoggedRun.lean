import BucketOverflow.Log.Emitter
import BucketOverflow.Overrides
import BucketOverflow.Report

/-!
Logged runs: one sweep with its report files, or one sweep for each of several hop budgets, with a
log of every step. The log is complete when a run ends, whichever way it ends.
-/
namespace BucketOverflow

variable [MathLibrary]

/-- Where a run leaves its report and its log; what is `none` is not written. -/
structure RunOutputs where
  report : Option String
  log : Option String

/-- What a run is given besides its parameters: its name, its clock, and how long its work takes. -/
structure RunContext where
  runId : String
  clock : Clock
  elapsedMs : Nat

inductive RunFault where
  | param (fault : ParamFault)
  | file (fault : FileFault)

def RunFault.message : RunFault → String
  | .param fault => fault.message
  | .file fault => fault.message

structure SweepRun where
  sweep : Sweep
  report : Report
  artifacts : List String

/-- The files and the emitter that a run works on. -/
structure Session where
  files : Files
  emitter : Emitter

/-- A step of a run; what it has done stays done when it fails. -/
abbrev RunStep := ExceptT RunFault (StateM Session)

namespace LoggedRun

def componentName : String := "bucketrisk"
def reportTitle : String := "Bucket Overflow Risk"

/-- The emitter of a run, and the files with the directories that its log needs; they stay when the
log cannot be opened. -/
def openLog (fs : Files) (log : Option String) (runId : String) :
    Except FileFault Emitter × Files :=
  match log with
  | none => (.ok (.toNowhere componentName runId), fs)
  | some path =>
    match fs.makeParents path with
    | .error e => (.error e, fs)
    | .ok fs =>
      match Emitter.toFile fs path componentName runId with
      | .error e => (.error e, fs)
      | .ok (emitter, fs) => (.ok emitter, fs)

def emit (e : LogEntry) : RunStep Unit :=
  modify fun s =>
    let (_, emitter, files) := s.emitter.emit s.files e
    ⟨files, emitter⟩

/-- Work on the files that may fail. -/
def onFiles (work : Files → Except FileFault Files) : RunStep Unit := do
  let s ← get
  match work s.files with
  | .ok files => set { s with files }
  | .error e => throw (.file e)

/-- Runs steps against an open log and sends what is still pending, also after a failure. -/
def session (fs : Files) (log : Option String) (runId : String) (steps : RunStep α) :
    Except RunFault α × Files :=
  match openLog fs log runId with
  | (.error e, fs) => (.error (.file e), fs)
  | (.ok emitter, fs) =>
    let (result, s) := steps.run.run ⟨fs, emitter⟩
    (result, (s.emitter.flush s.files).2)

def sorted (fields : Json.Members) : Json := .obj (Json.sortFields fields)

def rowDetails (r : SweepRow) : Json :=
  sorted [("depth", .ofNat r.depth), ("expected_load", .ofBinary64 r.load),
    ("probability", .ofBinary64 r.probability), ("regime", .str r.regime.name)]

/-- A path with the digest of what it holds. -/
def artifactRef (path : String) : RunStep String := do
  match (← get).files.read path with
  | .ok content =>
    return path ++ "#sha256=" ++ String.ofList (hexLower (sha256 content.toList))
  | .error e => throw (.file e)

/-- Writes the report and its JSON sibling. -/
def writeReport (report : Report) (path : String) : RunStep (List String) := do
  let sibling := Path.withExtension "json" path
  onFiles (Files.makeParents path)
  onFiles (·.write path report.markdown.toUTF8)
  onFiles (·.write sibling report.jsonText.toUTF8)
  let first ← artifactRef path
  let second ← artifactRef sibling
  return [first, second]

/-- The text of a reading that a run takes of its clock. -/
def time (ctx : RunContext) (reading : Nat) : String := (ctx.clock.reading reading).text

/-- An entry of a run with the reading that is taken for it. -/
def entry (ctx : RunContext) (reading : Nat) (level : LogLevel) (event : String) : LogEntry :=
  .new (time ctx reading) "" level event

def sweepStart (resolved : Resolved) (ctx : RunContext) : LogEntry :=
  ((entry ctx 0 .info "sweep.start").withPreset resolved.preset.name).withParams resolved.params

def sweepRejected (resolved : Resolved) (ctx : RunContext) (e : ParamFault) : LogEntry :=
  ((((entry ctx 1 .error "sweep.rejected").withPreset resolved.preset.name).withParams
    resolved.params).withOutcome .error).withDetails (sorted [("error", .str e.message)])

/-- The rows before this one have a reading each, behind that of the start. -/
def sweepDepth (ctx : RunContext) (r : SweepRow) : LogEntry :=
  (entry ctx (r.depth + 1) .debug "sweep.depth").withDetails (rowDetails r)

/-- The report of a run; it has the reading behind those of the rows. -/
def reportOf (resolved : Resolved) (ctx : RunContext) (sweep : Sweep) : Report :=
  .ofSweep reportTitle resolved.preset.name (time ctx (sweep.rows.length + 1)) sweep

def sweepComplete (resolved : Resolved) (ctx : RunContext) (sweep : Sweep)
    (artifacts : List String) : LogEntry :=
  let peak := sweep.peak
  let done := ((((entry ctx (sweep.rows.length + 2) .info "sweep.complete").withPreset
    resolved.preset.name).withParams resolved.params).withOutcome .pass).withDuration ctx.elapsedMs
  let done := done.withDetails (sorted [("peak_depth", .ofNat peak.depth),
    ("peak_probability", .ofBinary64 peak.probability),
    ("peak_expected_load", .ofBinary64 peak.load),
    ("saturated_depths", .arr (sweep.saturatedDepths.map .ofNat)),
    ("fingerprint", .str sweep.fingerprint)])
  if artifacts.isEmpty then done else done.withArtifacts artifacts

def sweepSteps (resolved : Resolved) (outputs : RunOutputs) (ctx : RunContext) :
    RunStep SweepRun := do
  emit (sweepStart resolved ctx)
  match Sweep.run resolved.params with
  | .error e =>
    emit (sweepRejected resolved ctx e)
    throw (.param e)
  | .ok sweep =>
    sweep.rows.forM fun r => emit (sweepDepth ctx r)
    let report := reportOf resolved ctx sweep
    let artifacts ← match outputs.report with
      | some path => writeReport report path
      | none => pure []
    emit (sweepComplete resolved ctx sweep artifacts)
    return ⟨sweep, report, artifacts⟩

/-- One sweep, its report and its log. -/
def sweep (resolved : Resolved) (outputs : RunOutputs) (ctx : RunContext) (fs : Files) :
    Except RunFault SweepRun × Files :=
  session fs outputs.log ctx.runId (sweepSteps resolved outputs ctx)

def compareStart (ctx : RunContext) : LogEntry := entry ctx 0 .info "compare.start"

/-- The sweep with this index in a comparison. -/
def compareSeries (resolved : Resolved) (ctx : RunContext) (index : Nat) (s : Sweep) : LogEntry :=
  ((((entry ctx (index + 1) .info "compare.series").withPreset resolved.preset.name).withParams
    s.params).withOutcome .pass).withDetails (sorted [("peak_depth", .ofNat s.peak.depth),
      ("peak_probability", .ofBinary64 s.peak.probability)])

def compareComplete (ctx : RunContext) (hopBudgets : List UInt32) : LogEntry :=
  (((entry ctx (hopBudgets.length + 1) .info "compare.complete").withOutcome .pass).withDuration
    ctx.elapsedMs).withDetails (sorted
      [("hop_budgets", .arr (hopBudgets.map fun b => .ofNat b.toNat))])

def comparisonSteps (resolved : Resolved) (hopBudgets : List UInt32) (ctx : RunContext) :
    RunStep (List Sweep) := do
  emit (compareStart ctx)
  match Sweep.compare resolved.params hopBudgets with
  | .error e => throw (.param e)
  | .ok sweeps =>
    sweeps.zipIdx.forM fun s => emit (compareSeries resolved ctx s.2 s.1)
    emit (compareComplete ctx hopBudgets)
    return sweeps

/-- One sweep for each hop budget, and a log. -/
def comparison (resolved : Resolved) (hopBudgets : List UInt32) (log : Option String)
    (ctx : RunContext) (fs : Files) : Except RunFault (List Sweep) × Files :=
  session fs log ctx.runId (comparisonSteps resolved hopBudgets ctx)

end LoggedRun
end BucketOverflow
