import BucketOverflow.Binary64.Platform
import BucketOverflow.Chart
import BucketOverflow.Command.Arguments
import BucketOverflow.Command.Diagnostics
import BucketOverflow.Drift
import BucketOverflow.Log.Validator
import BucketOverflow.Snapshot.Reader

/-!
What a command prints, the files that it leaves, and how it ends.
-/
namespace BucketOverflow
open Text

variable [MathLibrary]

/-- The result of a command. -/
structure CommandResult where
  exitCode : Nat
  stdout : String
  stderr : String
  files : Files

/-- A command under way: what it has printed and the files. -/
structure Console where
  stdout : String
  stderr : String
  files : Files

/-- A step of a command; a failure carries the fault's diagnostic. -/
abbrev CommandStep := ExceptT String (StateM Console)

namespace Command

/-- What a command finds: its clock, its process, and how long its work takes. -/
structure Context where
  clock : Clock
  process : Nat
  elapsedMs : Nat

def chartTitle : String := "Overflow probability by depth"

def out (s : String) : CommandStep Unit := modify fun c => { c with stdout := c.stdout ++ s }

/-- A line for the diagnostic stream. -/
def note (s : String) : CommandStep Unit :=
  modify fun c => { c with stderr := c.stderr ++ s ++ "\n" }

def orFail (diagnostic : ε → String) : Except ε α → CommandStep α
  | .ok a => pure a
  | .error e => throw (diagnostic e)

/-- A fault that is only a text. -/
def failText (message : String) : CommandStep α := throw (quoted message)

def files : CommandStep Files := return (← get).files

/-- Work on the files; what it did stays done when it fails. -/
def withFiles (diagnostic : ε → String) (work : Files → Except ε α × Files) :
    CommandStep α := do
  let (result, fs) := work (← get).files
  modify fun c => { c with files := fs }
  orFail diagnostic result

def onFiles (work : Files → Except FileFault Files) : CommandStep Unit :=
  withFiles FileFault.diagnostic fun fs =>
    match work fs with
    | .ok fs' => (.ok (), fs')
    | .error e => (.error e, fs)

/-- A run has its name from the first reading, and takes those that follow. -/
def Context.run (ctx : Context) : RunContext :=
  ⟨"run-" ++ natDiagnostic (ctx.clock.reading 0).secs ++ "-" ++ natDiagnostic ctx.process,
    ctx.clock.later 1, ctx.elapsedMs⟩

/-- Numbers between brackets. -/
def listText (ns : List Nat) : String := "[" ++ ", ".intercalate (ns.map natDiagnostic) ++ "]"

def sweepHeader (r : Resolved) : String :=
  let p := r.params
  "Sweeping depths 0..=" ++ natDiagnostic p.maxDepth.toNat ++ " (preset=" ++ r.preset.name
    ++ ", Z=" ++ natDiagnostic p.capacity.toNat ++ ", x=" ++ natDiagnostic p.items.toNat
    ++ ", y=" ++ natDiagnostic p.paths.toNat ++ ", ΔExp=" ++ natDiagnostic p.hopBudget.toNat
    ++ ", tail_policy=" ++ p.tailPolicy.name ++ ")"

def resolved (params : Overrides) : CommandStep Resolved := do
  orFail ResolveFault.diagnostic (params.resolve (← files))

def chart (series : List ChartSeries) (rows : Nat) : CommandStep Unit := do
  out (← orFail ChartFault.message (Chart.render series chartTitle rows))

def sweepSteps (ctx : Context) (params : Overrides) (report log : Option String) (rows : Nat) :
    CommandStep Unit := do
  let r ← resolved params
  note (sweepHeader r)
  let run ← withFiles RunFault.diagnostic (LoggedRun.sweep r ⟨report, log⟩ ctx.run)
  out (run.report.summary ++ "\n\n")
  chart [run.sweep.series] rows
  let saturated := run.sweep.saturatedDepths
  if !saturated.isEmpty then
    note (natDiagnostic saturated.length ++ " depth(s) have expected load >= capacity: "
      ++ listText saturated)
  run.artifacts.forM fun a => note ("Wrote " ++ a)
  log.forM fun path => note ("Wrote log to " ++ path)

def compareSteps (ctx : Context) (params : Overrides) (raw : String) (log : Option String)
    (rows : Nat) : CommandStep Unit := do
  let r ← resolved params
  let budgets ← orFail ResolveFault.diagnostic (readHopBudgets raw)
  note ("Comparing hop budgets " ++ listText (budgets.map (·.toNat)))
  let sweeps ← withFiles RunFault.diagnostic (LoggedRun.comparison r budgets log ctx.run)
  sweeps.forM fun s => out (s.series.label ++ ": " ++ s.peak.summary ++ "\n")
  out "\n"
  chart (sweeps.map Sweep.series) rows

def snapshotSteps (params : Overrides) (output : String) : CommandStep Unit := do
  let r ← resolved params
  let snapshot ← orFail ParamFault.diagnostic (Snapshot.take r.params)
  onFiles (Files.makeParents output)
  onFiles (·.write output snapshot.toText.toUTF8)
  note ("Wrote snapshot to " ++ output ++ " (fingerprint " ++ snapshot.fingerprint ++ ")")

def readSnapshot (path : String) : CommandStep Snapshot := do
  match (← files).readText path with
  | .error e => failText ("failed to read " ++ path ++ ": " ++ e.message)
  | .ok text =>
    match Snapshot.ofText text with
    | .error e => failText ("failed to parse " ++ path ++ ": " ++ e.message)
    | .ok s => return s

def diffSteps (golden current : String) (all : Bool) : CommandStep Unit := do
  let g ← readSnapshot golden
  let c ← readSnapshot current
  match Drift.between g c all with
  | .error e => failText e.message
  | .ok drift =>
    out drift.plain
    if drift.hasAlerts then failText ("snapshot drift: " ++ golden ++ " vs " ++ current)

def validateSteps (input : String) : CommandStep Unit := do
  let (lines, faults) ← orFail FileFault.diagnostic (Log.validateFile (← files) input)
  faults.forM fun f => note f.message
  if faults.isEmpty then note (input ++ ": " ++ natDiagnostic lines ++ " valid line(s)")
  else failText (natDiagnostic faults.length ++ " validation error(s) in " ++ natDiagnostic lines
    ++ " line(s) of " ++ input)

def steps (ctx : Context) : Command → CommandStep Unit
  | .sweep params report log rows => sweepSteps ctx params report log rows
  | .compare params raw log rows => compareSteps ctx params raw log rows
  | .snapshot params output => snapshotSteps params output
  | .diffSnapshot golden current all => diffSteps golden current all
  | .validateLog input => validateSteps input

/-- Runs a command; a fault is named on the diagnostic stream and ends with code one. -/
def run (ctx : Context) (fs : Files) (c : Command) : CommandResult :=
  match (c.steps ctx).run.run ⟨"", "", fs⟩ with
  | (.ok (), s) => ⟨0, s.stdout, s.stderr, s.files⟩
  | (.error e, s) => ⟨1, s.stdout, s.stderr ++ "Error: " ++ e ++ "\n", s.files⟩

end Command
end BucketOverflow
