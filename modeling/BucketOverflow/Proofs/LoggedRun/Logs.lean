import BucketOverflow.Proofs.LoggedRun.Steps

/-! The log that a run leaves. Once the log is open the run decides by the way it ends which entries
stand in it, and all of them are there, whatever happened to the other files. -/
namespace BucketOverflow.LoggedRun
open Files

variable {fs opened : Files} {log runId : String} {p : Place} {em : Emitter} {α : Type}
  {resolved : Resolved} {ctx : RunContext} {outputs : RunOutputs}

/-- A log that is open: it is empty, and paths lead where they led. -/
structure Opened (fs : Files) (log runId : String) (em : Emitter) (opened : Files) : Prop where
  names : Names opened log (fs.place log)
  grows : Grows [fs.place log] fs opened
  logging : Logging opened (fs.place log) runId [] ⟨opened, em⟩

theorem opened_of_openLog (h : openLog fs (some log) runId = (.ok em, opened)) :
    Opened fs log runId em opened := by
  unfold openLog at h
  dsimp only at h
  split at h
  · cases h
  rename_i fs₁ hparents
  have hfirst := grows_makeParents hparents
  cases hc : Emitter.toFile fs₁ log componentName runId with
  | error e => simp [hc] at h
  | ok r =>
    obtain ⟨p, hcreated, hem⟩ := Emitter.created_of_toFile hc
    simp only [hc, Prod.mk.injEq, Except.ok.injEq] at h
    obtain ⟨rfl, rfl⟩ := h
    have hp : fs.place log = p := (hfirst.place log).symm.trans hcreated.names.place
    subst hp
    refine ⟨hcreated.grows.names hcreated.names, (hfirst.trans hcreated.grows).mono (by simp), ?_⟩
    rw [hem]
    exact ⟨Emitter.holds_of_created _ _ hcreated, rfl, rfl, rfl, [], grows_refl _⟩

/-- A run with an open log, or none, does its steps and sends what is left. -/
theorem session_of_openLog {log : Option String}
    (hopen : openLog fs log runId = (.ok em, opened)) (steps : RunStep α) :
    session fs log runId steps = ((ending steps ⟨opened, em⟩).1,
      ((ending steps ⟨opened, em⟩).2.emitter.flush (ending steps ⟨opened, em⟩).2.files).2) := by
  simp only [session, hopen]
  rfl

/-- What the steps of a run ensure holds when they end; then what is left is sent. -/
theorem session_ensures {log : Option String} {steps : RunStep α} {P : Session → Prop}
    {Q : α → Session → Prop} {E : RunFault → Session → Prop}
    (hopen : openLog fs log runId = (.ok em, opened)) (h : Ensures P steps Q E)
    (hstart : P ⟨opened, em⟩) :
    ∃ s, (session fs log runId steps).2 = (s.emitter.flush s.files).2 ∧
      match (session fs log runId steps).1 with
      | .ok a => Q a s
      | .error e => E e s := by
  have hend := h ⟨opened, em⟩ hstart
  rw [session_of_openLog hopen]
  refine ⟨(ending steps ⟨opened, em⟩).2, rfl, ?_⟩
  generalize ending steps ⟨opened, em⟩ = last at hend ⊢
  obtain ⟨_ | _, _⟩ := last <;> exact hend

/-- A run that does not fail over a file had its log open. -/
theorem openLog_of_session {log : Option String} {steps : RunStep α}
    (h : ∀ f, (session fs log runId steps).1 ≠ .error (.file f)) :
    ∃ em opened, openLog fs log runId = (.ok em, opened) := by
  cases hopen : openLog fs log runId with
  | mk result opened =>
    cases result with
    | ok em => exact ⟨em, opened, rfl⟩
    | error f =>
      refine absurd ?_ (h f)
      simp only [session, hopen]

/-- All entries are in the file once what is left is sent. -/
theorem Logging.readText_flush {es : List LogEntry} {s : Session}
    (hs : Logging opened (fs.place log) runId es s) (hnames : Names opened log (fs.place log)) :
    (s.emitter.flush s.files).2.readText log = .ok (Log.textOf componentName runId es) := by
  obtain ⟨_, hgrows⟩ := hs.grows
  exact readText_of_read (hs.holds.read_flush (hgrows.names hnames))

/-- The log at the end of a run: all entries were sent. -/
theorem session_leaves {steps : RunStep α} {leaves : Except RunFault α → List LogEntry → Prop}
    (hopen : openLog fs (some log) runId = (.ok em, opened))
    (h : Ensures (Logging opened (fs.place log) runId []) steps
      (fun a s => ∃ es, leaves (.ok a) es ∧ Logging opened (fs.place log) runId es s)
      (fun e s => ∃ es, leaves (.error e) es ∧ Logging opened (fs.place log) runId es s)) :
    ∃ es, leaves (session fs (some log) runId steps).1 es ∧
      (session fs (some log) runId steps).2.readText log =
        .ok (Log.textOf componentName runId es) := by
  have hopened := opened_of_openLog hopen
  obtain ⟨s, hfiles, hend⟩ := session_ensures hopen h hopened.logging
  rw [hfiles]
  cases hresult : (session fs (some log) runId steps).1 with
  | ok a =>
    rw [hresult] at hend
    obtain ⟨es, hleaves, hs⟩ := hend
    exact ⟨es, hleaves, hs.readText_flush hopened.names⟩
  | error e =>
    rw [hresult] at hend
    obtain ⟨es, hleaves, hs⟩ := hend
    exact ⟨es, hleaves, hs.readText_flush hopened.names⟩

/-- A clock that is a second further at every reading. -/
def ticking : Clock := ⟨fun i => ⟨i, 0⟩⟩

/-! Sweeps -/

theorem traceId_sweepComplete (resolved : Resolved) (ctx : RunContext) (sweep : Sweep)
    (artifacts : List String) : (sweepComplete resolved ctx sweep artifacts).traceId = "" := by
  unfold sweepComplete
  dsimp only
  split_ifs <;> rfl

/-- A report that lies elsewhere than the log, if one is to be written. -/
def Apart (fs : Files) (report : Option String) (log : String) : Prop :=
  ∀ path ∈ report, fs.place path ≠ fs.place log ∧
    fs.place (Path.withExtension "json" path) ≠ fs.place log

variable [MathLibrary]

/-- The entries that a sweep leaves in its log. -/
inductive SweepLeaves (resolved : Resolved) (ctx : RunContext) :
    Except RunFault SweepRun → List LogEntry → Prop
  | complete {run : SweepRun} : Sweep.run resolved.params = .ok run.sweep →
    SweepLeaves resolved ctx (.ok run) (sweepStart resolved ctx ::
      (run.sweep.rows.map (sweepDepth ctx) ++
        [sweepComplete resolved ctx run.sweep run.artifacts]))
  | rejected {e : ParamFault} : Sweep.run resolved.params = .error e →
    SweepLeaves resolved ctx (.error (.param e))
      [sweepStart resolved ctx, sweepRejected resolved ctx e]
  | unwritten {sweep : Sweep} (f : FileFault) : Sweep.run resolved.params = .ok sweep →
    SweepLeaves resolved ctx (.error (.file f))
      (sweepStart resolved ctx :: sweep.rows.map (sweepDepth ctx))

/-- The log of a sweep at its end. -/
theorem ensures_leaves
    (hapart : ∀ s, Sweep.run resolved.params = .ok s → ∀ path ∈ outputs.report,
      opened.place path ≠ p ∧ opened.place (Path.withExtension "json" path) ≠ p) :
    Ensures (Logging opened p runId []) (sweepSteps resolved outputs ctx)
      (fun run s => ∃ es, SweepLeaves resolved ctx (.ok run) es ∧ Logging opened p runId es s)
      (fun e s => ∃ es, SweepLeaves resolved ctx (.error e) es ∧ Logging opened p runId es s) := by
  refine ensures_sweepSteps
    (A := Logging opened p runId [sweepStart resolved ctx])
    (B := fun sweep =>
      Logging opened p runId (sweepStart resolved ctx :: sweep.rows.map (sweepDepth ctx)))
    (C := fun sweep _ =>
      Logging opened p runId (sweepStart resolved ctx :: sweep.rows.map (sweepDepth ctx)))
    (ensures_emit rfl) (fun e hrun => ?_) (fun sweep _ => ?_) (fun sweep path hrun hpath => ?_)
    (fun _ _ _ hs => hs) fun sweep artifacts hrun => ?_
  · exact (ensures_emit rfl).imp (fun _ hs => hs) (fun _ s hs => ⟨_, .rejected hrun, hs⟩)
      fun _ _ he => he
  · exact ensures_forM_emit (fun _ => rfl) _ _
  · obtain ⟨hp, hsibling⟩ := hapart sweep hrun path hpath
    exact ensures_writeReport_apart _ hp hsibling fun f s hs => ⟨_, .unwritten f hrun, hs⟩
  · exact (ensures_emit (traceId_sweepComplete _ _ _ _)).imp (fun _ hs => hs)
      (fun _ s hs => ⟨_, .complete hrun, hs⟩) fun _ _ he => he

/-- A sweep is refused only when its parameters are. -/
theorem ensures_refused (resolved : Resolved) (outputs : RunOutputs) (ctx : RunContext) :
    Ensures (fun _ => True) (sweepSteps resolved outputs ctx) (fun _ _ => True)
      (fun e _ => ∀ fault, e = .param fault → Sweep.run resolved.params = .error fault) := by
  have hfile (f : FileFault) (s : Session) (_ : True) : ∀ fault, RunFault.file f = .param fault →
      Sweep.run resolved.params = .error fault := nofun
  have hwork (work : Files → Except FileFault Files) : Ensures (fun _ => True) (onFiles work)
      (fun _ _ => True)
      (fun e _ => ∀ fault, e = .param fault → Sweep.run resolved.params = .error fault) :=
    ensures_onFiles (fun _ _ _ _ => trivial) hfile
  refine ensures_sweepSteps (A := fun _ => True) (B := fun _ _ => True) (C := fun _ _ _ => True)
    (ensures_emit_any _) (fun e hrun => ?_)
    (fun _ _ => ensures_forM (fun _ => ensures_emit_any _) _) (fun _ _ _ _ => ?_)
    (fun _ _ _ _ => trivial) fun _ _ _ => ensures_emit_any _
  · refine (ensures_emit_any _).imp (fun _ hs => hs) (fun _ _ _ fault hfault => ?_) fun _ _ he => he
    rw [hrun, RunFault.param.inj hfault]
  · exact (ensures_writeReport (hwork _) (hwork _) (hwork _) hfile).imp (fun _ hs => hs)
      (fun _ _ _ => trivial) fun _ _ he => he

theorem run_of_refused {fault : ParamFault}
    (h : (sweep resolved outputs ctx fs).1 = .error (.param fault)) :
    Sweep.run resolved.params = .error fault := by
  have hfile : ∀ f, (sweep resolved outputs ctx fs).1 ≠ .error (.file f) := by simp [h]
  obtain ⟨em, opened, hopen⟩ := openLog_of_session hfile
  obtain ⟨s, -, hend⟩ := session_ensures hopen (ensures_refused resolved outputs ctx) trivial
  rw [sweep] at h
  rw [h] at hend
  exact hend fault rfl

/-- A sweep with an open log leaves its entries there; its reports only have to lie elsewhere if
they are written at all. -/
theorem sweep_leaves (hlog : outputs.log = some log)
    (hopen : openLog fs (some log) ctx.runId = (.ok em, opened))
    (hapart : ∀ s, Sweep.run resolved.params = .ok s → Apart fs outputs.report log) :
    ∃ es, SweepLeaves resolved ctx (sweep resolved outputs ctx fs).1 es ∧
      (sweep resolved outputs ctx fs).2.readText log =
        .ok (Log.textOf componentName ctx.runId es) := by
  have hopened := opened_of_openLog hopen
  rw [sweep, hlog]
  refine session_leaves hopen (ensures_leaves fun s hs path hpath => ?_)
  simp only [hopened.grows.place]
  exact hapart s hs path hpath

/-! Comparisons -/

/-- The entries that a comparison leaves in its log. -/
inductive ComparisonLeaves (resolved : Resolved) (hopBudgets : List UInt32) (ctx : RunContext) :
    Except RunFault (List Sweep) → List LogEntry → Prop
  | complete {sweeps : List Sweep} : Sweep.compare resolved.params hopBudgets = .ok sweeps →
    ComparisonLeaves resolved hopBudgets ctx (.ok sweeps) (compareStart ctx ::
      (sweeps.zipIdx.map (fun s => compareSeries resolved ctx s.2 s.1) ++
        [compareComplete ctx hopBudgets]))
  | rejected {e : ParamFault} : Sweep.compare resolved.params hopBudgets = .error e →
    ComparisonLeaves resolved hopBudgets ctx (.error (.param e)) [compareStart ctx]

variable {hopBudgets : List UInt32}

theorem ensures_comparisonSteps :
    Ensures (Logging opened p runId []) (comparisonSteps resolved hopBudgets ctx)
      (fun sweeps s => ∃ es, ComparisonLeaves resolved hopBudgets ctx (.ok sweeps) es ∧
        Logging opened p runId es s)
      (fun e s => ∃ es, ComparisonLeaves resolved hopBudgets ctx (.error e) es ∧
        Logging opened p runId es s) := by
  unfold comparisonSteps
  refine (ensures_emit rfl).bind fun _ => ?_
  split
  · rename_i e hrun
    exact ensures_throw _ fun s hs => ⟨_, .rejected hrun, hs⟩
  · rename_i sweeps hrun
    refine (ensures_forM_emit (fun _ => rfl) _ _).bind fun _ => ?_
    refine (ensures_emit rfl).bind fun _ => ?_
    exact ensures_pure _ fun s hs => ⟨_, .complete hrun, hs⟩

/-- A comparison with an open log leaves its entries there. -/
theorem comparison_leaves (hopen : openLog fs (some log) ctx.runId = (.ok em, opened)) :
    ∃ es, ComparisonLeaves resolved hopBudgets ctx
        (comparison resolved hopBudgets (some log) ctx fs).1 es ∧
      (comparison resolved hopBudgets (some log) ctx fs).2.readText log =
        .ok (Log.textOf componentName ctx.runId es) :=
  session_leaves hopen ensures_comparisonSteps

end BucketOverflow.LoggedRun
