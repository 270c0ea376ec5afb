import BucketOverflow.LoggedRun
import BucketOverflow.Proofs.Log.Trail

/-! Reasoning about the steps of a run. A step that ends well and one that fails both leave a
session, and the invariant of the log holds in either. -/
namespace BucketOverflow.LoggedRun
open Files

variable {α β : Type} {P : Session → Prop} {Q : α → Session → Prop} {R : β → Session → Prop}
  {E : RunFault → Session → Prop}

/-! Triples -/

/-- How a step ends, and the session that it leaves. -/
def ending (step : RunStep α) (s : Session) : Except RunFault α × Session := step.run.run s

/-- From any session with `P` a step ends well with `Q`, or fails with `E`. -/
def Ensures (P : Session → Prop) (step : RunStep α) (Q : α → Session → Prop)
    (E : RunFault → Session → Prop) : Prop :=
  ∀ s, P s → match ending step s with
    | (.ok a, s') => Q a s'
    | (.error e, s') => E e s'

theorem ending_bind (step : RunStep α) (next : α → RunStep β) (s : Session) :
    ending (step >>= next) s = match ending step s with
      | (.ok a, s') => ending (next a) s'
      | (.error e, s') => (.error e, s') := by
  unfold ending
  rw [ExceptT.run_bind, StateT.run_bind]
  rcases step.run.run s with ⟨_ | _, _⟩ <;> rfl

theorem Ensures.bind {step : RunStep α} {next : α → RunStep β} (h : Ensures P step Q E)
    (hnext : ∀ a, Ensures (Q a) (next a) R E) : Ensures P (step >>= next) R E := by
  intro s hs
  have hstep := h s hs
  rw [ending_bind]
  cases hend : ending step s with
  | mk result s' =>
    rw [hend] at hstep
    cases result with
    | ok a => exact hnext a s' hstep
    | error e => exact hstep

/-- A stronger start and weaker ends. -/
theorem Ensures.imp {P' : Session → Prop} {Q' : α → Session → Prop} {E' : RunFault → Session → Prop}
    {step : RunStep α} (h : Ensures P step Q E) (hP : ∀ s, P' s → P s)
    (hQ : ∀ a s, Q a s → Q' a s) (hE : ∀ e s, E e s → E' e s) : Ensures P' step Q' E' := by
  intro s hs
  have hstep := h s (hP s hs)
  cases hend : ending step s with
  | mk result s' =>
    rw [hend] at hstep
    cases result with
    | ok a => exact hQ a s' hstep
    | error e => exact hE e s' hstep

theorem ensures_pure (a : α) (h : ∀ s, P s → Q a s) : Ensures P (pure a) Q E := h

theorem ensures_throw (e : RunFault) (h : ∀ s, P s → E e s) :
    Ensures P (throw e : RunStep α) Q E := h

theorem ending_onFiles (work : Files → Except FileFault Files) (s : Session) :
    ending (onFiles work) s = match work s.files with
      | .ok files => (.ok (), { s with files })
      | .error e => (.error (.file e), s) := by
  have hget : ending (onFiles work) s = ending (match work s.files with
      | .ok files => set { s with files }
      | .error e => throw (.file e)) s := rfl
  rw [hget]
  cases work s.files <;> rfl

theorem ensures_onFiles {work : Files → Except FileFault Files} {I : Session → Prop}
    (hok : ∀ s files, P s → work s.files = .ok files → I { s with files })
    (hfail : ∀ f s, P s → E (.file f) s) : Ensures P (onFiles work) (fun _ => I) E := by
  intro s hs
  rw [ending_onFiles]
  cases hw : work s.files with
  | error f => exact hfail f s hs
  | ok files => exact hok s files hs hw

/-- A path with the digest of a content. -/
def reference (path : String) (content : ByteArray) : String :=
  path ++ "#sha256=" ++ String.ofList (hexLower (sha256 content.toList))

theorem ending_artifactRef (path : String) (s : Session) :
    ending (artifactRef path) s = match s.files.read path with
      | .ok content => (.ok (reference path content), s)
      | .error e => (.error (.file e), s) := by
  have hget : ending (artifactRef path) s = ending (match s.files.read path with
      | .ok content => pure (reference path content)
      | .error e => throw (.file e)) s := rfl
  rw [hget]
  cases s.files.read path <;> rfl

/-- An artifact is referred to by what it holds at that time. -/
theorem ensures_artifactRef (path : String) (hE : ∀ f s, P s → E (.file f) s) :
    Ensures P (artifactRef path) (fun ref s => P s ∧
      ∃ content, s.files.read path = .ok content ∧ ref = reference path content) E := by
  intro s hs
  rw [ending_artifactRef]
  cases hread : s.files.read path with
  | error f => exact hE f s hs
  | ok content => exact ⟨hs, content, hread, rfl⟩

theorem ending_emit (e : LogEntry) (s : Session) : ending (emit e) s =
    (.ok (), ⟨(s.emitter.emit s.files e).2.2, (s.emitter.emit s.files e).2.1⟩) := by
  have hmodify (f : Session → Session) : ending (modify f) s = (.ok (), f s) := rfl
  rw [emit, hmodify]

/-- A step that meets no fault, whatever it does to the session. -/
theorem ensures_emit_any (e : LogEntry) : Ensures P (emit e) (fun _ _ => True) E :=
  fun _ _ => trivial

/-- A step that keeps an invariant keeps it when it is done for each of several items. -/
theorem ensures_forM {ι : Type} {step : ι → RunStep PUnit}
    (h : ∀ i, Ensures P (step i) (fun _ => P) E) (items : List ι) :
    Ensures P (items.forM step) (fun _ => P) E := by
  induction items with
  | nil => exact ensures_pure PUnit.unit fun _ hs => hs
  | cons item items ih => exact (h item).bind fun _ => ih

/-- A report is written below its directories, first the text and then its sibling, and both are
referred to by what they hold in the end. -/
theorem ensures_writeReport {A B C : Session → Prop} {report : Report} {path : String}
    (hparents : Ensures P (onFiles (makeParents path)) (fun _ => A) E)
    (hmarkdown : Ensures A (onFiles (·.write path report.markdown.toUTF8)) (fun _ => B) E)
    (hjson : Ensures B (onFiles (·.write (Path.withExtension "json" path) report.jsonText.toUTF8))
      (fun _ => C) E)
    (hfail : ∀ f s, C s → E (.file f) s) :
    Ensures P (writeReport report path) (fun refs s => C s ∧ ∃ first second,
      s.files.read path = .ok first ∧
      s.files.read (Path.withExtension "json" path) = .ok second ∧
      refs = [reference path first, reference (Path.withExtension "json" path) second]) E := by
  unfold writeReport
  refine hparents.bind fun _ => hmarkdown.bind fun _ => hjson.bind fun _ => ?_
  refine (ensures_artifactRef _ hfail).bind fun _ => ?_
  refine (ensures_artifactRef _ fun f s hs => hfail f s hs.1).bind fun _ => ensures_pure _ ?_
  rintro s ⟨⟨hs, first, hfirst, rfl⟩, second, hsecond, rfl⟩
  exact ⟨hs, first, second, hfirst, hsecond, rfl⟩

/-- A sweep step by step: its start, a refusal, its depths, its report and its end. -/
theorem ensures_sweepSteps [MathLibrary] {A : Session → Prop}
    {B : Sweep → Session → Prop} {C : Sweep → List String → Session → Prop}
    {Q : SweepRun → Session → Prop}
    {resolved : Resolved} {outputs : RunOutputs} {ctx : RunContext}
    (hstart : Ensures P (emit (sweepStart resolved ctx)) (fun _ => A) E)
    (hrejected : ∀ e, Sweep.run resolved.params = .error e →
      Ensures A (emit (sweepRejected resolved ctx e)) (fun _ => E (.param e)) E)
    (hdepths : ∀ sweep, Sweep.run resolved.params = .ok sweep →
      Ensures A (sweep.rows.forM fun r => emit (sweepDepth ctx r)) (fun _ => B sweep) E)
    (hwrite : ∀ sweep path, Sweep.run resolved.params = .ok sweep → outputs.report = some path →
      Ensures (B sweep) (writeReport (reportOf resolved ctx sweep) path) (C sweep) E)
    (hskip : ∀ sweep, outputs.report = none → ∀ s, B sweep s → C sweep [] s)
    (hcomplete : ∀ sweep artifacts, Sweep.run resolved.params = .ok sweep →
      Ensures (C sweep artifacts) (emit (sweepComplete resolved ctx sweep artifacts))
        (fun _ => Q ⟨sweep, reportOf resolved ctx sweep, artifacts⟩) E) :
    Ensures P (sweepSteps resolved outputs ctx) Q E := by
  unfold sweepSteps
  refine hstart.bind fun _ => ?_
  split
  · rename_i e hrun
    exact (hrejected e hrun).bind fun _ => ensures_throw _ fun _ h => h
  · rename_i sweep hrun
    refine (hdepths sweep hrun).bind fun _ => ?_
    dsimp only
    split
    · rename_i path hpath
      refine (hwrite sweep path hrun hpath).bind fun artifacts => ?_
      exact (hcomplete sweep artifacts hrun).bind fun _ => ensures_pure _ fun _ h => h
    · rename_i hnone
      refine (ensures_pure [] (hskip sweep hnone)).bind fun artifacts => ?_
      exact (hcomplete sweep artifacts hrun).bind fun _ => ensures_pure _ fun _ h => h

/-! The log of a run -/

/-- The log holds exactly the entries that were emitted; the files grew from the ones at its
opening. -/
structure Logging (opened : Files) (p : Place) (runId : String) (es : List LogEntry)
    (s : Session) : Prop where
  holds : s.emitter.Holds s.files p (Log.textOf componentName runId es)
  component : s.emitter.component = componentName
  runId : s.emitter.runId = runId
  assigned : s.emitter.assigned = es.length
  grows : ∃ touched, Grows touched opened s.files

variable {opened : Files} {p : Place} {runId : String} {es : List LogEntry} {e : LogEntry}

/-- An entry that is emitted is one entry more. -/
theorem ensures_emit (he : e.traceId = "") : Ensures (Logging opened p runId es) (emit e)
    (fun _ => Logging opened p runId (es ++ [e])) E := by
  rintro s ⟨hholds, hcomponent, hrun, hassigned, touched, hgrows⟩
  have hmoves := Emitter.moves_emit hholds.sink_ne s.files e
  have hemit := hholds.emit e
  rw [Log.fill_numbered he] at hmoves hemit
  rw [hcomponent, hrun, hassigned, ← Log.textOf_concat] at hemit
  rw [ending_emit]
  generalize s.emitter.emit s.files e = sent at hmoves hemit ⊢
  exact ⟨hemit, hmoves.component.trans hcomponent, hmoves.runId.trans hrun,
    hmoves.assigned.trans (by simp [hassigned]), _, hgrows.trans hmoves.grows⟩

theorem ensures_forM_emit {ι : Type} {f : ι → LogEntry} (hf : ∀ i, (f i).traceId = "")
    (items : List ι) (es : List LogEntry) :
    Ensures (Logging opened p runId es) (items.forM fun i => emit (f i))
      (fun _ => Logging opened p runId (es ++ items.map f)) E := by
  induction items generalizing es with
  | nil =>
    refine ensures_pure PUnit.unit fun s hs => ?_
    simpa using hs
  | cons item items ih =>
    refine (ensures_emit (hf item)).bind fun _ => ?_
    have htail := ih (es ++ [f item])
    rwa [List.append_assoc, List.singleton_append, ← List.map_cons] at htail

/-- Work on other files leaves the log as it is. -/
theorem Logging.other {s : Session} {files : Files} {touched : List Place}
    (h : Logging opened p runId es s) (hp : p ∉ touched) (hg : Grows touched s.files files) :
    Logging opened p runId es { s with files } := by
  obtain ⟨hholds, hcomponent, hrun, hassigned, before, hgrows⟩ := h
  obtain ⟨old, hnode, hold⟩ := hholds.bytes
  exact ⟨⟨hholds.sink, hholds.not_root, old, hg.node? _ _ hp hnode, hold⟩, hcomponent, hrun,
    hassigned, _, hgrows.trans hg⟩

/-- Writing a report to other files leaves the log as it is. -/
theorem ensures_writeReport_apart (report : Report) {path : String} (hpath : opened.place path ≠ p)
    (hsibling : opened.place (Path.withExtension "json" path) ≠ p)
    (hfail : ∀ f s, Logging opened p runId es s → E (.file f) s) :
    Ensures (Logging opened p runId es) (writeReport report path)
      (fun _ => Logging opened p runId es) E := by
  have hwrite {path : String} (content : ByteArray) (hpath : opened.place path ≠ p) :
      Ensures (Logging opened p runId es) (onFiles (·.write path content))
        (fun _ => Logging opened p runId es) E := by
    refine ensures_onFiles (fun s files hs hw => ?_) hfail
    obtain ⟨_, hgrows⟩ := hs.grows
    refine hs.other ?_ (wrote_of_write hw).grows
    rw [hgrows.place, List.mem_singleton]
    exact hpath.symm
  have hparents : Ensures (Logging opened p runId es) (onFiles (makeParents path))
      (fun _ => Logging opened p runId es) E :=
    ensures_onFiles (fun s files hs hw => hs.other List.not_mem_nil (grows_makeParents hw)) hfail
  exact (ensures_writeReport hparents (hwrite _ hpath) (hwrite _ hsibling) hfail).imp
    (fun _ hs => hs) (fun _ _ hs => hs.1) fun _ _ he => he

end BucketOverflow.LoggedRun
