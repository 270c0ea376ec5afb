import BucketOverflow.Proofs.LoggedRun.Entries
import BucketOverflow.Proofs.LoggedRun.Logs

/-! The trail of a logged sweep. Writer and validator agree: every line parses and carries its
number, and the validator complains exactly when the name of the run would split its ids. -/
namespace BucketOverflow

namespace LoggedRun

variable {fs : Files} {log runId : String} {es : List LogEntry} {resolved : Resolved}
  {ctx : RunContext}

/-- A log of so many lines. Each is an object with the id of its number, and the validator counts
them all and faults none, unless the name of the run has a double colon in it. -/
structure Trail (fs : Files) (log runId : String) (n : ℕ) : Prop where
  lines : ∃ text, fs.readText log = .ok text ∧ (Text.lines text.toList).length = n ∧
    ∀ i < n, ∃ line fields, (Text.lines text.toList)[i]? = some line ∧
      Json.parse (String.ofList line) = .ok (.obj fields) ∧
      Json.field? "trace_id" fields = some (.str
        ("bucketrisk::" ++ runId ++ "::" ++ String.ofList (Text.decimalPad 3 (i + 1))))
  validated : ∃ faults, Log.validateFile fs log = .ok (n, faults) ∧
    (faults = [] ↔ ¬[':', ':'] <:+: runId.toList)

/-- The text of sound entries is a trail. -/
theorem trail_of_text (hes : ∀ e ∈ es, e.Sound) (hne : es ≠ [])
    (hread : fs.readText log = .ok (Log.textOf componentName runId es)) :
    Trail fs log runId es.length := by
  have hc : ':' ∉ componentName.toList := by decide
  constructor
  · refine ⟨_, hread, by rw [Log.lines_textOf, Log.length_linesOf], fun i hi => ?_⟩
    have hget : es[i]? = some es[i] := List.getElem?_eq_getElem hi
    have hsound := Log.sound_numbered (hes _ (List.getElem_mem hi)) componentName runId (i + 1)
    refine ⟨(Log.numbered componentName runId (i + 1) es[i]).line.toList,
      (Log.numbered componentName runId (i + 1) es[i]).readFields, ?_, ?_, ?_⟩
    · rw [Log.lines_textOf, Log.getElem?_linesOf, hget]
      rfl
    · rw [String.ofList_toList, hsound.parse_line]
    · rw [LogEntry.field?_readFields (by decide)]
      simp [LogEntry.slotOf, Log.numbered, Log.traceIdAt, Json.asRead, componentName]
  · refine ⟨_, ?_, Log.validateText_eq_nil_iff hc hne hes⟩
    have hcount : (Log.validateText (Log.textOf componentName runId es)).1 = es.length := by
      rw [Log.validateText_textOf]
    rw [Log.validateFile, hread, ← hcount]
    rfl

section Library

variable [MathLibrary]

theorem SweepLeaves.ne_nil {result : Except RunFault SweepRun}
    (h : SweepLeaves resolved ctx result es) : es ≠ [] := by
  cases h <;> simp

variable [LawfulMathLibrary]

/-- Every entry that a sweep leaves is sound. -/
theorem SweepLeaves.sound {result : Except RunFault SweepRun}
    (h : SweepLeaves resolved ctx result es) (hms : ctx.elapsedMs < 0x10000000000000000) :
    ∀ e ∈ es, e.Sound := by
  have hstart := sound_sweepStart resolved ctx
  have hrows {s : Sweep} (hrun : Sweep.run resolved.params = .ok s) :
      ∀ e ∈ s.rows.map (sweepDepth ctx), e.Sound := by
    obtain ⟨hv, rfl⟩ := Sweep.eq_grid_of_run hrun
    exact List.forall_mem_map.mpr (sound_sweepDepth hv ctx)
  cases h with
  | @complete run hrun =>
    have hdone : (sweepComplete resolved ctx run.sweep run.artifacts).Sound := by
      obtain ⟨hv, hgrid⟩ := Sweep.eq_grid_of_run hrun
      rw [hgrid]
      exact sound_sweepComplete hv hms resolved run.artifacts
    exact List.forall_mem_cons.mpr ⟨hstart, List.forall_mem_append.mpr
      ⟨hrows hrun, List.forall_mem_singleton.mpr hdone⟩⟩
  | rejected hrun =>
    exact List.forall_mem_cons.mpr
      ⟨hstart, List.forall_mem_singleton.mpr (sound_sweepRejected resolved ctx _)⟩
  | unwritten f hrun => exact List.forall_mem_cons.mpr ⟨hstart, hrows hrun⟩

variable {outputs : RunOutputs}

/-- The trail of a sweep whose log was open, by the entries that it left. -/
theorem sweep_leaves_trail (hlog : outputs.log = some log)
    (hms : ctx.elapsedMs < 0x10000000000000000)
    (hend : ∀ f, (sweep resolved outputs ctx fs).1 ≠ .error (.file f))
    (hapart : ∀ s, Sweep.run resolved.params = .ok s → Apart fs outputs.report log) :
    ∃ es, SweepLeaves resolved ctx (sweep resolved outputs ctx fs).1 es ∧
      Trail (sweep resolved outputs ctx fs).2 log ctx.runId es.length := by
  obtain ⟨em, opened, hopen⟩ := openLog_of_session hend
  rw [hlog] at hopen
  obtain ⟨es, hleaves, hread⟩ := sweep_leaves hlog hopen hapart
  exact ⟨es, hleaves, trail_of_text (hleaves.sound hms) hleaves.ne_nil hread⟩

/-- A logged sweep leaves one line for its start, one for each depth and one for its end, or two
lines when its parameters are refused; a report has to lie elsewhere only where it is written. -/
theorem sweep_trail (resolved : Resolved) (outputs : RunOutputs) (ctx : RunContext) (fs : Files)
    (log : String) (hlog : outputs.log = some log) (hms : ctx.elapsedMs < 0x10000000000000000) :
    (∀ run, (sweep resolved outputs ctx fs).1 = .ok run → Apart fs outputs.report log →
      Trail (sweep resolved outputs ctx fs).2 log ctx.runId
        (resolved.params.maxDepth.toNat + 3)) ∧
    ∀ e, (sweep resolved outputs ctx fs).1 = .error (.param e) →
      Trail (sweep resolved outputs ctx fs).2 log ctx.runId 2 := by
  constructor
  · intro run hend hapart
    have hne : ∀ f, (sweep resolved outputs ctx fs).1 ≠ .error (.file f) := by simp [hend]
    obtain ⟨es, hleaves, htrail⟩ := sweep_leaves_trail hlog hms hne fun _ _ => hapart
    rw [hend] at hleaves
    cases hleaves with
    | complete hrun =>
      obtain ⟨-, hgrid⟩ := Sweep.eq_grid_of_run hrun
      simpa [hgrid, Sweep.length_rows_grid] using htrail
  · intro e hend
    have hne : ∀ f, (sweep resolved outputs ctx fs).1 ≠ .error (.file f) := by simp [hend]
    have hrun := run_of_refused hend
    obtain ⟨es, hleaves, htrail⟩ := sweep_leaves_trail hlog hms hne fun s hs => by
      rw [hrun] at hs
      cases hs
    rw [hend] at hleaves
    cases hleaves
    exact htrail

end Library

/-- A name that ends in a colon makes three of them in the ids and is accepted; a name with a double
colon is not, though its run is refused. -/
theorem sweep_trail_colon :
    ∃ ran refused : Files,
      (∃ run, sweep ⟨.analysis, ⟨1, 1, 1, 0, 1, .literal⟩⟩ ⟨some "out/r.md", some "out/run.log"⟩
        ⟨"a:", ticking, 0⟩ .empty = (.ok run, ran)) ∧ Trail ran "out/run.log" "a:" 3 ∧
      (∃ e, sweep ⟨.analysis, ⟨0, 1, 1, 0, 1, .literal⟩⟩ ⟨some "run.log", some "run.log"⟩
        ⟨"::", ticking, 0⟩ .empty = (.error (.param e), refused)) ∧
      Trail refused "run.log" "::" 2 := by
  have hran := sweep_trail ⟨.analysis, ⟨1, 1, 1, 0, 1, .literal⟩⟩
    ⟨some "out/r.md", some "out/run.log"⟩ ⟨"a:", ticking, 0⟩ .empty _ rfl (by decide)
  have hrefused := sweep_trail ⟨.analysis, ⟨0, 1, 1, 0, 1, .literal⟩⟩
    ⟨some "run.log", some "run.log"⟩ ⟨"::", ticking, 0⟩ .empty _ rfl (by decide)
  have hok : (sweep ⟨.analysis, ⟨1, 1, 1, 0, 1, .literal⟩⟩ ⟨some "out/r.md", some "out/run.log"⟩
      ⟨"a:", ticking, 0⟩ .empty).1.isOk = true := by decide +kernel
  have hno : (sweep ⟨.analysis, ⟨0, 1, 1, 0, 1, .literal⟩⟩ ⟨some "run.log", some "run.log"⟩
      ⟨"::", ticking, 0⟩ .empty).1 matches .error (.param _) := by decide +kernel
  have hapart : Apart .empty (some "out/r.md") "out/run.log" := by
    rintro _ ⟨⟩
    decide +kernel
  generalize sweep ⟨.analysis, ⟨1, 1, 1, 0, 1, .literal⟩⟩ _ _ _ = ran at hran hok ⊢
  generalize sweep ⟨.analysis, ⟨0, 1, 1, 0, 1, .literal⟩⟩ _ _ _ = refused at hrefused hno ⊢
  obtain ⟨_ | run, ran⟩ := ran
  · cases hok
  obtain ⟨(e | _) | _, refused⟩ := refused
  · exact ⟨_, _, ⟨run, rfl⟩, hran.1 run rfl hapart, ⟨e, rfl⟩, hrefused.2 e rfl⟩
  · cases hno
  · cases hno

end LoggedRun
end BucketOverflow
