import BucketOverflow.Binary64.Platform
import BucketOverflow.Proofs.LoggedRun.Logs
import BucketOverflow.Proofs.Paths

/-! The report files of a sweep. Both are written before either is referred to, and nothing that
the run does later reaches them, so they are there in the end unless one took the place of the
other. -/
namespace BucketOverflow
open Files

/-- The text of a report and its JSON differ in their first character. -/
theorem Report.markdown_ne_jsonText (r : Report) : r.markdown.toUTF8 ≠ r.jsonText.toUTF8 := by
  intro h
  have hmarkdown : r.markdown.toList.head? = some '#' := by
    rw [markdown, String.toList_ofList]
    rfl
  have hjson : r.jsonText.toList.head? = some '{' := by
    rw [jsonText, Json.toPretty, String.toList_ofList]
    rfl
  rw [String.toByteArray_inj.mp h, hjson] at hmarkdown
  cases hmarkdown

namespace LoggedRun

variable {fs : Files} {sink : Option Place} {path : String} {report : Report}
  {refs : List String} {E : RunFault → Session → Prop}

/-- What a report leaves: its JSON under the sibling's name, its text under its own name as long as
that is another one, and the digests of what the two files hold. -/
structure Filed (fs : Files) (report : Report) (path : String) (refs : List String) : Prop where
  json : fs.read (Path.withExtension "json" path) = .ok report.jsonText.toUTF8
  markdown : fs.read path = .ok report.markdown.toUTF8 ↔ Path.withExtension "json" path ≠ path
  digests : ∃ content, fs.read path = .ok content ∧ refs = [reference path content,
    reference (Path.withExtension "json" path) report.jsonText.toUTF8]

/-- A session later in a run: its emitter writes where it wrote, and its files grew. -/
structure Since (fs : Files) (sink : Option Place) (s : Session) : Prop where
  sink : s.emitter.sink = sink
  grows : ∃ touched, Grows touched fs s.files

theorem Since.place {s : Session} (h : Since fs sink s) (path : String) :
    s.files.place path = fs.place path := by
  obtain ⟨_, hgrows⟩ := h.grows
  exact hgrows.place path

theorem Since.files {s : Session} {files : Files} {touched : List Place} (h : Since fs sink s)
    (hgrows : Grows touched s.files files) : Since fs sink { s with files } := by
  obtain ⟨before, hbefore⟩ := h.grows
  exact ⟨h.sink, _, hbefore.trans hgrows⟩

/-- The parts of a report on their way: the sibling goes over the text only if they share a name. -/
theorem ensures_writeReport_filed (report : Report) (path : String) :
    Ensures (Since fs sink) (writeReport report path)
      (fun refs s => Since fs sink s ∧ Filed s.files report path refs) (fun _ _ => True) := by
  have hparents : Ensures (Since fs sink) (onFiles (makeParents path)) (fun _ => Since fs sink)
      (fun _ _ => True) :=
    ensures_onFiles (fun _ _ hs hw => hs.files (grows_makeParents hw)) fun _ _ _ => trivial
  have hmarkdown : Ensures (Since fs sink) (onFiles (·.write path report.markdown.toUTF8))
      (fun _ s => Since fs sink s ∧ s.files.read path = .ok report.markdown.toUTF8)
      (fun _ _ => True) := by
    refine ensures_onFiles (fun s files hs hw => ?_) fun _ _ _ => trivial
    exact ⟨hs.files (wrote_of_write hw).grows, (wrote_of_write hw).read⟩
  have hjson : Ensures (fun s => Since fs sink s ∧ s.files.read path = .ok report.markdown.toUTF8)
      (onFiles (·.write (Path.withExtension "json" path) report.jsonText.toUTF8))
      (fun _ s => Since fs sink s ∧
        s.files.read (Path.withExtension "json" path) = .ok report.jsonText.toUTF8 ∧
        (s.files.read path = .ok report.markdown.toUTF8 ↔ Path.withExtension "json" path ≠ path))
      (fun _ _ => True) := by
    refine ensures_onFiles ?_ fun _ _ _ => trivial
    rintro s files ⟨hs, hread⟩ hw
    have hwrote := wrote_of_write hw
    refine ⟨hs.files hwrote.grows, hwrote.read, ?_⟩
    by_cases hsame : Path.withExtension "json" path = path
    · have hover := hwrote.read
      rw [hsame] at hover
      refine iff_of_false (fun htext => ?_) fun hne => hne hsame
      exact report.markdown_ne_jsonText (Except.ok.inj (htext.symm.trans hover))
    · obtain ⟨hnames, hnode⟩ := names_of_read hread
      have hplace := Path.place_withExtension_ne hnames (not_isDirectory_of_file hnode) hsame
      have hkept := hwrote.grows.read hread (by simpa using hplace.symm)
      exact iff_of_true hkept hsame
  refine (ensures_writeReport hparents hmarkdown hjson fun _ _ _ => trivial).imp (fun _ hs => hs)
    ?_ fun _ _ he => he
  rintro refs s ⟨⟨hs, hread, hiff⟩, first, second, hfirst, hsecond, rfl⟩
  obtain rfl : second = report.jsonText.toUTF8 := Except.ok.inj (hsecond.symm.trans hread)
  exact ⟨hs, hread, hiff, first, hfirst, rfl⟩

/-- What files keep when the log alone is written to. -/
def Undisturbed (fs : Files) (sink : Option Place) (K : Files → Prop) : Prop :=
  ∀ files files', (∀ path, files.place path = fs.place path) → Grows sink.toList files files' →
    K files → K files'

/-- An entry disturbs nothing but the log. -/
theorem ensures_emit_since {K : Files → Prop} (hroot : sink ≠ some [])
    (hK : Undisturbed fs sink K) (e : LogEntry) :
    Ensures (fun s => Since fs sink s ∧ K s.files) (emit e)
      (fun _ s => Since fs sink s ∧ K s.files) E := by
  rintro s ⟨hs, hk⟩
  have hmoves := Emitter.moves_emit (hs.sink ▸ hroot) s.files e
  have hgrows := hmoves.grows
  rw [Emitter.sink_fill, hs.sink] at hgrows
  obtain ⟨before, hbefore⟩ := hs.grows
  rw [ending_emit]
  generalize s.emitter.emit s.files e = sent at hmoves hgrows ⊢
  have hsink := hmoves.sink.trans (by rw [Emitter.sink_fill, hs.sink])
  exact ⟨⟨hsink, _, hbefore.trans hgrows⟩, hK _ _ hs.place hgrows hk⟩

theorem ensures_emit_any_since (hroot : sink ≠ some []) (e : LogEntry) :
    Ensures (Since fs sink) (emit e) (fun _ => Since fs sink) E :=
  (ensures_emit_since (K := fun _ => True) hroot (fun _ _ _ _ hk => hk) e).imp
    (fun _ hs => ⟨hs, trivial⟩) (fun _ _ hs => hs.1) fun _ _ he => he

/-- A report that was filed elsewhere is not disturbed. -/
theorem undisturbed_filed (hpath : fs.place path ∉ sink.toList)
    (hsibling : fs.place (Path.withExtension "json" path) ∉ sink.toList) :
    Undisturbed fs sink fun files => Filed files report path refs := by
  intro files files' hplace hgrows hfiled
  rw [← hplace] at hpath hsibling
  obtain ⟨content, hcontent, hrefs⟩ := hfiled.digests
  have hread := hgrows.read hcontent hpath
  refine ⟨hgrows.read hfiled.json hsibling, ?_, content, hread, hrefs⟩
  rw [hread, ← hcontent]
  exact hfiled.markdown

variable {outputs : RunOutputs} {opened : Files} {em : Emitter} {runId : String}

/-- The report of a sweep that went well is filed, and the session is one of the same log. -/
theorem ensures_filed [MathLibrary] (resolved : Resolved) (ctx : RunContext)
    (hroot : sink ≠ some []) (hapart : ∀ path, outputs.report = some path →
      fs.place path ∉ sink.toList ∧ fs.place (Path.withExtension "json" path) ∉ sink.toList) :
    Ensures (Since fs sink) (sweepSteps resolved outputs ctx)
      (fun run s => Since fs sink s ∧ ∀ path, outputs.report = some path →
        Filed s.files run.report path run.artifacts) (fun _ _ => True) := by
  refine ensures_sweepSteps (A := Since fs sink) (B := fun _ => Since fs sink)
    (C := fun sweep refs s => Since fs sink s ∧ ∀ path, outputs.report = some path →
      Filed s.files (reportOf resolved ctx sweep) path refs)
    (ensures_emit_any_since hroot _) (fun _ _ => ?_) (fun _ _ => ?_) (fun sweep path _ hpath => ?_)
    (fun sweep hnone s hs => ?_) fun sweep refs _ => ?_
  · exact (ensures_emit_any_since hroot _).imp (fun _ hs => hs) (fun _ _ _ => trivial)
      fun _ _ he => he
  · exact ensures_forM (fun _ => ensures_emit_any_since hroot _) _
  · refine (ensures_writeReport_filed _ path).imp (fun _ hs => hs) ?_ fun _ _ he => he
    rintro refs s ⟨hs, hfiled⟩
    refine ⟨hs, fun other hother => ?_⟩
    obtain rfl : path = other := Option.some.inj (hpath.symm.trans hother)
    exact hfiled
  · refine ⟨hs, fun path hpath => ?_⟩
    rw [hnone] at hpath
    cases hpath
  · refine ensures_emit_since (K := fun files => ∀ path, outputs.report = some path →
      Filed files (reportOf resolved ctx sweep) path refs) hroot ?_ _
    intro files files' hplace hgrows hfiled path hpath
    obtain ⟨hp, hsibling⟩ := hapart path hpath
    exact undisturbed_filed hp hsibling files files' hplace hgrows (hfiled path hpath)

/-- An emitter that was opened writes to the place of the log. -/
theorem since_of_openLog {log : Option String} (h : openLog fs log runId = (.ok em, opened)) :
    Since fs (log.map fs.place) ⟨opened, em⟩ ∧ log.map fs.place ≠ some [] := by
  cases log with
  | none =>
    obtain ⟨rfl, rfl⟩ : em = .toNowhere componentName runId ∧ opened = fs := by
      simpa [openLog, eq_comm] using h
    exact ⟨⟨rfl, [], grows_refl _⟩, nofun⟩
  | some log =>
    have hopened := opened_of_openLog h
    have hholds := hopened.logging.holds
    exact ⟨⟨hholds.sink, _, hopened.grows⟩, fun hp => hholds.not_root (Option.some.inj hp)⟩

/-- After a sweep that went well its report is filed, whatever the shape of its path, if the log is
another file; only the text is missing, and only where the sibling has the same name. -/
theorem sweep_filed [MathLibrary] (resolved : Resolved) (outputs : RunOutputs) (ctx : RunContext)
    (fs : Files) (run : SweepRun) (path : String)
    (hrun : (sweep resolved outputs ctx fs).1 = .ok run) (hreport : outputs.report = some path)
    (hapart : ∀ log ∈ outputs.log, Apart fs outputs.report log) :
    Filed (sweep resolved outputs ctx fs).2 run.report path run.artifacts := by
  have hend : ∀ f, (sweep resolved outputs ctx fs).1 ≠ .error (.file f) := by simp [hrun]
  obtain ⟨em, opened, hopen⟩ := openLog_of_session hend
  obtain ⟨hsince, hroot⟩ := since_of_openLog hopen
  have helse : ∀ path, outputs.report = some path →
      fs.place path ∉ (outputs.log.map fs.place).toList ∧
      fs.place (Path.withExtension "json" path) ∉ (outputs.log.map fs.place).toList := by
    intro path hpath
    cases hlog : outputs.log with
    | none => exact ⟨List.not_mem_nil, List.not_mem_nil⟩
    | some log =>
      obtain ⟨hp, hsibling⟩ := hapart log hlog path hpath
      simpa using ⟨hp, hsibling⟩
  obtain ⟨s, hfiles, hdone⟩ :=
    session_ensures hopen (ensures_filed resolved ctx hroot helse) hsince
  rw [sweep] at hrun ⊢
  rw [hrun] at hdone
  obtain ⟨hs, hfiled⟩ := hdone
  have hgrows := (Emitter.moves_flush (hs.sink ▸ hroot) s.files).grows
  rw [hs.sink] at hgrows
  obtain ⟨hp, hsibling⟩ := helse path hreport
  rw [hfiles]
  exact undisturbed_filed hp hsibling _ _ hs.place hgrows (hfiled path hreport)

/-- A set without room for its items: every probability is one. -/
def crowded : Resolved := ⟨.analysis, ⟨1, 2, 1, 0, 1, .saturating⟩⟩

/-- Beside its log a report keeps its text, though the clock moves; one whose name is already that
of its sibling loses it, and the run ends well all the same. -/
theorem sweep_filed_over_itself :
    ∃ (run lost : SweepRun) (files bare : Files),
      sweep crowded ⟨some "out/r.md", some "out/run.log"⟩ ⟨"r", ticking, 0⟩ .empty =
        (.ok run, files) ∧
      files.read "out/r.md" = .ok run.report.markdown.toUTF8 ∧
      files.read "out/r.json" = .ok run.report.jsonText.toUTF8 ∧
      sweep crowded ⟨some "r.json", none⟩ ⟨"r", ⟨fun _ => ⟨0, 0⟩⟩, 0⟩ .empty = (.ok lost, bare) ∧
      bare.read "r.json" = .ok lost.report.jsonText.toUTF8 ∧
      bare.read "r.json" ≠ .ok lost.report.markdown.toUTF8 := by
  have hfiled := sweep_filed crowded ⟨some "out/r.md", some "out/run.log"⟩
    ⟨"r", ticking, 0⟩ .empty
  have hover := sweep_filed crowded ⟨some "r.json", none⟩ ⟨"r", ⟨fun _ => ⟨0, 0⟩⟩, 0⟩ .empty
  have hran : (sweep crowded ⟨some "out/r.md", some "out/run.log"⟩
      ⟨"r", ticking, 0⟩ .empty).1.isOk = true := by
    decide +kernel
  have hagain : (sweep crowded ⟨some "r.json", none⟩
      ⟨"r", ⟨fun _ => ⟨0, 0⟩⟩, 0⟩ .empty).1.isOk = true := by
    decide +kernel
  have hapart : ∀ log ∈ some "out/run.log", Apart .empty (some "out/r.md") log := by
    rintro _ ⟨⟩ _ ⟨⟩
    decide +kernel
  have hother : Path.withExtension "json" "out/r.md" = "out/r.json" := by decide +kernel
  have hsame : Path.withExtension "json" "r.json" = "r.json" := by decide +kernel
  generalize sweep _ ⟨some "out/r.md", _⟩ _ _ = first at hfiled hran ⊢
  generalize sweep _ ⟨some "r.json", _⟩ _ _ = second at hover hagain ⊢
  obtain ⟨_ | run, files⟩ := first
  · cases hran
  obtain ⟨_ | lost, bare⟩ := second
  · cases hagain
  have hkept := hfiled run "out/r.md" rfl rfl hapart
  have hlost := hover lost "r.json" rfl rfl nofun
  refine ⟨run, lost, files, bare, rfl, ?_, ?_, rfl, ?_, ?_⟩
  · exact hkept.markdown.mpr (by rw [hother]; decide)
  · rw [← hother]
    exact hkept.json
  · rw [← hsame]
    exact hlost.json
  · exact fun htext => hlost.markdown.mp htext hsame

end LoggedRun
end BucketOverflow
