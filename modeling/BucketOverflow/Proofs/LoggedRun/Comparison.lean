import BucketOverflow.Proofs.Json.Exact
import BucketOverflow.Proofs.Json.Members
import BucketOverflow.Proofs.LoggedRun.Trail
import BucketOverflow.Proofs.Sweep.Parallel

/-! The trail of a comparison. There is one sweep for each hop budget, whatever budget the resolved
parameters have themselves, and the log tells of each on a line of its own, in the same order. -/
namespace BucketOverflow

theorem Params.validate_withHopBudget {p : Params} (h : p.validate = .ok ()) {b : UInt32}
    (hb : b ≠ 0) : (p.withHopBudget b).validate = .ok () := by
  unfold Params.validate at h ⊢
  split_ifs at h with hcapacity hitems hpaths hdepth hbudget
  simp [withHopBudget, hcapacity, hitems, hpaths, hdepth, hb]

/-- A valid set is compared at any hop budgets. -/
theorem Sweep.exists_compare_eq_ok [MathLibrary] {p : Params} (h : p.validate = .ok ())
    {budgets : List UInt32} (hne : budgets ≠ []) (hpos : ∀ b ∈ budgets, b ≠ 0) :
    ∃ sweeps, compare p budgets = .ok sweeps := by
  refine ⟨budgets.map fun b => grid (p.withHopBudget b), compare_eq_ok.mpr ⟨hne, ?_⟩⟩
  rw [List.forall₂_map_right_iff, List.forall₂_same]
  intro b hb
  exact run_eq_grid (Params.validate_withHopBudget h (hpos b hb))

namespace Json

variable {names : List String} {name : String}

/-- The value under names, each one inside the one before it. -/
def within (names : List String) (j : Json) : Option Json :=
  names.foldlM (fun j name => j.fields?.bind (field? name)) j

@[simp] theorem within_cons_obj (name : String) (names : List String) (fields : Members) :
    within (name :: names) (.obj fields) = (field? name fields).bind (within names) := rfl

/-- An object whose fields are sorted is read with the value that each name was given last. -/
theorem within_asRead_sortFields (name : String) (fields : Members) :
    within [name] (asRead (.obj (sortFields fields))) = (last? name fields).map asRead := by
  rw [asRead, within_cons_obj, field?_asRead (sorted_sortFields fields).nodup, field?_sortFields]
  cases last? name fields <;> rfl

end Json

namespace Log
open Json

variable {component runId name text : String} {names : List String} {es : List LogEntry}
  {e : LogEntry} {i : ℕ} {v : Json}

/-- A line of a log that can be parsed and has a value under names, each one inside the one before
it. -/
def LineSays (text : String) (i : ℕ) (names : List String) (v : Json) : Prop :=
  ∃ line j, (Text.lines text.toList)[i]? = some line ∧ parse (String.ofList line) = .ok j ∧
    j.within names = some v

/-- The line of an entry says what the entry has. -/
theorem lineSays_of_getElem? (he : es[i]? = some e) (hs : e.Sound)
    (hname : name ∈ LogEntry.sortedNames)
    (hv : (((numbered component runId (i + 1) e).slotOf name).map asRead).bind (within names) =
      some v) : LineSays (textOf component runId es) i (name :: names) v := by
  have hsound := sound_numbered hs component runId (i + 1)
  refine ⟨(numbered component runId (i + 1) e).line.toList,
    .obj (numbered component runId (i + 1) e).readFields, ?_, ?_, ?_⟩
  · rw [lines_textOf, getElem?_linesOf, he]
    rfl
  · rw [String.ofList_toList, hsound.parse_line]
  · rw [within_cons_obj, LogEntry.field?_readFields hname, hv]

theorem lineSays_event (he : es[i]? = some e) (hs : e.Sound) :
    LineSays (textOf component runId es) i ["event"] (.str e.event) :=
  lineSays_of_getElem? he hs (by decide) rfl

/-- The line of an entry says what is in an object of the entry. -/
theorem lineSays_inner {outer : String} {fields : Members} (he : es[i]? = some e) (hs : e.Sound)
    (houter : outer ∈ LogEntry.sortedNames)
    (hobj : (numbered component runId (i + 1) e).slotOf outer = some (.obj (sortFields fields)))
    (hv : (last? name fields).map asRead = some v) :
    LineSays (textOf component runId es) i [outer, name] v := by
  apply lineSays_of_getElem? he hs houter
  rw [hobj, Option.map_some, Option.bind_some, within_asRead_sortFields, hv]

end Log

namespace LoggedRun
open Json Log

variable {fs opened : Files} {log runId text : String} {es : List LogEntry} {em : Emitter}
  {resolved : Resolved} {ctx : RunContext} {hopBudgets : List UInt32} {sweeps : List Sweep}

/-- The entries of a comparison that goes well. -/
def comparisonEntries (resolved : Resolved) (hopBudgets : List UInt32) (ctx : RunContext)
    (sweeps : List Sweep) : List LogEntry :=
  compareStart ctx :: (sweeps.zipIdx.map (fun s => compareSeries resolved ctx s.2 s.1) ++
    [compareComplete ctx hopBudgets])

theorem length_comparisonEntries : (comparisonEntries resolved hopBudgets ctx sweeps).length =
    sweeps.length + 2 := by
  simp [comparisonEntries]

/-- What the log of a comparison says: a line for its start, one for each budget with its sweep, and
one for its end. -/
structure Compared (text : String) (hopBudgets : List UInt32) (sweeps : List Sweep) : Prop where
  length : (Text.lines text.toList).length = hopBudgets.length + 2
  start : LineSays text 0 ["event"] (.str "compare.start")
  series : ∀ (i : ℕ) (b : UInt32) (s : Sweep), hopBudgets[i]? = some b → sweeps[i]? = some s →
    LineSays text (i + 1) ["event"] (.str "compare.series") ∧
    LineSays text (i + 1) ["params", "hop_budget"] (.ofNat b.toNat) ∧
    LineSays text (i + 1) ["details", "peak_depth"] (.ofNat s.peak.depth)
  finish : LineSays text (hopBudgets.length + 1) ["event"] (.str "compare.complete") ∧
    LineSays text (hopBudgets.length + 1) ["details", "hop_budgets"]
      (.arr (hopBudgets.map fun b => .ofNat b.toNat))

section Library

variable [MathLibrary]

/-- The sweeps of a comparison have the hop budgets, each its own. -/
theorem hopBudget_of_getElem? {p : Params} {i : ℕ} {b : UInt32} {s : Sweep}
    (hall : List.Forall₂ (fun b s => Sweep.run (p.withHopBudget b) = .ok s) hopBudgets sweeps)
    (hb : hopBudgets[i]? = some b) (hs : sweeps[i]? = some s) : s.params.hopBudget = b := by
  obtain ⟨hbudget, rfl⟩ := List.getElem?_eq_some_iff.mp hb
  obtain ⟨hsweep, rfl⟩ := List.getElem?_eq_some_iff.mp hs
  obtain ⟨-, hgrid⟩ := Sweep.eq_grid_of_run (hall.get hbudget hsweep)
  exact congrArg (·.params.hopBudget) hgrid

/-- The hop budget of the parameters plays no part in a comparison. -/
theorem comparison_withHopBudget (resolved : Resolved) (b : UInt32) (hopBudgets : List UInt32)
    (log : Option String) (ctx : RunContext) (fs : Files) :
    comparison { resolved with params := resolved.params.withHopBudget b } hopBudgets log ctx fs =
      comparison resolved hopBudgets log ctx fs := rfl

/-- A comparison that goes well, with all its entries in the log. -/
theorem comparison_of_compare (hcompare : Sweep.compare resolved.params hopBudgets = .ok sweeps)
    (hopen : openLog fs (some log) ctx.runId = (.ok em, opened)) :
    ∃ files, comparison resolved hopBudgets (some log) ctx fs = (.ok sweeps, files) ∧
      files.readText log = .ok (textOf componentName ctx.runId
        (comparisonEntries resolved hopBudgets ctx sweeps)) := by
  obtain ⟨es, hleaves, hread⟩ : ∃ es, ComparisonLeaves resolved hopBudgets ctx
        (comparison resolved hopBudgets (some log) ctx fs).1 es ∧
      (comparison resolved hopBudgets (some log) ctx fs).2.readText log =
        .ok (textOf componentName ctx.runId es) := comparison_leaves hopen
  generalize comparison resolved hopBudgets (some log) ctx fs = ended at hleaves hread ⊢
  obtain ⟨result, files⟩ := ended
  cases hleaves with
  | complete hswept =>
    obtain rfl := Except.ok.inj (hcompare.symm.trans hswept)
    exact ⟨files, rfl, hread⟩
  | rejected hrefused =>
    rw [hcompare] at hrefused
    cases hrefused

variable [LawfulMathLibrary]

theorem sound_compareSeries {p : Params} (hv : p.Valid) (resolved : Resolved) (ctx : RunContext)
    (index : ℕ) : (compareSeries resolved ctx index (Sweep.grid p)).Sound := by
  obtain ⟨hdepth, hprob, -⟩ := readable_peak hv (n := 125)
  apply LogEntry.Sound.withDetails
  · exact (((sound_entry _ _ _ _).withPreset _).withParams _).withOutcome _
  · simp only [List.forall_mem_cons]
    exact ⟨hdepth, hprob, by simp⟩

theorem sound_comparisonEntries {p : Params} (hms : ctx.elapsedMs < 0x10000000000000000)
    (hall : List.Forall₂ (fun b s => Sweep.run (p.withHopBudget b) = .ok s) hopBudgets sweeps)
    (resolved : Resolved) : ∀ e ∈ comparisonEntries resolved hopBudgets ctx sweeps, e.Sound := by
  have hseries : ∀ s ∈ sweeps, ∀ index, (compareSeries resolved ctx index s).Sound := by
    induction hall with
    | nil => exact List.forall_mem_nil _
    | cons hrun _ ih =>
      obtain ⟨hv, rfl⟩ := Sweep.eq_grid_of_run hrun
      exact List.forall_mem_cons.mpr ⟨sound_compareSeries hv resolved ctx, ih⟩
  rw [comparisonEntries, List.forall_mem_cons]
  exact ⟨sound_compareStart ctx, List.forall_mem_append.mpr
    ⟨List.forall_mem_map.mpr fun s hs => hseries _ (List.fst_mem_of_mem_zipIdx hs) _,
      List.forall_mem_singleton.mpr (sound_compareComplete hms hopBudgets)⟩⟩

/-- Each entry of a comparison is told on its line. -/
theorem compared_textOf {p : Params} (hms : ctx.elapsedMs < 0x10000000000000000)
    (hall : List.Forall₂ (fun b s => Sweep.run (p.withHopBudget b) = .ok s) hopBudgets sweeps) :
    Compared (textOf componentName runId (comparisonEntries resolved hopBudgets ctx sweeps))
      hopBudgets sweeps := by
  have hsound := sound_comparisonEntries hms hall resolved
  have hlen : sweeps.length = hopBudgets.length := hall.length_eq.symm
  have hlast : (comparisonEntries resolved hopBudgets ctx sweeps)[hopBudgets.length + 1]? =
      some (compareComplete ctx hopBudgets) := by
    simp [comparisonEntries, hlen]
  have hdone := hsound _ (List.mem_of_getElem? hlast)
  constructor
  · rw [lines_textOf, length_linesOf, length_comparisonEntries, hlen]
  · exact lineSays_event rfl (sound_compareStart ctx)
  · intro i b s hb hs
    have hentry : (comparisonEntries resolved hopBudgets ctx sweeps)[i + 1]? =
        some (compareSeries resolved ctx i s) := by
      obtain ⟨hi, -⟩ := List.getElem?_eq_some_iff.mp hs
      rw [comparisonEntries, List.getElem?_cons_succ, List.getElem?_append_left (by simpa using hi),
        List.getElem?_map, List.getElem?_zipIdx, hs, Option.map_some, Option.map_some, Nat.zero_add]
    have hseries := hsound _ (List.mem_of_getElem? hentry)
    refine ⟨lineSays_event hentry hseries, ?_, ?_⟩
    · rw [← hopBudget_of_getElem? hall hb hs]
      exact lineSays_inner hentry hseries (by decide) rfl rfl
    · exact lineSays_inner hentry hseries (by decide) rfl rfl
  · refine ⟨lineSays_event hlast hdone, ?_⟩
    have hbudgets : Exact 1 (.arr (hopBudgets.map fun b => .ofNat b.toNat)) := by
      apply Exact.arr
      intro j hj
      obtain ⟨b, -, rfl⟩ := List.mem_map.mp hj
      exact exact_ofNat (b.toNat_lt.trans (by decide))
    apply lineSays_inner hlast hdone (by decide) rfl
    exact congrArg some hbudgets.asRead_eq

/-- Valid parameters and hop budgets that are not zero are compared, with the sweeps of the budgets
in their order, and the budget of the parameters themselves makes no difference. The log is valid,
and tells of each sweep on its line. -/
theorem comparison_trail (resolved : Resolved) (hopBudgets : List UInt32) (ctx : RunContext)
    (fs : Files) (log : String) (hvalid : resolved.params.validate = .ok ()) (hne : hopBudgets ≠ [])
    (hpos : ∀ b ∈ hopBudgets, b ≠ 0) (hrun : ¬[':', ':'] <:+: ctx.runId.toList)
    (hms : ctx.elapsedMs < 0x10000000000000000)
    (hopen : openLog fs (some log) ctx.runId = (.ok em, opened)) :
    ∃ sweeps files text,
      comparison resolved hopBudgets (some log) ctx fs = (.ok sweeps, files) ∧
      (∀ b, comparison { resolved with params := resolved.params.withHopBudget b } hopBudgets
        (some log) ctx fs = (.ok sweeps, files)) ∧
      List.Forall₂ (fun b s => Sweep.run (resolved.params.withHopBudget b) = .ok s)
        hopBudgets sweeps ∧
      Log.validateFile files log = .ok (hopBudgets.length + 2, []) ∧
      files.readText log = .ok text ∧ Compared text hopBudgets sweeps := by
  obtain ⟨sweeps, hcompare⟩ := Sweep.exists_compare_eq_ok hvalid hne hpos
  obtain ⟨-, hall⟩ := Sweep.compare_eq_ok.mp hcompare
  obtain ⟨files, hends, hread⟩ := comparison_of_compare hcompare hopen
  have htrail : Trail files log ctx.runId (hopBudgets.length + 2) := by
    rw [hall.length_eq, ← length_comparisonEntries]
    exact trail_of_text (sound_comparisonEntries hms hall resolved) (List.cons_ne_nil _ _) hread
  obtain ⟨faults, hfaults, hnil⟩ := htrail.validated
  rw [hnil.mpr hrun] at hfaults
  have hany (b : UInt32) : comparison { resolved with params := resolved.params.withHopBudget b }
      hopBudgets (some log) ctx fs = (.ok sweeps, files) := by
    rw [comparison_withHopBudget, hends]
  exact ⟨sweeps, files, _, hends, hany, hall, hfaults, hread, compared_textOf hms hall⟩

end Library

/-- One budget twice, and a name that ends in a colon. -/
theorem comparison_trail_repeated : ∃ sweeps files text,
    comparison ⟨.analysis, ⟨1, 1, 1, 0, 7, .literal⟩⟩ [2, 1, 2] (some "out/run.log")
      ⟨"a:", ticking, 0⟩ .empty = (.ok sweeps, files) ∧
    List.Forall₂ (fun b s => Sweep.run ⟨1, 1, 1, 0, b, .literal⟩ = .ok s) [2, 1, 2] sweeps ∧
    Log.validateFile files "out/run.log" = .ok (5, []) ∧
    files.readText "out/run.log" = .ok text ∧ Compared text [2, 1, 2] sweeps := by
  have hlog : (openLog .empty (some "out/run.log") "a:").1.isOk = true := by decide +kernel
  obtain ⟨em, opened, hopen⟩ :
      ∃ em opened, openLog .empty (some "out/run.log") "a:" = (.ok em, opened) := by
    generalize openLog .empty (some "out/run.log") "a:" = opening at hlog ⊢
    obtain ⟨_ | em, opened⟩ := opening
    · cases hlog
    · exact ⟨em, opened, rfl⟩
  obtain ⟨sweeps, files, text, hends, -, hall, hvalid, hread, hsays⟩ :=
    comparison_trail ⟨.analysis, ⟨1, 1, 1, 0, 7, .literal⟩⟩ [2, 1, 2] ⟨"a:", ticking, 0⟩ .empty
      "out/run.log" rfl (by decide) (by simp) (by decide) (by decide) hopen
  exact ⟨sweeps, files, text, hends, hall, hvalid, hread, hsays⟩

end LoggedRun
end BucketOverflow
