import BucketOverflow.Proofs.Log.Emitter
import BucketOverflow.Proofs.Log.Line

/-! The text of a log. Entries without an id are numbered as they come; each is found again on its
own line, and the only complaint that the validator can have is about the name of the run. -/
namespace BucketOverflow.Log
open Text Json

variable {component runId : String} {es : List LogEntry} {e : LogEntry}

/-- The id of the entry with a number. -/
def traceIdAt (component runId : String) (number : ℕ) : String :=
  component ++ "::" ++ runId ++ "::" ++ String.ofList (decimalPad 3 number)

/-- An entry with its number, and the component if it has none of its own. -/
def numbered (component runId : String) (number : ℕ) (e : LogEntry) : LogEntry :=
  { e with
    component := some (e.component.getD component)
    traceId := traceIdAt component runId number }

theorem fill_numbered {em : Emitter} (he : e.traceId = "") : em.fill e =
    (numbered em.component em.runId (em.assigned + 1) e, { em with assigned := em.assigned + 1 }) :=
  if_pos he

/-- The lines of entries, numbered from one. -/
def linesOf (component runId : String) (es : List LogEntry) : List (List Char) :=
  es.mapIdx fun i e => (numbered component runId (i + 1) e).line.toList

/-- The text of entries. -/
def textOf (component runId : String) (es : List LogEntry) : String :=
  String.ofList (joinLines (linesOf component runId es))

@[simp] theorem length_linesOf (component runId : String) (es : List LogEntry) :
    (linesOf component runId es).length = es.length := List.length_mapIdx

theorem getElem?_linesOf (component runId : String) (es : List LogEntry) (i : ℕ) :
    (linesOf component runId es)[i]? =
      es[i]?.map fun e => (numbered component runId (i + 1) e).line.toList := List.getElem?_mapIdx

/-- One entry more is one line more. -/
theorem textOf_concat (component runId : String) (es : List LogEntry) (e : LogEntry) :
    textOf component runId (es ++ [e]) =
      textOf component runId es ++ ((numbered component runId (es.length + 1) e).line ++ "\n") := by
  apply String.toList_inj.mp
  simp [textOf, linesOf, joinLines, List.mapIdx_append]

theorem isLine_line (e : LogEntry) : IsLine e.line.toList := by
  rw [LogEntry.line, toCompact, String.toList_ofList, LogEntry.toJson_eq]
  exact isLine_compact _

theorem isLine_of_mem_linesOf {l : List Char} (h : l ∈ linesOf component runId es) : IsLine l := by
  obtain ⟨i, hi⟩ := List.mem_iff_getElem?.mp h
  rw [getElem?_linesOf] at hi
  obtain ⟨e, -, rfl⟩ := Option.map_eq_some_iff.mp hi
  exact isLine_line _

/-- Reading finds the lines of the entries. -/
theorem lines_textOf (component runId : String) (es : List LogEntry) :
    lines (textOf component runId es).toList = linesOf component runId es := by
  rw [textOf, String.toList_ofList]
  exact lines_joinLines fun l => isLine_of_mem_linesOf

/-! Validation -/

theorem sound_numbered (h : e.Sound) (component runId : String) (number : ℕ) :
    (numbered component runId number e).Sound :=
  ⟨h.tailPolicy, h.params_readable, h.params_constants, h.duration, h.details_readable,
    h.details_present⟩

theorem colonPieces_traceIdAt (hc : ':' ∉ component.toList) (runId : String) (number : ℕ) :
    colonPieces (traceIdAt component runId number).toList = 3 ↔ ¬[':', ':'] <:+: runId.toList := by
  rw [← colonPieces_eq_three_iff runId.toList hc (colon_notMem_decimalPad 3 number)]
  simp [traceIdAt]

/-- What the validator finds wrong with a line. -/
def faultsOf (l : List Char) (number : ℕ) : List LogFault :=
  match validateLine (String.ofList l) number with
  | .ok _ => []
  | .error faults => faults

theorem validateText_textOf (component runId : String) (es : List LogEntry) :
    validateText (textOf component runId es) = (es.length,
      (linesOf component runId es).zipIdx.flatMap fun l => faultsOf l.1 (l.2 + 1)) := by
  have hkept : ((linesOf component runId es).zipIdx.map fun l => (trim l.1, l.2 + 1)).filter
      (fun l => !l.1.isEmpty) =
        (linesOf component runId es).zipIdx.map fun l => (l.1, l.2 + 1) := by
    have htrim : ∀ l ∈ (linesOf component runId es).zipIdx, trim l.1 = l.1 := fun l hl =>
      (isLine_of_mem_linesOf (List.fst_mem_of_mem_zipIdx hl)).trim
    rw [List.map_congr_left fun l hl => by rw [htrim l hl], List.filter_eq_self]
    intro l hl
    obtain ⟨m, hm, rfl⟩ := List.mem_map.mp hl
    simpa using (isLine_of_mem_linesOf (List.fst_mem_of_mem_zipIdx hm)).ne_nil
  simp only [validateText, lines_textOf, hkept, List.length_map, List.length_zipIdx,
    length_linesOf, List.flatMap_map]
  rfl

/-- Entries that are sound are complained about exactly when the name of the run has a double colon
in it, and then all of them are. -/
theorem validateText_eq_nil_iff (hc : ':' ∉ component.toList) (hne : es ≠ [])
    (h : ∀ e ∈ es, e.Sound) : (validateText (textOf component runId es)).2 = [] ↔
      ¬[':', ':'] <:+: runId.toList := by
  have hline {i : ℕ} {e : LogEntry} (he : es[i]? = some e) :
      faultsOf (numbered component runId (i + 1) e).line.toList (i + 1) = [] ↔
        ¬[':', ':'] <:+: runId.toList := by
    have hsound := sound_numbered (h e (List.mem_of_getElem? he)) component runId (i + 1)
    have hid : (numbered component runId (i + 1) e).traceId =
        traceIdAt component runId (i + 1) := rfl
    rw [faultsOf, String.ofList_toList, hsound.validateLine_eq, hid,
      ← colonPieces_traceIdAt hc runId (i + 1)]
    split_ifs with htrace
    · simpa using htrace
    · simpa using htrace
  rw [validateText_textOf, List.flatMap_eq_nil_iff]
  constructor
  · intro hall
    obtain ⟨e, es, rfl⟩ := List.exists_cons_of_ne_nil hne
    have hfirst : (e :: es)[0]? = some e := rfl
    rw [← hline hfirst]
    refine hall (_, 0) (List.mem_zipIdx_iff_getElem?.mpr ?_)
    rw [getElem?_linesOf, hfirst]
    rfl
  · rintro hrun ⟨l, i⟩ hl
    rw [List.mem_zipIdx_iff_getElem?, getElem?_linesOf] at hl
    obtain ⟨e, he, hl⟩ := Option.map_eq_some_iff.mp hl
    dsimp only at he hl ⊢
    rw [← hl]
    exact (hline he).mpr hrun

end BucketOverflow.Log
