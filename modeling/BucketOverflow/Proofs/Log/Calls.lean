import BucketOverflow.Proofs.Log.Trail

/-! Calls to an emitter, one after the other. The ids that it gives out count the calls that need
one, and what it writes is one line for each call. -/
namespace BucketOverflow.Emitter
open Files Log Text Json

variable {component runId : String} {em : Emitter} {fs fs' : Files} {p : Place} {text : String}

/-- A call: an event that is nothing but its name, or an entry. -/
inductive Call where
  | event (now : Timestamp) (level : LogLevel) (name : String)
  | entry (e : LogEntry)

/-- The entry that a call hands over. -/
def Call.given : Call → LogEntry
  | event now level name => .new now.text "" level name
  | entry e => e

/-- Makes calls in turn; each gives back its entry as it was written. -/
def calls (em : Emitter) (fs : Files) : List Call → List LogEntry × Emitter × Files
  | [] => ([], em, fs)
  | c :: cs =>
    let (entry, em, fs) := em.emit fs c.given
    let (entries, em, fs) := em.calls fs cs
    (entry :: entries, em, fs)

/-- How many calls hand over an entry without an id. -/
def unnamed (cs : List Call) : ℕ := cs.countP fun c => c.given.traceId = ""

theorem unnamed_cons (c : Call) (cs : List Call) :
    unnamed (c :: cs) = unnamed [c] + unnamed cs := by
  rw [← List.singleton_append]
  exact List.countP_append

theorem unnamed_take_succ {cs : List Call} {i : ℕ} {c : Call} (h : cs[i]? = some c) :
    unnamed (cs.take (i + 1)) = unnamed (cs.take i) + unnamed [c] := by
  rw [List.take_add_one, h]
  exact List.countP_append

theorem unnamed_singleton (c : Call) :
    unnamed [c] = if c.given.traceId = "" then 1 else 0 := by
  simp [unnamed, List.countP_cons]

theorem emit_entry (em : Emitter) (fs : Files) (e : LogEntry) :
    (em.emit fs e).1 = (em.fill e).1 := rfl

theorem calls_cons (em : Emitter) (fs : Files) (c : Call) (cs : List Call) :
    em.calls fs (c :: cs) =
      ((em.fill c.given).1 :: ((em.emit fs c.given).2.1.calls (em.emit fs c.given).2.2 cs).1,
        ((em.emit fs c.given).2.1.calls (em.emit fs c.given).2.2 cs).2) := by
  rw [calls, ← emit_entry em fs]

/-! One call -/

/-- An entry as it is written once `n` ids are given out. -/
def completed (component runId : String) (n : ℕ) (e : LogEntry) : LogEntry :=
  if e.traceId = "" then numbered component runId (n + 1) e
  else { e with component := some (e.component.getD component) }

theorem fill_eq (em : Emitter) (c : Call) : em.fill c.given =
    (completed em.component em.runId em.assigned c.given,
      { em with assigned := em.assigned + unnamed [c] }) := by
  rw [unnamed_singleton, completed]
  split_ifs with h
  · exact fill_numbered h
  · exact if_neg h

/-- What one call does: it gives out at most one id, on its own file alone. -/
theorem moves_call (hroot : em.sink ≠ some []) (fs : Files) (c : Call) :
    Moves { em with assigned := em.assigned + unnamed [c] } fs
      (em.emit fs c.given).2.1 (em.emit fs c.given).2.2 := by
  have hmoves := moves_emit hroot fs c.given
  rwa [fill_eq] at hmoves

theorem sink_ne_call (hroot : em.sink ≠ some []) (fs : Files) (c : Call) :
    (em.emit fs c.given).2.1.sink ≠ some [] := by
  rw [(moves_call hroot fs c).sink]
  exact hroot

/-- How many bytes went through an emitter. -/
def taken (em : Emitter) : ℕ := em.sent + em.pending.size

theorem taken_send (em : Emitter) (fs : Files) (new : ByteArray) :
    (em.send fs new).1.taken = em.taken + new.size := by
  simp only [send, taken]
  omega

theorem sent_flush (em : Emitter) (fs : Files) : (em.flush fs).1.sent = em.taken := rfl

theorem taken_flush (em : Emitter) (fs : Files) : (em.flush fs).1.taken = em.taken := by
  rw [flush, taken_send, taken, taken, ByteArray.size_empty, Nat.add_zero]

theorem taken_keep (em : Emitter) (new : ByteArray) :
    { em with pending := em.pending ++ new }.taken = em.taken + new.size := by
  simp only [taken, ByteArray.size_append]
  omega

theorem taken_write (em : Emitter) (fs : Files) (new : ByteArray) :
    (em.write fs new).1.taken = em.taken + new.size := by
  unfold Emitter.write
  dsimp only
  split_ifs
  · exact taken_keep em new
  · rw [taken_send, taken_flush]
  · exact taken_send em fs new
  · rw [taken_keep, taken_flush]
  · exact taken_keep em new

theorem size_toUTF8 (s : String) : s.toUTF8.size = s.utf8ByteSize := rfl

theorem taken_emit (em : Emitter) (fs : Files) (e : LogEntry) :
    (em.emit fs e).2.1.taken = em.taken + ((em.fill e).1.line ++ "\n").utf8ByteSize := by
  have hfill : (em.fill e).2.taken = em.taken := by
    unfold fill
    split_ifs <;> rfl
  unfold Emitter.emit
  dsimp only
  rw [taken_write, taken_write, hfill, String.utf8ByteSize_append, Nat.add_assoc, size_toUTF8,
    size_toUTF8]

/-! Runs of calls -/

/-- The text of entries: the line of each, ended. -/
def written (es : List LogEntry) : String := String.ofList (joinLines (es.map (·.line.toList)))

theorem written_cons (e : LogEntry) (es : List LogEntry) :
    written (e :: es) = e.line ++ "\n" ++ written es := by
  apply String.toList_inj.mp
  simp [written, joinLines]

theorem length_calls (em : Emitter) (fs : Files) (cs : List Call) :
    (em.calls fs cs).1.length = cs.length := by
  induction cs generalizing em fs with
  | nil => rfl
  | cons c cs ih => rw [calls_cons, List.length_cons, ih, List.length_cons]

/-- The entry of a call knows how many ids were given out before. -/
theorem getElem?_calls (hroot : em.sink ≠ some []) (fs : Files) (cs : List Call) (i : ℕ) :
    (em.calls fs cs).1[i]? = cs[i]?.map fun c =>
      completed em.component em.runId (em.assigned + unnamed (cs.take i)) c.given := by
  -- the first call may give out an id, so the induction is over all emitters
  induction cs generalizing em fs i with
  | nil => simp [calls]
  | cons c cs ih =>
    have hmoves := moves_call hroot fs c
    cases i with
    | zero =>
      rw [calls_cons, List.getElem?_cons_zero, fill_eq]
      rfl
    | succ i =>
      have hrest := ih (sink_ne_call hroot fs c) (em.emit fs c.given).2.2 i
      rw [hmoves.component, hmoves.runId, hmoves.assigned] at hrest
      rw [calls_cons, List.getElem?_cons_succ, List.getElem?_cons_succ, List.take_succ_cons,
        unnamed_cons, ← Nat.add_assoc]
      exact hrest

/-- Every call adds its line to the text. -/
theorem Holds.calls (h : em.Holds fs p text) (cs : List Call) :
    (em.calls fs cs).2.1.Holds (em.calls fs cs).2.2 p (text ++ written (em.calls fs cs).1) := by
  induction cs generalizing em fs text with
  | nil =>
    have hnone : text ++ written [] = text := String.append_empty
    rwa [Emitter.calls, hnone]
  | cons c cs ih =>
    have hrest := ih (h.emit c.given)
    rw [String.append_assoc, ← written_cons] at hrest
    rw [calls_cons]
    exact hrest

theorem grows_calls (hroot : em.sink ≠ some []) (fs : Files) (cs : List Call) :
    Grows em.sink.toList fs (em.calls fs cs).2.2 := by
  induction cs generalizing em fs with
  | nil => exact (grows_refl fs).mono (List.nil_subset _)
  | cons c cs ih =>
    have hmoves := moves_call hroot fs c
    have hrest := ih (sink_ne_call hroot fs c) (em.emit fs c.given).2.2
    rw [hmoves.sink] at hrest
    have hgrows := hmoves.grows.trans hrest
    rw [calls_cons]
    exact hgrows.mono (by simp)

theorem taken_calls (em : Emitter) (fs : Files) (cs : List Call) :
    (em.calls fs cs).2.1.taken = em.taken + (written (em.calls fs cs).1).utf8ByteSize := by
  induction cs generalizing em fs with
  | nil =>
    have hnone : written [] = "" := rfl
    simp only [calls, hnone, String.utf8ByteSize_empty, Nat.add_zero]
  | cons c cs ih =>
    rw [calls_cons, written_cons, String.utf8ByteSize_append, ← Nat.add_assoc,
      ← taken_emit em fs]
    exact ih _ _

/-! Fresh emitters -/

/-- An emitter as it is made: to nowhere, or to a file that it empties. -/
inductive Fresh (component runId : String) (fs : Files) : Option String → Emitter → Files → Prop
  | nowhere : Fresh component runId fs none (toNowhere component runId) fs
  | file {path : String} {em : Emitter} {opened : Files} :
    toFile fs path component runId = .ok (em, opened) →
    Fresh component runId fs (some path) em opened

/-- The entries that calls give back. Each has a component, and an id of its own or one with the
number of the calls so far that needed it; no two of those are the same. -/
structure Answers (component runId : String) (cs : List Call) (es : List LogEntry) : Prop where
  length : es.length = cs.length
  entry : ∀ (i : ℕ) (c : Call), cs[i]? = some c → es[i]? = some { c.given with
    component := some (c.given.component.getD component)
    traceId :=
      if c.given.traceId = "" then traceIdAt component runId (unnamed (cs.take (i + 1)))
      else c.given.traceId }
  distinct : ∀ (i j : ℕ) (c d : Call) (e f : LogEntry), cs[i]? = some c → cs[j]? = some d →
    c.given.traceId = "" → d.given.traceId = "" → es[i]? = some e → es[j]? = some f →
    e.traceId = f.traceId → i = j

theorem traceIdAt_injective (component runId : String) :
    Function.Injective (traceIdAt component runId) := by
  intro m n h
  have hdigits := congrArg String.toList h
  simp only [traceIdAt, String.toList_append, String.toList_ofList, List.append_cancel_left_eq]
    at hdigits
  exact decimalPad_injective 3 hdigits

/-- A later call that needs an id is counted beyond an earlier one. -/
theorem unnamed_take_lt {cs : List Call} {i j : ℕ} {d : Call} (hd : cs[j]? = some d)
    (hid : d.given.traceId = "") (hij : i < j) :
    unnamed (cs.take (i + 1)) < unnamed (cs.take (j + 1)) := by
  have hsub : (cs.take (i + 1)).Sublist (cs.take j) := (List.take_prefix_take_left hij).sublist
  have hle : unnamed (cs.take (i + 1)) ≤ unnamed (cs.take j) := hsub.countP_le
  rw [unnamed_take_succ hd, unnamed_singleton, if_pos hid]
  exact Nat.lt_succ_of_le hle

variable {target : Option String} {opened : Files}

/-- An emitter before its first call. -/
structure Unused (component runId : String) (em : Emitter) : Prop where
  component : em.component = component
  runId : em.runId = runId
  assigned : em.assigned = 0
  taken : em.taken = 0
  sink_ne : em.sink ≠ some []

theorem Fresh.unused (h : Fresh component runId fs target em opened) :
    Unused component runId em := by
  cases h with
  | nowhere => exact ⟨rfl, rfl, rfl, rfl, (Option.some_ne_none _).symm⟩
  | file hfile =>
    obtain ⟨p, hcreated, rfl⟩ := created_of_toFile hfile
    exact ⟨rfl, rfl, rfl, rfl, (holds_of_created component runId hcreated).sink_ne⟩

/-- An emitter answers by what it is given and by how many ids it gave out before. -/
theorem Unused.answers (h : Unused component runId em) (fs : Files) (cs : List Call) :
    Answers component runId cs (em.calls fs cs).1 := by
  have hget (i : ℕ) : (em.calls fs cs).1[i]? =
      cs[i]?.map fun c => completed component runId (unnamed (cs.take i)) c.given := by
    rw [getElem?_calls h.sink_ne, h.component, h.runId, h.assigned]
    simp only [Nat.zero_add]
  have hentry {i : ℕ} {c : Call} (hc : cs[i]? = some c) (hid : c.given.traceId = "") :
      (em.calls fs cs).1[i]? =
        some (numbered component runId (unnamed (cs.take (i + 1))) c.given) := by
    rw [hget, hc, unnamed_take_succ hc, unnamed_singleton, if_pos hid, Option.map_some, completed,
      if_pos hid]
  refine ⟨length_calls em fs cs, fun i c hc => ?_,
    fun i j c d e f hc hd hcid hdid he hf hsame => ?_⟩
  · by_cases hid : c.given.traceId = ""
    · rw [hentry hc hid, if_pos hid]
      rfl
    · rw [hget, hc, Option.map_some, completed, if_neg hid, if_neg hid]
  · rw [hentry hc hcid] at he
    rw [hentry hd hdid] at hf
    obtain rfl := Option.some.inj he
    obtain rfl := Option.some.inj hf
    have hnumber := traceIdAt_injective component runId hsame
    rcases lt_trichotomy i j with hij | hij | hij
    · exact absurd hnumber (unnamed_take_lt hd hdid hij).ne
    · exact hij
    · exact absurd hnumber (unnamed_take_lt hc hcid hij).ne'

/-- The text of entries breaks where they end, and nowhere else. -/
theorem splitOn_written (es : List LogEntry) :
    splitOn '\n' (written es).toList = es.map (·.line.toList) ++ [[]] := by
  rw [written, String.toList_ofList]
  refine splitOn_joinLines fun l hl => ?_
  obtain ⟨e, -, rfl⟩ := List.mem_map.mp hl
  exact (isLine_line e).not_feed

theorem return_notMem_written (es : List LogEntry) : '\r' ∉ (written es).toList := by
  rw [written, String.toList_ofList]
  intro hmem
  obtain ⟨l, hl, hr⟩ := List.mem_flatMap.mp hmem
  obtain ⟨e, -, rfl⟩ := List.mem_map.mp hl
  rcases List.mem_append.mp hr with hr | hr
  · exact (e.oneLine_line _ hr).2 rfl
  · exact absurd hr (by decide)

/-- The file of an emitter has the text of its entries once it is flushed. -/
theorem Fresh.read_flush {path : String} (h : Fresh component runId fs (some path) em opened)
    (cs : List Call) :
    ((em.calls opened cs).2.1.flush (em.calls opened cs).2.2).2.read path =
      .ok (written (em.calls opened cs).1).toUTF8 := by
  cases h with
  | file hfile =>
    obtain ⟨p, hcreated, rfl⟩ := created_of_toFile hfile
    have hholds := holds_of_created component runId hcreated
    have hend := hholds.calls cs
    rw [String.empty_append] at hend
    refine hend.read_flush ?_
    exact (grows_calls hholds.sink_ne opened cs).names (hcreated.grows.names hcreated.names)

/-- Calls to a fresh emitter, whatever they hand over, are answered with the ids counted, and leave
one line each: the line of the entry that was given back, with no other break. -/
theorem calls_lines (h : Fresh component runId fs target em opened) (cs : List Call) :
    ∃ es last closed, em.calls opened cs = (es, last, closed) ∧
      Answers component runId cs es ∧
      splitOn '\n' (written es).toList = es.map (·.line.toList) ++ [[]] ∧
      '\r' ∉ (written es).toList ∧
      (last.flush closed).1.sent = (written es).utf8ByteSize ∧
      ∀ path ∈ target, (last.flush closed).2.read path = .ok (written es).toUTF8 := by
  refine ⟨(em.calls opened cs).1, (em.calls opened cs).2.1, (em.calls opened cs).2.2, rfl,
    h.unused.answers opened cs, splitOn_written _, return_notMem_written _, ?_, ?_⟩
  · rw [sent_flush, taken_calls, h.unused.taken, Nat.zero_add]
  · rintro path rfl
    exact h.read_flush cs

/-- An event, an entry with an id, one with line breaks in it and one with a component. -/
theorem calls_lines_mixed : ∃ em opened es last closed,
    Fresh "sweep" "run-42" .empty (some "log") em opened ∧
    em.calls opened [.event ⟨0, 0⟩ .info "start", .entry (.new "" "own" .info ""),
      .entry (.new "t" "" .warn "a\nb\r"),
      .entry { LogEntry.new "" "" .info "end" with component := some "" }] = (es, last, closed) ∧
    es[1]?.map (·.traceId) = some "own" ∧
    es[2]?.map (·.traceId) = some "sweep::run-42::002" ∧
    es[3]?.map (fun e => (e.traceId, e.component)) = some ("sweep::run-42::003", some "") ∧
    splitOn '\n' (written es).toList = es.map (·.line.toList) ++ [[]] ∧
    (last.flush closed).2.read "log" = .ok (written es).toUTF8 := by
  have hisOk : (toFile .empty "log" "sweep" "run-42").isOk = true := by decide +kernel
  obtain ⟨⟨em, opened⟩, hopen⟩ : ∃ r, toFile .empty "log" "sweep" "run-42" = .ok r := by
    generalize toFile .empty "log" "sweep" "run-42" = made at hisOk ⊢
    cases made with
    | error e => cases hisOk
    | ok r => exact ⟨r, rfl⟩
  obtain ⟨es, last, closed, hcalls, hanswers, hsplit, -, -, hread⟩ :=
    calls_lines (.file hopen) [.event ⟨0, 0⟩ .info "start", .entry (.new "" "own" .info ""),
      .entry (.new "t" "" .warn "a\nb\r"),
      .entry { LogEntry.new "" "" .info "end" with component := some "" }]
  refine ⟨em, opened, es, last, closed, .file hopen, hcalls, ?_, ?_, ?_, hsplit, hread _ rfl⟩
  · rw [hanswers.entry 1 _ rfl]
    decide +kernel
  · rw [hanswers.entry 2 _ rfl]
    decide +kernel
  · rw [hanswers.entry 3 _ rfl]
    decide +kernel

end BucketOverflow.Emitter
