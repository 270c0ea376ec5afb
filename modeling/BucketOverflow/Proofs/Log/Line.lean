import BucketOverflow.Proofs.Json.OneLine
import BucketOverflow.Proofs.Json.Values
import BucketOverflow.Proofs.Log.Schema

/-! Lines of a log read back. The line of an entry parses, passes every check of the schema but the
one of its trace id, and gives the entry again. -/
namespace BucketOverflow
open Json Text

namespace LogEntry

variable {names : List String} {slot : String → Option Json} {e : LogEntry}

/-! Named values that may be missing -/

/-- The named values that are there, in the order of their names. -/
def present (names : List String) (slot : String → Option Json) : Members :=
  names.flatMap fun name => optional name (slot name)

theorem present_cons (name : String) (names : List String) (slot : String → Option Json) :
    present (name :: names) slot = optional name (slot name) ++ present names slot :=
  List.flatMap_cons

theorem lookup_present (names : List String) (slot : String → Option Json) (k : String) :
    (present names slot).lookup k = if k ∈ names then slot k else none := by
  induction names with
  | nil => simp [present]
  | cons name names ih =>
    rw [present_cons]
    cases h : slot name with
    | none =>
      have hskip : optional name none ++ present names slot = present names slot := rfl
      rw [hskip, ih]
      by_cases hk : k = name
      · simp [hk, h]
      · simp [hk]
    | some j =>
      by_cases hk : k = name
      · simp [optional, hk, h]
      · simp [optional, Fields.lookup_cons, ih, hk]

theorem names_present (names : List String) (slot : String → Option Json) :
    ((present names slot).map (·.1)).Sublist names := by
  induction names with
  | nil => simp [present]
  | cons name names ih =>
    rw [present_cons]
    cases slot name with
    | none => simpa [optional] using ih.cons name
    | some j => simpa [optional] using ih

theorem fieldsAsRead_present (names : List String) (slot : String → Option Json) :
    fieldsAsRead (present names slot) = present names fun name => (slot name).map asRead := by
  induction names with
  | nil => rfl
  | cons name names ih =>
    rw [present_cons, present_cons, ← ih, fieldsAsRead_eq, fieldsAsRead_eq, List.map_append]
    cases slot name <;> rfl

theorem mem_present {f : String × Json} (h : f ∈ present names slot) : slot f.1 = some f.2 := by
  obtain ⟨name, -, hf⟩ := List.mem_flatMap.mp h
  cases hs : slot name with
  | none => simp [optional, hs] at hf
  | some j =>
    obtain rfl : f = (name, j) := by simpa [optional, hs] using hf
    exact hs

/-! The fields of an entry -/

/-- The value that an entry has under a name. -/
def slotOf (e : LogEntry) : String → Option Json
  | "timestamp" => some (.str e.timestamp)
  | "trace_id" => some (.str e.traceId)
  | "level" => some (.str e.level.name)
  | "event" => some (.str e.event)
  | "component" => e.component.map .str
  | "preset" => e.preset.map .str
  | "tail_policy" => e.tailPolicy.map .str
  | "params" => e.params
  | "outcome" => e.outcome.map fun o => .str o.name
  | "duration_ms" => e.durationMs.map .ofNat
  | "artifact_refs" => e.artifactRefs.map fun refs => .arr (refs.map .str)
  | "details" => e.details
  | _ => none

/-- The names in the order they are written. -/
def writtenNames : List String :=
  ["timestamp", "trace_id", "level", "event", "component", "preset", "tail_policy", "params",
    "outcome", "duration_ms", "artifact_refs", "details"]

/-- The names in the order they are read. -/
def sortedNames : List String :=
  ["artifact_refs", "component", "details", "duration_ms", "event", "level", "outcome", "params",
    "preset", "tail_policy", "timestamp", "trace_id"]

theorem toJson_eq (e : LogEntry) : e.toJson = .obj (present writtenNames e.slotOf) := by
  simp [toJson, present, writtenNames, slotOf, optional]

theorem oneLine_line (e : LogEntry) : OneLine e.line.toList := by
  rw [line, toCompact, String.toList_ofList]
  exact oneLine_compact _

/-- The fields of the object that is read from an entry's line. -/
def readFields (e : LogEntry) : Members :=
  present sortedNames fun name => (e.slotOf name).map asRead

theorem sortFields_asRead (e : LogEntry) :
    sortFields (fieldsAsRead (present writtenNames e.slotOf)) = e.readFields := by
  have hwritten : ((present writtenNames e.slotOf).map (·.1)).Nodup :=
    (names_present _ _).nodup (by decide)
  have hsorted : Fields.Sorted e.readFields :=
    List.Pairwise.sublist (names_present _ _) (by decide)
  refine (Fields.sorted_nil.insertAll _).ext hsorted fun k => ?_
  rw [Fields.lookup_insertAll_nil (by rwa [names_fieldsAsRead]), fieldsAsRead_present, readFields,
    lookup_present, lookup_present]
  have hto : ∀ k ∈ writtenNames, k ∈ sortedNames := by decide
  have hfrom : ∀ k ∈ sortedNames, k ∈ writtenNames := by decide
  have hmem : k ∈ writtenNames ↔ k ∈ sortedNames := ⟨hto k, hfrom k⟩
  simp only [hmem]

theorem field?_readFields {name : String} (h : name ∈ sortedNames) :
    field? name e.readFields = (e.slotOf name).map asRead := by
  rw [field?, readFields, lookup_present, if_pos h]

/-! Sound entries -/

/-- An object with distinct sorted names that holds every constant of the model. -/
def HasConstants (j : Json) : Prop :=
  ∃ fields, j = .obj fields ∧ Fields.Sorted fields ∧
    ∀ key ∈ Log.modelConstants, ∃ n : ℕ, field? key fields = some (.ofNat n)

/-- An entry that the schema admits but for its trace id, and whose values can be read back. -/
structure Sound (e : LogEntry) : Prop where
  tailPolicy : ∀ name ∈ e.tailPolicy, name ∈ TailPolicy.known.map (·.1)
  params_readable : ∀ j ∈ e.params, Readable 126 j
  params_constants : ∀ j ∈ e.params, HasConstants j
  duration : ∀ ms ∈ e.durationMs, ms < 0x10000000000000000
  details_readable : ∀ j ∈ e.details, Readable 126 j
  details_present : ∀ j ∈ e.details, j ≠ .null

theorem Sound.readable_slot (h : e.Sound) {name : String} {j : Json} (hj : e.slotOf name = some j) :
    Readable 126 j := by
  unfold slotOf at hj
  split at hj
  case h_8 => exact h.params_readable j hj
  case h_12 => exact h.details_readable j hj
  case h_10 =>
    obtain ⟨ms, hms, rfl⟩ := Option.map_eq_some_iff.mp hj
    exact readable_ofNat (h.duration ms hms)
  case h_11 =>
    obtain ⟨refs, -, rfl⟩ := Option.map_eq_some_iff.mp hj
    refine .arr fun j hj => ?_
    obtain ⟨r, -, rfl⟩ := List.mem_map.mp hj
    exact .text r
  case h_13 => cases hj
  case h_1 | h_2 | h_3 | h_4 =>
    cases hj
    exact .text _
  all_goals
    obtain ⟨s, -, rfl⟩ := Option.map_eq_some_iff.mp hj
    exact .text _

/-- The line of an entry parses to its fields. -/
theorem Sound.parse_line (h : e.Sound) : parse e.line = .ok (.obj e.readFields) := by
  have hread : Readable maxLevels e.toJson := by
    rw [toJson_eq]
    exact .obj fun f hf => h.readable_slot (mem_present hf)
  rw [line, hread.parse_toCompact, toJson_eq, asRead, sortFields_asRead]

/-! The checks by field -/

/-- The reason that is given for a trace id which is not of three pieces. -/
def traceFault (e : LogEntry) (number : ℕ) : LogFault :=
  ⟨number, "trace_id", "trace_id should follow <component>::<run_id>::<seq> format, got: '" ++
    e.traceId ++ "'"⟩

theorem missingFields_readFields (e : LogEntry) : Log.missingFields e.readFields = [] := by
  rw [Log.missingFields_eq_nil_iff]
  intro name hname
  simp only [Log.requiredFields, List.mem_cons, List.not_mem_nil, or_false] at hname
  have hsorted : name ∈ sortedNames := by
    rcases hname with rfl | rfl | rfl | rfl <;> decide
  rw [field?_readFields hsorted]
  rcases hname with rfl | rfl | rfl | rfl <;> simp [slotOf]

theorem Sound.badParams_eq_nil (h : e.Sound) : Log.badParams e.readFields = [] := by
  rw [Log.badParams_eq_nil_iff]
  intro v hv
  rw [field?_readFields (by decide)] at hv
  obtain ⟨j, hj, rfl⟩ := Option.map_eq_some_iff.mp hv
  obtain ⟨fields, rfl, hsorted, hconst⟩ := h.params_constants j hj
  refine ⟨_, rfl, fun key hkey => ?_⟩
  obtain ⟨n, hn⟩ := hconst key hkey
  exact ⟨n, by rw [field?_asRead hsorted.nodup, hn]; rfl⟩

theorem badTraceId_readFields (e : LogEntry) (number : ℕ) :
    (Log.badTraceId e.readFields).map (fun c => (⟨number, c.1, c.2⟩ : LogFault)) =
      if colonPieces e.traceId.toList = 3 then [] else [e.traceFault number] := by
  unfold Log.badTraceId
  rw [field?_readFields (by decide)]
  simp only [slotOf, Option.map_some, asRead, Option.bind_some, str?]
  split_ifs <;> rfl

theorem Sound.complaints_eq (h : e.Sound) :
    Log.complaints e.readFields = Log.badTraceId e.readFields := by
  have hlevel : Log.unknownName e.readFields "level" (LogLevel.known.map (·.1)) = [] := by
    rw [Log.unknownName_eq_nil_iff]
    intro name hname
    rw [field?_readFields (by decide)] at hname
    obtain rfl : e.level.name = name := by simpa [slotOf, asRead] using hname
    cases e.level <;> decide
  have hpolicy : Log.unknownName e.readFields "tail_policy" (TailPolicy.known.map (·.1)) = [] := by
    rw [Log.unknownName_eq_nil_iff]
    intro name hname
    rw [field?_readFields (by decide)] at hname
    refine h.tailPolicy name ?_
    cases hp : e.tailPolicy with
    | none => simp [slotOf, hp] at hname
    | some t => simpa [slotOf, hp, asRead] using hname
  have houtcome : Log.unknownName e.readFields "outcome" (Outcome.known.map (·.1)) = [] := by
    rw [Log.unknownName_eq_nil_iff]
    intro name hname
    rw [field?_readFields (by decide)] at hname
    cases ho : e.outcome with
    | none => simp [slotOf, ho] at hname
    | some o =>
      obtain rfl : o.name = name := by simpa [slotOf, ho, asRead] using hname
      cases o <;> decide
  simp only [Log.complaints, missingFields_readFields, hlevel, hpolicy, houtcome,
    h.badParams_eq_nil, List.nil_append]

/-! The entry of the fields -/

namespace Draft

/-- Takes in a named value if it is there. -/
def offer (d : Draft) (name : String) (v : Option Json) : Except Cause Draft :=
  match v with
  | none => .ok d
  | some j => d.set name j

theorem foldlM_present_cons (name : String) (names : List String) (slot : String → Option Json)
    (d : Draft) :
    (present (name :: names) slot).foldlM (fun d f => set d f.1 f.2) d =
      d.offer name (slot name) >>= fun d =>
        (present names slot).foldlM (fun d f => set d f.1 f.2) d := by
  rw [present_cons, List.foldlM_append]
  cases slot name with
  | none => rfl
  | some j => simp [optional, offer]

end Draft

/-- The parts of an entry whose names were taken in. -/
def draftOf (e : LogEntry) (taken : List String) : Draft where
  timestamp := if "timestamp" ∈ taken then some e.timestamp else none
  traceId := if "trace_id" ∈ taken then some e.traceId else none
  level := if "level" ∈ taken then some e.level else none
  event := if "event" ∈ taken then some e.event else none
  component := if "component" ∈ taken then e.component else none
  preset := if "preset" ∈ taken then e.preset else none
  tailPolicy := if "tail_policy" ∈ taken then e.tailPolicy else none
  params := if "params" ∈ taken then e.params.map asRead else none
  outcome := if "outcome" ∈ taken then e.outcome else none
  durationMs := if "duration_ms" ∈ taken then e.durationMs else none
  artifactRefs := if "artifact_refs" ∈ taken then e.artifactRefs else none
  details := if "details" ∈ taken then e.details.map asRead else none

/-- The entry as it is read from its line. -/
def reread (e : LogEntry) : LogEntry :=
  { e with params := e.params.map asRead, details := e.details.map asRead }

theorem asRead_ne_null {j : Json} (h : j ≠ .null) : asRead j ≠ .null := by
  cases j <;> simp_all [asRead]

/-- Taking in the value that an entry has under a name adds it to what was taken. -/
def TakesIn (e : LogEntry) (name : String) : Prop :=
  ∀ taken, (e.draftOf taken).offer name ((e.slotOf name).map asRead) =
    .ok (e.draftOf (name :: taken))

section
variable {α β : Type} {name : String} {read : Json → Except Cause β}

/-- A value that is always there is taken in where its reader gives it back. -/
theorem takesIn_of_eq_some {put : Draft → β → Draft} {j : Json} {b : β}
    (hset : ∀ d j, Draft.set d name j = (read j).map (put d)) (hslot : e.slotOf name = some j)
    (hread : read (asRead j) = .ok b)
    (hput : ∀ taken, put (e.draftOf taken) b = e.draftOf (name :: taken)) : e.TakesIn name := by
  intro taken
  rw [hslot, Option.map_some, Draft.offer, hset, hread, ← hput]
  rfl

/-- A value that may be missing is taken in where its reader gives back what is there. -/
theorem takesIn_of_eq_map {put : Draft → Option β → Draft} {part : Option α} {write : α → Json}
    {f : α → β} (hset : ∀ d j, Draft.set d name j = (j.toOptional read).map (put d))
    (hslot : e.slotOf name = part.map write)
    (hread : ∀ a ∈ part, asRead (write a) ≠ .null ∧ read (asRead (write a)) = .ok (f a))
    (hput : ∀ taken, put (e.draftOf taken) (part.map f) = e.draftOf (name :: taken))
    (hnone : part = none → ∀ taken, e.draftOf taken = e.draftOf (name :: taken)) :
    e.TakesIn name := by
  intro taken
  cases part with
  | none =>
    rw [hslot]
    exact congrArg _ (hnone rfl taken)
  | some a =>
    obtain ⟨hne, ha⟩ := hread a rfl
    have hopt : toOptional read (asRead (write a)) = .ok (some (f a)) :=
      toOptional_eq_ok.mpr (.inr ⟨hne, _, ha, rfl⟩)
    rw [hslot, Option.map_some, Option.map_some, Draft.offer, hset, hopt, ← hput]
    rfl

end

theorem Sound.takesIn_params (h : e.Sound) : e.TakesIn "params" := by
  have hslot : e.slotOf "params" = e.params.map id := (congrFun Option.map_id _).symm
  refine takesIn_of_eq_map (f := asRead) (fun _ _ => rfl) hslot (fun j hj => ?_)
    (fun taken => by simp [draftOf]) fun hnone taken => by simp [draftOf, hnone]
  obtain ⟨fields, rfl, -⟩ := h.params_constants j hj
  exact ⟨asRead_ne_null nofun, rfl⟩

theorem Sound.takesIn_details (h : e.Sound) : e.TakesIn "details" := by
  have hslot : e.slotOf "details" = e.details.map id := (congrFun Option.map_id _).symm
  exact takesIn_of_eq_map (fun _ _ => rfl) hslot
    (fun j hj => ⟨asRead_ne_null (h.details_present j hj), rfl⟩)
    (fun taken => by simp [draftOf]) fun hnone taken => by simp [draftOf, hnone]

theorem Sound.takesIn_durationMs (h : e.Sound) : e.TakesIn "duration_ms" :=
  takesIn_of_eq_map (fun _ _ => rfl) rfl
    (fun ms hms => ⟨asRead_ne_null nofun, toNatural64_eq_ok.mpr ⟨rfl, h.duration ms hms⟩⟩)
    (fun taken => by simp [draftOf]) fun hnone taken => by simp [draftOf, hnone]

theorem takesIn_artifactRefs (e : LogEntry) : e.TakesIn "artifact_refs" :=
  takesIn_of_eq_map (f := id) (fun _ _ => rfl) rfl
    (fun refs _ => ⟨asRead_ne_null nofun, toList_toText_eq_ok.mpr (by simp [asRead])⟩)
    (fun taken => by simp [draftOf]) fun hnone taken => by simp [draftOf, hnone]

theorem takesIn_outcome (e : LogEntry) : e.TakesIn "outcome" :=
  takesIn_of_eq_map (fun _ _ => rfl) rfl
    (fun o _ => ⟨asRead_ne_null nofun, Outcome.toVariant_eq_ok.mpr (.inl rfl)⟩)
    (fun taken => by simp [draftOf]) fun hnone taken => by simp [draftOf, hnone]

theorem takesIn_level (e : LogEntry) : e.TakesIn "level" :=
  takesIn_of_eq_some (fun _ _ => rfl) rfl (LogLevel.toVariant_eq_ok.mpr (.inl rfl))
    fun taken => by simp [draftOf]

/-- One value more is taken in; those that are not treated apart are texts. -/
theorem Sound.takesIn (h : e.Sound) {name : String} (hname : name ∈ sortedNames) :
    e.TakesIn name := by
  simp only [sortedNames, List.mem_cons, List.not_mem_nil, or_false] at hname
  rcases hname with rfl | rfl | rfl | rfl | rfl | rfl | rfl | rfl | rfl | rfl | rfl | rfl
  · exact takesIn_artifactRefs e
  · exact takesIn_of_eq_map (fun _ _ => rfl) rfl (fun s _ => ⟨asRead_ne_null nofun, rfl⟩)
      (fun taken => by simp [draftOf]) fun hnone taken => by simp [draftOf, hnone]
  · exact h.takesIn_details
  · exact h.takesIn_durationMs
  · exact takesIn_of_eq_some (fun _ _ => rfl) rfl rfl fun taken => by simp [draftOf]
  · exact takesIn_level e
  · exact takesIn_outcome e
  · exact h.takesIn_params
  · exact takesIn_of_eq_map (fun _ _ => rfl) rfl (fun s _ => ⟨asRead_ne_null nofun, rfl⟩)
      (fun taken => by simp [draftOf]) fun hnone taken => by simp [draftOf, hnone]
  · exact takesIn_of_eq_map (fun _ _ => rfl) rfl (fun s _ => ⟨asRead_ne_null nofun, rfl⟩)
      (fun taken => by simp [draftOf]) fun hnone taken => by simp [draftOf, hnone]
  · exact takesIn_of_eq_some (fun _ _ => rfl) rfl rfl fun taken => by simp [draftOf]
  · exact takesIn_of_eq_some (fun _ _ => rfl) rfl rfl fun taken => by simp [draftOf]

/-- The values come in the order of their names, each into its own place of the draft. -/
theorem Sound.ofFields_eq (h : e.Sound) : ofFields e.readFields = .ok e.reread := by
  have hrun : ∀ (names taken : List String), (∀ name ∈ names, name ∈ sortedNames) →
      (present names fun name => (e.slotOf name).map asRead).foldlM
        (fun d f => Draft.set d f.1 f.2) (e.draftOf taken) =
      .ok (e.draftOf (names.reverse ++ taken)) := by
    intro names
    induction names with
    | nil => exact fun taken _ => rfl
    | cons name names ih =>
      intro taken hnames
      obtain ⟨hname, hrest⟩ := List.forall_mem_cons.mp hnames
      rw [Draft.foldlM_present_cons, bind_of_ok (h.takesIn hname taken), ih _ hrest]
      simp
  have hall := hrun sortedNames [] fun _ hname => hname
  have hstart : e.draftOf [] = Draft.empty := by simp [draftOf, Draft.empty]
  rw [hstart] at hall
  rw [ofFields, readFields, bind_of_ok hall]
  simp [draftOf, sortedNames, Draft.finish, required, reread]
  rfl

/-- The line of a sound entry gives the entry, and its only fault can be its trace id. -/
theorem Sound.validateLine_eq (h : e.Sound) (number : ℕ) : Log.validateLine e.line number =
    if colonPieces e.traceId.toList = 3 then .ok e.reread else .error [e.traceFault number] := by
  have hbad := badTraceId_readFields e number
  unfold Log.validateLine
  simp only [h.parse_line, h.complaints_eq]
  split_ifs at hbad ⊢ with htrace
  · rw [List.map_eq_nil_iff.mp hbad]
    simp only [h.ofFields_eq]
  · cases hc : Log.badTraceId e.readFields with
    | nil => simp [hc] at hbad
    | cons c cs =>
      rw [hc] at hbad
      exact congrArg _ hbad

end LogEntry
end BucketOverflow
