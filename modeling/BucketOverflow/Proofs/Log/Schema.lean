import BucketOverflow.Log.Validator
import BucketOverflow.Proofs.Json.Decode
import BucketOverflow.Proofs.Json.Members

/-! The schema of a log's lines. A line is an entry exactly if it is an object whose values, the
last of each name, meet the schema. -/
namespace BucketOverflow
open Json Text

theorem LogLevel.toVariant_eq_ok {v : Json} {l : LogLevel} :
    toVariant known v = .ok l ↔ Spells l.name v :=
  toVariant_eq_ok_iff (by decide) (by rintro (_ | _) <;> rfl)

theorem Outcome.toVariant_eq_ok {v : Json} {o : Outcome} :
    toVariant known v = .ok o ↔ Spells o.name v :=
  toVariant_eq_ok_iff (by decide) (by rintro (_ | _) <;> rfl)

namespace LogEntry

/-- The values that a field of an entry can take; other fields are free. -/
def Typed (name : String) (v : Json) : Prop :=
  match name with
  | "timestamp" | "trace_id" | "event" => ∃ s, v = .str s
  | "level" => ∃ l : LogLevel, Spells l.name v
  | "component" | "preset" | "tail_policy" => v = .null ∨ ∃ s, v = .str s
  | "outcome" => v = .null ∨ ∃ o : Outcome, Spells o.name v
  | "duration_ms" => v = .null ∨ ∃ ms < 0x10000000000000000, v = .ofNat ms
  | "artifact_refs" => v = .null ∨ ∃ refs : List String, v = .arr (refs.map .str)
  | _ => True

theorem Draft.set_isOk_iff (d : Draft) (name : String) (v : Json) :
    (∃ d', d.set name v = .ok d') ↔ Typed name v := by
  unfold Draft.set Typed
  split
  all_goals simp only [exists_map_eq_ok, exists_toOptional_eq_ok, toText_eq_ok, toNatural64_eq_ok,
    toList_toText_eq_ok, LogLevel.toVariant_eq_ok, Outcome.toVariant_eq_ok, and_comm]
  case h_8 => simp
  case h_12 => simp
  case h_13 => simp [*]

/-! An entry from its fields -/

theorem required_eq_ok {α : Type} {name : String} {x : Option α} {a : α} :
    required name x = .ok a ↔ x = some a := by
  cases x <;> simp [required]

theorem Draft.finish_isOk_iff (d : Draft) : (∃ e, d.finish = .ok e) ↔
    d.timestamp ≠ none ∧ d.traceId ≠ none ∧ d.level ≠ none ∧ d.event ≠ none := by
  simp only [Draft.finish, bind_eq_ok, pure_eq_ok, required_eq_ok, Option.ne_none_iff_exists']
  constructor
  · rintro ⟨e, s, hs, t, ht, l, hl, v, hv, -⟩
    exact ⟨⟨s, hs⟩, ⟨t, ht⟩, ⟨l, hl⟩, ⟨v, hv⟩⟩
  · rintro ⟨⟨s, hs⟩, ⟨t, ht⟩, ⟨l, hl⟩, ⟨v, hv⟩⟩
    exact ⟨_, s, hs, t, ht, l, hl, v, hv, rfl⟩

variable {fields : Members} {d d' : Draft} {name : String} {v : Json}

/-- Each required part is filled by its own name alone. -/
structure Draft.Filled (name : String) (d d' : Draft) : Prop where
  timestamp : if name = "timestamp" then d'.timestamp ≠ none else d'.timestamp = d.timestamp
  traceId : if name = "trace_id" then d'.traceId ≠ none else d'.traceId = d.traceId
  level : if name = "level" then d'.level ≠ none else d'.level = d.level
  event : if name = "event" then d'.event ≠ none else d'.event = d.event

theorem Draft.filled_of_set (h : d.set name v = .ok d') : Filled name d d' := by
  unfold Draft.set at h
  split at h
  case h_13 =>
    cases h
    constructor <;> simp_all
  all_goals
    obtain ⟨x, -, rfl⟩ := map_eq_ok.mp h
    constructor <;> simp

/-- Fields make an entry exactly if every value suits its name and the required ones are there. -/
theorem ofFields_isOk_iff (hn : (fields.map (·.1)).Nodup) : (∃ e, ofFields fields = .ok e) ↔
    (∀ f ∈ fields, Typed f.1 f.2) ∧ ∀ name ∈ Log.requiredFields, field? name fields ≠ none := by
  have hparts (d : Draft) (h : fields.foldlM (fun d f => Draft.set d f.1 f.2) .empty = .ok d) :
      (∃ e, d.finish = .ok e) ↔ ∀ name ∈ Log.requiredFields, field? name fields ≠ none := by
    have htimestamp := foldlM_part_ne_none_iff Draft.set Draft.timestamp rfl
      (fun _ _ _ _ h => (Draft.filled_of_set h).timestamp) hn h
    have htraceId := foldlM_part_ne_none_iff Draft.set Draft.traceId rfl
      (fun _ _ _ _ h => (Draft.filled_of_set h).traceId) hn h
    have hlevel := foldlM_part_ne_none_iff Draft.set Draft.level rfl
      (fun _ _ _ _ h => (Draft.filled_of_set h).level) hn h
    have hevent := foldlM_part_ne_none_iff Draft.set Draft.event rfl
      (fun _ _ _ _ h => (Draft.filled_of_set h).event) hn h
    rw [Draft.finish_isOk_iff, htimestamp, htraceId, hlevel, hevent]
    simp [Log.requiredFields, field?]
  rw [← foldlM_isOk_iff Draft.set_isOk_iff (d := .empty)]
  simp only [ofFields, bind_eq_ok]
  constructor
  · rintro ⟨e, d, hd, he⟩
    exact ⟨⟨d, hd⟩, (hparts d hd).mp ⟨e, he⟩⟩
  · rintro ⟨⟨d, hd⟩, hrequired⟩
    obtain ⟨e, he⟩ := (hparts d hd).mpr hrequired
    exact ⟨e, d, hd, he⟩

end LogEntry

namespace Log

variable {fields : Members}

/-! The checks by field -/

theorem missingFields_eq_nil_iff : missingFields fields = [] ↔
    ∀ name ∈ requiredFields, field? name fields ≠ none := by
  simp [missingFields]

theorem unknownName_eq_nil_iff {field : String} {known : List String} :
    unknownName fields field known = [] ↔
      ∀ name, field? field fields = some (.str name) → name ∈ known := by
  unfold unknownName
  cases hv : field? field fields with
  | none => simp
  | some v => cases v <;> simp [str?]

theorem isNatural_iff {v : Json} : v.isNatural = true ↔ ∃ n : ℕ, v = .ofNat n := by
  cases v with
  | int k =>
    simp only [isNatural, decide_eq_true_eq, ofNat, Json.int.injEq]
    exact ⟨Int.eq_ofNat_of_zero_le, by rintro ⟨n, rfl⟩; exact Int.natCast_nonneg n⟩
  | _ => simp [isNatural, ofNat]

theorem badParams_eq_nil_iff : badParams fields = [] ↔
    ∀ v, field? "params" fields = some v → ∃ p, v = .obj p ∧
      ∀ key ∈ modelConstants, ∃ n : ℕ, field? key p = some (.ofNat n) := by
  have hkey (key : String) (p : Members) : ((field? key p).map isNatural).getD false = true ↔
      ∃ n : ℕ, field? key p = some (.ofNat n) := by
    cases field? key p <;> simp [isNatural_iff]
  unfold badParams
  cases hv : field? "params" fields with
  | none => simp
  | some v => cases v <;> simp [← hkey]

theorem badTraceId_eq_nil_iff : badTraceId fields = [] ↔
    ∀ id, field? "trace_id" fields = some (.str id) → colonPieces id.toList = 3 := by
  unfold badTraceId
  cases hv : field? "trace_id" fields with
  | none => simp
  | some v => cases v <;> simp [str?]

/-- What the values of a line have to be; `get` gives the value under a name, if there is one. -/
structure Schema (get : String → Option Json) : Prop where
  timestamp : ∃ s, get "timestamp" = some (.str s)
  traceId : ∃ s, get "trace_id" = some (.str s) ∧ colonPieces s.toList = 3
  level : ∃ v, get "level" = some v ∧ ∃ l : LogLevel, Spells l.name v
  event : ∃ s, get "event" = some (.str s)
  params : ∀ v, get "params" = some v → ∃ p, v = .obj p ∧
    ∀ key ∈ modelConstants, ∃ n : ℕ, field? key p = some (.ofNat n)
  component : ∀ v, get "component" = some v → v = .null ∨ ∃ s, v = .str s
  preset : ∀ v, get "preset" = some v → v = .null ∨ ∃ s, v = .str s
  tailPolicy : ∀ v, get "tail_policy" = some v → v = .null ∨ ∃ t : TailPolicy, v = .str t.name
  outcome : ∀ v, get "outcome" = some v → v = .null ∨ ∃ o : Outcome, Spells o.name v
  durationMs : ∀ v, get "duration_ms" = some v →
    v = .null ∨ ∃ ms < 0x10000000000000000, v = .ofNat ms
  artifactRefs : ∀ v, get "artifact_refs" = some v →
    v = .null ∨ ∃ refs : List String, v = .arr (refs.map .str)

theorem Schema.typed {get : String → Option Json} (h : Schema get) {name : String} {v : Json}
    (hv : get name = some v) : LogEntry.Typed name v := by
  unfold LogEntry.Typed
  split
  case h_1 =>
    obtain ⟨s, hs⟩ := h.timestamp
    exact ⟨s, Option.some.inj (hv.symm.trans hs)⟩
  case h_2 =>
    obtain ⟨s, hs, -⟩ := h.traceId
    exact ⟨s, Option.some.inj (hv.symm.trans hs)⟩
  case h_3 =>
    obtain ⟨s, hs⟩ := h.event
    exact ⟨s, Option.some.inj (hv.symm.trans hs)⟩
  case h_4 =>
    obtain ⟨w, hw, hl⟩ := h.level
    rwa [Option.some.inj (hv.symm.trans hw)]
  case h_5 => exact h.component v hv
  case h_6 => exact h.preset v hv
  case h_7 => exact (h.tailPolicy v hv).imp_right fun ⟨t, ht⟩ => ⟨t.name, ht⟩
  case h_8 => exact h.outcome v hv
  case h_9 => exact h.durationMs v hv
  case h_10 => exact h.artifactRefs v hv
  case h_11 => trivial

theorem Schema.complaints_eq_nil (h : Schema fun name => field? name fields) :
    complaints fields = [] := by
  have hrequired : ∀ name ∈ requiredFields, field? name fields ≠ none := by
    obtain ⟨s, hs⟩ := h.timestamp
    obtain ⟨t, ht, -⟩ := h.traceId
    obtain ⟨l, hl, -⟩ := h.level
    obtain ⟨e, he⟩ := h.event
    simp [requiredFields, hs, ht, hl, he]
  have hlevel : ∀ name, field? "level" fields = some (.str name) →
      name ∈ LogLevel.known.map (·.1) := by
    intro name hname
    obtain ⟨v, hv, l, hl⟩ := h.level
    obtain rfl : v = .str name := Option.some.inj (hv.symm.trans hname)
    obtain rfl := spells_str.mp hl
    cases l <;> decide
  have hpolicy : ∀ name, field? "tail_policy" fields = some (.str name) →
      name ∈ TailPolicy.known.map (·.1) := by
    intro name hname
    obtain hnull | ⟨t, ht⟩ := h.tailPolicy _ hname
    · cases hnull
    · cases ht
      cases t <;> decide
  have houtcome : ∀ name, field? "outcome" fields = some (.str name) →
      name ∈ Outcome.known.map (·.1) := by
    intro name hname
    obtain hnull | ⟨o, ho⟩ := h.outcome _ hname
    · cases hnull
    · obtain rfl := spells_str.mp ho
      cases o <;> decide
  have htrace : ∀ id, field? "trace_id" fields = some (.str id) → colonPieces id.toList = 3 := by
    intro id hid
    obtain ⟨s, hs, hpieces⟩ := h.traceId
    obtain rfl : s = id := Json.str.inj (Option.some.inj (hs.symm.trans hid))
    exact hpieces
  simp only [complaints, missingFields_eq_nil_iff.mpr hrequired,
    unknownName_eq_nil_iff.mpr hlevel, unknownName_eq_nil_iff.mpr hpolicy,
    unknownName_eq_nil_iff.mpr houtcome, badParams_eq_nil_iff.mpr h.params,
    badTraceId_eq_nil_iff.mpr htrace, List.append_nil]

/-- Typed values that no check by field complains of. -/
theorem schema_of_complaints_eq_nil (hc : complaints fields = [])
    (htyped : ∀ name v, field? name fields = some v → LogEntry.Typed name v) :
    Schema fun name => field? name fields := by
  simp only [complaints, List.append_eq_nil_iff, missingFields_eq_nil_iff, unknownName_eq_nil_iff,
    badParams_eq_nil_iff, badTraceId_eq_nil_iff] at hc
  obtain ⟨⟨⟨⟨⟨hrequired, -⟩, hpolicy⟩, -⟩, hparams⟩, htrace⟩ := hc
  have hpresent (name : String) (hname : name ∈ requiredFields) :
      ∃ v, field? name fields = some v ∧ LogEntry.Typed name v := by
    obtain ⟨v, hv⟩ := Option.ne_none_iff_exists'.mp (hrequired name hname)
    exact ⟨v, hv, htyped name v hv⟩
  obtain ⟨_, htimestamp, s, rfl⟩ := hpresent "timestamp" (by decide)
  obtain ⟨_, hid, id, rfl⟩ := hpresent "trace_id" (by decide)
  obtain ⟨_, hevent, e, rfl⟩ := hpresent "event" (by decide)
  refine
    { timestamp := ⟨s, htimestamp⟩
      traceId := ⟨id, hid, htrace id hid⟩
      level := hpresent "level" (by decide)
      event := ⟨e, hevent⟩
      params := hparams
      component := htyped "component"
      preset := htyped "preset"
      tailPolicy := ?_
      outcome := htyped "outcome"
      durationMs := htyped "duration_ms"
      artifactRefs := htyped "artifact_refs" }
  intro v hv
  refine (htyped "tail_policy" v hv).imp_right ?_
  rintro ⟨name, rfl⟩
  have hname := hpolicy name hv
  simp only [TailPolicy.known, List.map_cons, List.map_nil, List.mem_cons, List.not_mem_nil,
    or_false] at hname
  rcases hname with rfl | rfl
  · exact ⟨.saturating, rfl⟩
  · exact ⟨.literal, rfl⟩

/-- The checks by field and the reader of entries together ask for the schema. -/
theorem schema_iff (hn : (fields.map (·.1)).Nodup) : Schema (fun name => field? name fields) ↔
    complaints fields = [] ∧ ∃ e, LogEntry.ofFields fields = .ok e := by
  rw [LogEntry.ofFields_isOk_iff hn]
  constructor
  · intro h
    have hc := h.complaints_eq_nil
    have hmissing : missingFields fields = [] := by
      simp only [complaints, List.append_eq_nil_iff] at hc
      tauto
    refine ⟨hc, fun f hf => h.typed ((mem_iff_field? hn).mp hf), ?_⟩
    exact missingFields_eq_nil_iff.mp hmissing
  · rintro ⟨hc, htyped, -⟩
    refine schema_of_complaints_eq_nil hc fun name v hv => ?_
    exact htyped (name, v) ((mem_iff_field? hn).mpr hv)

theorem validateLine_eq_ok {line : String} {number : ℕ} {e : LogEntry} :
    validateLine line number = .ok e ↔ ∃ fields, parse line = .ok (.obj fields) ∧
      complaints fields = [] ∧ LogEntry.ofFields fields = .ok e := by
  unfold validateLine
  cases parse line with
  | error fault => simp
  | ok j =>
    cases j with
    | obj fields =>
      simp only [Except.ok.injEq, Json.obj.injEq, exists_eq_left']
      cases complaints fields with
      | nil => cases LogEntry.ofFields fields <;> simp
      | cons c cs => simp
    | _ => simp

/-- A line is an entry exactly if it is an object whose values meet the schema, of values under one
name the last. -/
theorem validateLine_isOk_iff (line : String) (number : ℕ) :
    (∃ e, validateLine line number = .ok e) ↔
      ∃ listed, readMembers line = .ok listed ∧ Schema fun name => last? name listed := by
  have hschema (listed : Members) : Schema (fun name => last? name listed) ↔
      complaints (sortFields listed) = [] ∧ ∃ e, LogEntry.ofFields (sortFields listed) = .ok e := by
    simp only [← field?_sortFields]
    exact schema_iff (sorted_sortFields listed).nodup
  simp only [validateLine_eq_ok, parse_eq_obj, hschema]
  constructor
  · rintro ⟨e, _, ⟨listed, hlisted, rfl⟩, hc, he⟩
    exact ⟨listed, hlisted, hc, e, he⟩
  · rintro ⟨listed, hlisted, hc, e, he⟩
    exact ⟨e, _, ⟨listed, hlisted, rfl⟩, hc, he⟩

end Log
end BucketOverflow
