import BucketOverflow.Proofs.Json.Exact
import BucketOverflow.Proofs.Log.Line

/-! Entries that are their own record. The line of an entry without floats is one line, and the
validator gives the entry back from it. -/
namespace BucketOverflow
open Json Text

namespace LogEntry

variable {e : LogEntry}

/-- An entry that the schema admits and that holds no floats. -/
structure Loggable (e : LogEntry) : Prop where
  traceId : colonPieces e.traceId.toList = 3
  tailPolicy : ∀ name ∈ e.tailPolicy, ∃ t : TailPolicy, name = t.name
  params : ∀ j ∈ e.params, Exact 126 j
  constants : ∀ j ∈ e.params, ∃ fields, j = .obj fields ∧
    ∀ key ∈ Log.modelConstants, ∃ n : ℕ, field? key fields = some (.ofNat n)
  durationMs : ∀ ms ∈ e.durationMs, ms < 0x10000000000000000
  details : ∀ j ∈ e.details, Exact 126 j ∧ j ≠ .null

theorem Loggable.sound (h : e.Loggable) : e.Sound where
  tailPolicy name hname := by
    obtain ⟨t, rfl⟩ := h.tailPolicy name hname
    cases t <;> decide
  params_readable j hj := (h.params j hj).readable
  params_constants j hj := by
    obtain ⟨fields, rfl, hconst⟩ := h.constants j hj
    exact ⟨fields, rfl, (h.params _ hj).sorted, hconst⟩
  duration := h.durationMs
  details_readable j hj := (h.details j hj).1.readable
  details_present j hj := (h.details j hj).2

theorem map_asRead {j? : Option Json} (h : ∀ j ∈ j?, Exact 126 j) : j?.map asRead = j? := by
  cases j? with
  | none => rfl
  | some j => rw [Option.map_some, (h j rfl).asRead_eq]

theorem Loggable.reread_eq (h : e.Loggable) : e.reread = e := by
  have hdetails : ∀ j ∈ e.details, Exact 126 j := fun j hj => (h.details j hj).1
  rw [reread, map_asRead h.params, map_asRead hdetails]

/-- An entry without floats is written on one line, from which it is validated as itself. -/
theorem validateLine_line (e : LogEntry) (h : e.Loggable) (number : ℕ) :
    (∀ c ∈ e.line.toList, c ≠ '\n' ∧ c ≠ '\r') ∧ Log.validateLine e.line number = .ok e := by
  refine ⟨oneLine_line e, ?_⟩
  rw [h.sound.validateLine_eq, if_pos h.traceId, h.reread_eq]

/-- An entry with every field, whose texts hold line breaks, quotes and accents. -/
def annotated : LogEntry where
  timestamp := "noon\r\n"
  traceId := "harness::\"run\"::001"
  level := .warn
  event := "tab\tand\x01back\\slash"
  component := some "dépôt"
  preset := some ""
  tailPolicy := some "literal"
  params := some (.obj [("capacity", .ofNat 1), ("hop_budget", .ofNat 2), ("items", .ofNat 3),
    ("max_depth", .ofNat 4), ("paths", .ofNat 0xffffffffffffffff)])
  outcome := some .fail
  durationMs := some 0xffffffffffffffff
  artifactRefs := some ["a\nb", ""]
  details := some (.obj [("depths", .arr [.int (-1), .null, .bool true]), ("note", .str "\r")])

theorem loggable_annotated : annotated.Loggable where
  traceId := by decide
  tailPolicy name hname := ⟨.literal, (Option.some.inj hname).symm⟩
  params j hj := by
    obtain rfl := Option.some.inj hj
    refine .obj (by unfold Fields.Sorted; decide) ?_
    simp only [List.mem_cons, List.not_mem_nil, or_false, forall_eq_or_imp, forall_eq]
    exact ⟨exact_ofNat (by decide), exact_ofNat (by decide), exact_ofNat (by decide),
      exact_ofNat (by decide), exact_ofNat (by decide)⟩
  constants j hj := by
    obtain rfl := Option.some.inj hj
    refine ⟨_, rfl, ?_⟩
    simp only [Log.modelConstants, List.mem_cons, List.not_mem_nil, or_false, forall_eq_or_imp,
      forall_eq]
    exact ⟨⟨1, rfl⟩, ⟨3, rfl⟩, ⟨0xffffffffffffffff, rfl⟩, ⟨4, rfl⟩, ⟨2, rfl⟩⟩
  durationMs ms hms := by
    obtain rfl := Option.some.inj hms
    decide
  details j hj := by
    obtain rfl := Option.some.inj hj
    refine ⟨.obj (by unfold Fields.Sorted; decide) ?_, by simp⟩
    simp only [List.mem_cons, List.not_mem_nil, or_false, forall_eq_or_imp, forall_eq]
    refine ⟨.arr ?_, .text _⟩
    simp only [List.mem_cons, List.not_mem_nil, or_false, forall_eq_or_imp, forall_eq]
    exact ⟨.integer (by decide) (by decide), .null, .bool true⟩

theorem validateLine_line_annotated : annotated.Loggable ∧
    (∀ c ∈ annotated.line.toList, c ≠ '\n' ∧ c ≠ '\r') ∧
    Log.validateLine annotated.line 1 = .ok annotated :=
  ⟨loggable_annotated, validateLine_line annotated loggable_annotated 1⟩

end LogEntry
end BucketOverflow
