import BucketOverflow.Params.Json
import BucketOverflow.Proofs.Json.Values

/-! Parameters in their own JSON. They are read wherever they stand in a text, by the reader of
parameters and by that of values alike. -/
namespace BucketOverflow.Params
open Json

/-- Parameters inside a text. -/
theorem reads (p : Params) : Reads (record Params.schema) p.toJson p := by
  have hknown : TailPolicy.known.lookup p.tailPolicy.name = some p.tailPolicy := by
    cases p.tailPolicy <;> rfl
  refine reads_record (x := ⟨some (.ofNat p.capacity.toNat), some (.ofNat p.items.toNat),
    some (.ofNat p.paths.toNat), some (.ofNat p.maxDepth.toNat), some (.ofNat p.hopBudget.toNat),
    some p.tailPolicy⟩) ?_ ?_
  · refine .cons (readsMember_slot rfl rfl (reads_natural64 p.capacity.toNat_lt)
      fun _ _ => bind_of_ok) ?_
    refine .cons (readsMember_slot rfl rfl (reads_natural64 p.items.toNat_lt)
      fun _ _ => bind_of_ok) ?_
    refine .cons (readsMember_slot rfl rfl (reads_natural64 p.paths.toNat_lt)
      fun _ _ => bind_of_ok) ?_
    refine .cons (readsMember_slot rfl rfl (reads_natural32 p.maxDepth.toNat_lt)
      fun _ _ => bind_of_ok) ?_
    refine .cons (readsMember_slot rfl rfl (reads_natural32 p.hopBudget.toNat_lt)
      fun _ _ => bind_of_ok) ?_
    exact .cons (readsMember_slot rfl rfl (reads_variant hknown) fun _ _ => bind_of_ok) (.nil _)
  · simp only [Params.schema, Params.Draft.withBase, Option.getD_some, UInt64.ofNat_toNat,
      UInt32.ofNat_toNat]

variable {fields : Members}

theorem readable_of_toJson {n : ℕ} (p : Params) (h : p.toJson = .obj fields) :
    ∀ f ∈ fields, Readable n f.2 := by
  have h32 {k : UInt32} : k.toNat < significandLimit := k.toNat_lt.trans (by decide)
  obtain rfl := Json.obj.inj h
  simp only [List.forall_mem_cons]
  exact ⟨readable_ofNat p.capacity.toNat_lt, readable_ofNat p.items.toNat_lt,
    readable_ofNat p.paths.toNat_lt, readable_ofNat h32, readable_ofNat h32, .text _, by simp⟩

/-- The pretty text of parameters parses, with no field changed. -/
theorem parse_toText (p : Params) (h : p.toJson = .obj fields) :
    parse p.toText = .ok (.obj (sortFields fields)) := by
  have hread : fieldsAsRead fields = fields := by
    obtain rfl := Json.obj.inj h
    rfl
  have hreads : Reads (value maxLevels) (.obj fields) (.obj (sortFields (fieldsAsRead fields))) :=
    Readable.reads (.obj (p.readable_of_toJson h))
  rw [hread, ← h] at hreads
  exact hreads.toPretty

end BucketOverflow.Params
