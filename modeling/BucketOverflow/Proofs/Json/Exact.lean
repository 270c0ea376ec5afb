import BucketOverflow.Proofs.Json.Values

/-! Values that are read back as they are: those without floats, whose objects hold their fields in
the order of their names. -/
namespace BucketOverflow.Json

variable {n : ℕ} {j : Json} {fields : Members}

/-- A value of so many levels without floats. Integers have 64 bits, and objects have their fields
sorted, one for each name. -/
inductive Exact : ℕ → Json → Prop
  | null {n : ℕ} : Exact n .null
  | bool {n : ℕ} (b : Bool) : Exact n (.bool b)
  | integer {n : ℕ} {k : ℤ} : -0x8000000000000000 ≤ k → k < significandLimit → Exact n (.int k)
  | text {n : ℕ} (s : String) : Exact n (.str s)
  | arr {n : ℕ} {items : List Json} : (∀ j ∈ items, Exact n j) → Exact (n + 1) (.arr items)
  | obj {n : ℕ} {fields : List (String × Json)} : Fields.Sorted fields →
    (∀ f ∈ fields, Exact n f.2) → Exact (n + 1) (.obj fields)

theorem exact_ofNat {k : ℕ} (hk : k < significandLimit) : Exact n (.ofNat k) :=
  .integer (by omega) (by exact_mod_cast hk)

theorem Exact.readable (h : Exact n j) : Readable n j := by
  induction h with
  | null => exact .null
  | bool b => exact .bool b
  | integer hlow hk => exact .integer hlow hk
  | text s => exact .text s
  | arr _ ih => exact .arr ih
  | obj _ _ ih => exact .obj ih

theorem sortFields_of_sorted (h : Fields.Sorted fields) : sortFields fields = fields :=
  (Fields.sorted_nil.insertAll fields).ext h fun k => Fields.lookup_insertAll_nil h.nodup k

/-- What is read is what was written. -/
theorem Exact.asRead_eq (h : Exact n j) : asRead j = j := by
  induction h with
  | null => rfl
  | bool b => rfl
  | integer _ _ => rfl
  | text s => rfl
  | @arr n items hitems ih =>
    have hread : itemsAsRead items = items := by
      clear hitems
      induction items with
      | nil => rfl
      | cons j items ihitems =>
        obtain ⟨hj, hrest⟩ := List.forall_mem_cons.mp ih
        rw [itemsAsRead, hj, ihitems hrest]
    rw [asRead, hread]
  | @obj n fields hsorted _ ih =>
    have hread : fieldsAsRead fields = fields := by
      have hfield : ∀ f ∈ fields, (f.1, asRead f.2) = id f := fun f hf => by rw [ih f hf, id]
      rw [fieldsAsRead_eq, List.map_congr_left hfield, List.map_id]
    rw [asRead, hread, sortFields_of_sorted hsorted]

theorem Exact.sorted (h : Exact n (.obj fields)) : Fields.Sorted fields := by
  cases h with
  | obj hsorted _ => exact hsorted

end BucketOverflow.Json
