import BucketOverflow.Drift
import BucketOverflow.Proofs.Fields
import BucketOverflow.Proofs.Snapshot.Bits

/-! The fields that snapshots are compared by. A snapshot whose bit patterns decode flattens to its
ten key fields and three fields for each depth, whose names tell them apart. -/
namespace BucketOverflow
open Text Binary64

/-- The row of a depth, of several the last. -/
def Snapshot.lastRow (s : Snapshot) (d : ℕ) : Option SnapshotRow :=
  (s.rows.filter fun r => r.depth = d).getLast?

namespace Drift

variable {s : Snapshot} {r : SnapshotRow} {f : String} {d e : ℕ}

/-! Names -/

theorem natText_injective : Function.Injective natText := by
  intro m n h
  exact decimal_injective (String.ofList_injective h)

theorem toList_depthField (d : ℕ) (n : String) :
    (depthField d n).toList = "depth.".toList ++ (decimalPad 4 d ++ '.' :: n.toList) := by
  unfold depthField
  simp only [String.toList_ofList, List.append_assoc]

/-- The name of a field tells its depth and what it holds. -/
theorem depthField_inj {m n : String} : depthField d m = depthField e n ↔ d = e ∧ m = n := by
  constructor
  · intro h
    have hlist := congrArg String.toList h
    rw [toList_depthField, toList_depthField, List.append_cancel_left_eq] at hlist
    have hrow (k : ℕ) (x : String) :
        (decimalPad 4 k ++ '.' :: x.toList).takeWhile isDigit = decimalPad 4 k := by
      rw [decimalPad, padLeft, List.takeWhile_append_of_pos isDigit_of_mem_zeros_decimal]
      exact List.append_nil _
    have hpad := congrArg (List.takeWhile isDigit) hlist
    rw [hrow, hrow] at hpad
    rw [hpad, List.append_cancel_left_eq] at hlist
    exact ⟨decimalPad_injective 4 hpad, String.toList_injective (List.cons.inj hlist).2⟩
  · rintro ⟨rfl, rfl⟩
    rfl

theorem head_depthField (d : ℕ) (n : String) : (depthField d n).toList.head? = some 'd' := by
  have hprefix : "depth.".toList = 'd' :: ['e', 'p', 't', 'h', '.'] := rfl
  rw [toList_depthField, hprefix, List.cons_append, List.head?_cons]

theorem head_keyFields : ∀ k ∈ keyFields, k.toList.head? ≠ some 'd' := by simp [keyFields]

theorem keyFields_nodup : keyFields.Nodup := by decide +kernel

theorem depthField_notMem_keyFields (d : ℕ) (n : String) : depthField d n ∉ keyFields :=
  fun h => head_keyFields _ h (head_depthField d n)

/-! Values -/

/-- The word of a bit pattern, and a NaN for other texts. -/
def wordOf (raw : String) : Binary64 := (ofBitsText raw).toOption.getD nan

/-- A snapshot whose bit patterns are words. -/
structure Decodes (s : Snapshot) : Prop where
  peak : IsWord s.peak.probabilityBits
  loads : ∀ r ∈ s.rows, IsWord r.loadBits
  probabilities : ∀ r ∈ s.rows, IsWord r.probabilityBits

/-- A snapshot whose bit patterns are numbers. -/
structure Readable (s : Snapshot) : Prop where
  peak : IsNumber s.peak.probabilityBits
  loads : ∀ r ∈ s.rows, IsNumber r.loadBits
  probabilities : ∀ r ∈ s.rows, IsNumber r.probabilityBits

instance (s : Snapshot) : Decidable (Readable s) :=
  decidable_of_iff (IsNumber s.peak.probabilityBits ∧ (∀ r ∈ s.rows, IsNumber r.loadBits) ∧
    ∀ r ∈ s.rows, IsNumber r.probabilityBits)
    ⟨fun h => ⟨h.1, h.2.1, h.2.2⟩, fun h => ⟨h.peak, h.loads, h.probabilities⟩⟩

theorem Readable.decodes (h : Readable s) : Decodes s where
  peak := h.peak.isWord
  loads r hr := (h.loads r hr).isWord
  probabilities r hr := (h.probabilities r hr).isWord

theorem wordOf_eq {raw : String} {x : Binary64} (h : ofBitsText raw = .ok x) : wordOf raw = x := by
  rw [wordOf, h]
  rfl

theorem isNaN_wordOf {raw : String} (h : IsNumber raw) : (wordOf raw).isNaN = false := by
  obtain ⟨x, hx, hn⟩ := h
  rwa [wordOf_eq hx]

def valueText (raw : String) : String := String.ofList (wordOf raw).scientific

theorem bitsValue_eq {raw : String} (h : IsWord raw) : bitsValue raw = .ok (valueText raw) := by
  obtain ⟨x, hx⟩ := h
  rw [bitsValue, valueText, wordOf_eq hx, hx]
  rfl

/-- The names of the fields of one depth. -/
def rowNames (d : ℕ) : List String :=
  [depthField d "expected_load", depthField d "probability", depthField d "regime"]

/-- The fields of one depth. -/
def rowValues (r : SnapshotRow) : List (String × String) :=
  (rowNames r.depth).zip [valueText r.loadBits, valueText r.probabilityBits, r.regime]

/-- The values of the key fields. -/
def keyValues (s : Snapshot) : List String :=
  [natText s.params.capacity.toNat, natText s.params.items.toNat, natText s.params.paths.toNat,
    natText s.params.maxDepth.toNat, natText s.params.hopBudget.toNat, s.params.tailPolicy.name,
    s.fingerprint, natText s.peak.depth, valueText s.peak.probabilityBits,
    natText s.saturatedDepths.length]

/-- All fields of a snapshot. -/
def fieldsOf (s : Snapshot) : List (String × String) :=
  Fields.insertAll (s.rows.flatMap rowValues) (Fields.insertAll (keyFields.zip (keyValues s)) [])

theorem rowTexts_eq (hload : IsWord r.loadBits) (hprob : IsWord r.probabilityBits) :
    rowTexts r = .ok (rowValues r) := by
  rw [rowTexts, bitsValue_eq hload, bitsValue_eq hprob]
  rfl

theorem mapM_rowTexts {rows : List SnapshotRow} (hload : ∀ r ∈ rows, IsWord r.loadBits)
    (hprob : ∀ r ∈ rows, IsWord r.probabilityBits) :
    rows.mapM rowTexts = .ok (rows.map rowValues) := by
  induction rows with
  | nil => rfl
  | cons r rest ih =>
    rw [List.mapM_cons, rowTexts_eq (hload r List.mem_cons_self) (hprob r List.mem_cons_self),
      ih (fun x hx => hload x (List.mem_cons_of_mem r hx))
        (fun x hx => hprob x (List.mem_cons_of_mem r hx))]
    rfl

theorem flatten_eq (h : Decodes s) : flatten s true = .ok (fieldsOf s) := by
  have hkeys : keyTexts s = .ok (keyFields.zip (keyValues s)) := by
    rw [keyTexts, bitsValue_eq h.peak]
    rfl
  rw [flatten, hkeys, fieldsOf, List.flatMap_def]
  simp only [if_true, mapM_rowTexts h.loads h.probabilities]
  rfl

/-! Names and values of all fields -/

theorem names_rowValues (r : SnapshotRow) : (rowValues r).map (·.1) = rowNames r.depth := rfl

theorem names_keyValues (s : Snapshot) : (keyFields.zip (keyValues s)).map (·.1) = keyFields := rfl

theorem notMem_keyFields_of_mem_rowNames (h : f ∈ rowNames d) : f ∉ keyFields := by
  simp only [rowNames, List.mem_cons, List.not_mem_nil, or_false] at h
  rcases h with rfl | rfl | rfl <;> exact depthField_notMem_keyFields _ _

theorem mem_names_rows : f ∈ (s.rows.flatMap rowValues).map (·.1) ↔
    ∃ r ∈ s.rows, f ∈ rowNames r.depth := by
  simp only [List.map_flatMap, List.mem_flatMap, names_rowValues]

theorem mem_names_fieldsOf : f ∈ (fieldsOf s).map (·.1) ↔
    (∃ r ∈ s.rows, f ∈ rowNames r.depth) ∨ f ∈ keyFields := by
  rw [fieldsOf, Fields.mem_names_insertAll, Fields.mem_names_insertAll, mem_names_rows,
    names_keyValues]
  simp

theorem sorted_fieldsOf (s : Snapshot) : Fields.Sorted (fieldsOf s) :=
  (Fields.sorted_nil.insertAll _).insertAll _

theorem lookup_key {v : String} (h : (f, v) ∈ keyFields.zip (keyValues s)) :
    (fieldsOf s).lookup f = some v := by
  have hf : f ∈ keyFields := names_keyValues s ▸ List.mem_map_of_mem h
  rw [fieldsOf, Fields.lookup_insertAll_of_notMem]
  · exact Fields.lookup_insertAll_of_mem (names_keyValues s ▸ keyFields_nodup) h
  · rw [mem_names_rows]
    rintro ⟨r, -, hr⟩
    exact notMem_keyFields_of_mem_rowNames hr hf

theorem nodup_rowNames (d : ℕ) : (rowNames d).Nodup := by
  simp [rowNames, depthField_inj]

theorem rowNames_disjoint (h : d ≠ e) : List.Disjoint (rowNames d) (rowNames e) := by
  intro f hd he
  simp only [rowNames, List.mem_cons, List.not_mem_nil, or_false] at hd he
  rcases hd with rfl | rfl | rfl <;> simp [depthField_inj, h] at he

/-- Distinct depths have distinct fields. -/
theorem nodup_flatMap_rowNames {depths : List ℕ} (h : depths.Nodup) :
    (depths.flatMap rowNames).Nodup := by
  rw [List.nodup_flatMap]
  exact ⟨fun d _ => nodup_rowNames d, h.imp fun hne => rowNames_disjoint hne⟩

/-! The last row of a depth -/

theorem mem_of_lastRow (h : s.lastRow d = some r) : r ∈ s.rows ∧ r.depth = d := by
  have hmem := List.mem_of_getLast? h
  rw [List.mem_filter, decide_eq_true_eq] at hmem
  exact hmem

theorem lastRow_eq_none_iff : s.lastRow d = none ↔ ∀ r ∈ s.rows, r.depth ≠ d := by
  simp [Snapshot.lastRow]

/-- A row of a snapshot with one row for each depth is the last of its depth. -/
theorem lastRow_of_mem (h : (s.rows.map (·.depth)).Nodup) (hr : r ∈ s.rows) :
    s.lastRow r.depth = some r := by
  cases hlast : s.lastRow r.depth with
  | none => exact absurd rfl (lastRow_eq_none_iff.mp hlast r hr)
  | some r' =>
    obtain ⟨hr', hd⟩ := mem_of_lastRow hlast
    rw [List.inj_on_of_nodup_map h hr' hr hd]

/-- Putting in the fields of rows leaves those of the last row of each depth. -/
theorem lookup_insertAll_rows (hf : f ∈ rowNames d) {fields : List (String × String)}
    (hfields : fields.lookup f = none) (rows : List SnapshotRow) :
    (Fields.insertAll (rows.flatMap rowValues) fields).lookup f =
      ((rows.filter fun r => r.depth = d).getLast?).bind fun r => (rowValues r).lookup f := by
  -- from the end of the rows: what is put in last is what stays
  induction rows using List.reverseRecOn with
  | nil => exact hfields
  | append_singleton rest r ih =>
    have hstep : Fields.insertAll ((rest ++ [r]).flatMap rowValues) fields =
        Fields.insertAll (rowValues r) (Fields.insertAll (rest.flatMap rowValues) fields) := by
      rw [List.flatMap_append, List.flatMap_singleton]
      exact List.foldl_append
    rw [hstep, List.filter_append]
    by_cases hr : r.depth = d
    · have hlast : ((rest.filter fun r => r.depth = d) ++
          [r].filter fun r => r.depth = d).getLast? = some r := by simp [hr]
      have hname : f ∈ (rowValues r).map (·.1) := by rwa [names_rowValues, hr]
      rw [hlast, Option.bind_some]
      cases hv : (rowValues r).lookup f with
      | none => exact absurd hname (Fields.lookup_eq_none_iff.mp hv)
      | some v =>
        have hnodup : ((rowValues r).map (·.1)).Nodup := nodup_rowNames r.depth
        exact Fields.lookup_insertAll_of_mem hnodup (Fields.mem_of_lookup hv)
    · have hname : f ∉ (rowValues r).map (·.1) := fun h => rowNames_disjoint hr h hf
      have hnone : [r].filter (fun r => r.depth = d) = [] := by simp [hr]
      rw [Fields.lookup_insertAll_of_notMem hname, ih, hnone, List.append_nil]

/-- The fields of a depth are those of its last row. -/
theorem lookup_rows (hf : f ∈ rowNames d) :
    (fieldsOf s).lookup f = (s.lastRow d).bind fun r => (rowValues r).lookup f := by
  have hkeys : (Fields.insertAll (keyFields.zip (keyValues s)) []).lookup f = none := by
    rw [Fields.lookup_eq_none_iff, Fields.mem_names_insertAll, names_keyValues, not_or]
    exact ⟨notMem_keyFields_of_mem_rowNames hf, List.not_mem_nil⟩
  exact lookup_insertAll_rows hf hkeys s.rows

end Drift
end BucketOverflow
