import BucketOverflow.Proofs.Blocks
import BucketOverflow.Proofs.Drift.Flatten

/-! Comparing two snapshots of one version. Every field of either is compared once, by texts that
say nothing of the decimals; so snapshots that differ in their decimals alone are the same. -/
namespace BucketOverflow
open Binary64

/-- A row without its decimals. -/
def SnapshotRow.bare (r : SnapshotRow) : SnapshotRow :=
  { r with load := zero false, probability := zero false }

/-- A snapshot without its decimals: what is left says all values exactly. -/
def Snapshot.bare (s : Snapshot) : Snapshot :=
  { s with peak := { s.peak with probability := zero false }, rows := s.rows.map (·.bare) }

namespace Drift

variable {s t g c : Snapshot} {f : String}

theorem fieldsOf_bare (s : Snapshot) : fieldsOf s.bare = fieldsOf s := by
  unfold fieldsOf
  rw [Snapshot.bare, List.flatMap_map]
  rfl

theorem Readable.of_bare (h : Readable s.bare) : Readable s where
  peak := h.peak
  loads r hr := h.loads r.bare (List.mem_map_of_mem hr)
  probabilities r hr := h.probabilities r.bare (List.mem_map_of_mem hr)

theorem Readable.bare (h : Readable s) : Readable s.bare where
  peak := h.peak
  loads r hr := by
    obtain ⟨r', hr', rfl⟩ := List.mem_map.mp hr
    exact h.loads r' hr'
  probabilities r hr := by
    obtain ⟨r', hr', rfl⟩ := List.mem_map.mp hr
    exact h.probabilities r' hr'

/-! The fields that are compared -/

theorem between_eq (hv : g.version = c.version) (hg : Decodes g) (hc : Decodes c) :
    between g c true = .ok ⟨g.scenario, (keyFields ++ otherFields (fieldsOf g) (fieldsOf c)).map
      (row (fieldsOf g) (fieldsOf c))⟩ := by
  rw [between, if_neg (not_not.mpr hv), flatten_eq hg, flatten_eq hc]
  rfl

/-- The other fields are those of the depths of either side. -/
theorem mem_otherFields : f ∈ otherFields (fieldsOf g) (fieldsOf c) ↔
    (∃ r ∈ g.rows, f ∈ rowNames r.depth) ∨ ∃ r ∈ c.rows, f ∈ rowNames r.depth := by
  rw [otherFields, List.mem_filter, Fields.mem_names_insertAll, mem_names_fieldsOf,
    mem_names_fieldsOf]
  simp only [List.contains_eq_mem, Bool.not_eq_true', decide_eq_false_iff_not]
  constructor
  · rintro ⟨(hr | hf) | (hr | hf), hkey⟩
    · exact .inr hr
    · exact absurd hf hkey
    · exact .inl hr
    · exact absurd hf hkey
  · rintro (⟨r, hr, hf⟩ | ⟨r, hr, hf⟩)
    · exact ⟨.inr (.inl ⟨r, hr, hf⟩), notMem_keyFields_of_mem_rowNames hf⟩
    · exact ⟨.inl (.inl ⟨r, hr, hf⟩), notMem_keyFields_of_mem_rowNames hf⟩

theorem sorted_otherFields (g c : Snapshot) :
    (otherFields (fieldsOf g) (fieldsOf c)).Pairwise (· < ·) :=
  List.Pairwise.filter _ ((sorted_fieldsOf g).insertAll (fieldsOf c))

theorem nodup_otherFields (g c : Snapshot) : (otherFields (fieldsOf g) (fieldsOf c)).Nodup :=
  (sorted_otherFields g c).imp ne_of_lt

/-- Three fields are compared for each depth of a snapshot with itself. -/
theorem length_otherFields_self (h : (s.rows.map (·.depth)).Nodup) :
    (otherFields (fieldsOf s) (fieldsOf s)).length = 3 * s.rows.length := by
  have hperm : (otherFields (fieldsOf s) (fieldsOf s)).Perm
      ((s.rows.map (·.depth)).flatMap rowNames) := by
    rw [List.perm_ext_iff_of_nodup (nodup_otherFields s s) (nodup_flatMap_rowNames h)]
    intro f
    rw [mem_otherFields, or_self, List.mem_flatMap]
    simp only [List.mem_map, exists_exists_and_eq_and]
  have hthree (d : ℕ) : (rowNames d).length = 3 := rfl
  rw [hperm.length_eq, length_flatMap_blocks hthree, List.length_map]

/-! Snapshots that differ in their decimals alone -/

theorem status_row_self (fields : List (String × String)) (f : String) :
    (row fields fields f).status = .same := by
  simp only [row, classify, if_true]

/-- Nothing differs between snapshots that agree without their decimals. -/
theorem between_of_bare_eq (h : t.bare = s.bare) (hs : Readable s)
    (hn : (s.rows.map (·.depth)).Nodup) :
    ∃ d, between t s true = .ok d ∧ d.rows.length = 10 + 3 * s.rows.length ∧
      ∀ r ∈ d.rows, r.status = .same := by
  have hv : t.bare.version = s.bare.version := by rw [h]
  have ht : Readable t := .of_bare (h ▸ hs.bare)
  have hfields : fieldsOf t = fieldsOf s := by rw [← fieldsOf_bare t, h, fieldsOf_bare]
  refine ⟨_, between_eq hv ht.decodes hs.decodes, ?_, ?_⟩
  · rw [List.length_map, List.length_append, hfields, length_otherFields_self hn]
    rfl
  · intro r hr
    obtain ⟨f, -, rfl⟩ := List.mem_map.mp hr
    rw [hfields]
    exact status_row_self _ f

end Drift
end BucketOverflow
