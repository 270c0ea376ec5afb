import BucketOverflow.Proofs.Drift.Close
import BucketOverflow.Proofs.Results

/-! Comparing two snapshots the other way round. The one comparison succeeds if the other does, and
their rows are the same but for the sides and the signs of the differences. What is said of a field
does not depend on which snapshot is the golden one. -/
namespace BucketOverflow
open Binary64

/-- A row of the same field and status, its sides swapped and its difference negated. -/
structure DriftRow.Swapped (r r' : DriftRow) : Prop where
  field : r'.field = r.field
  golden : r'.golden = r.current
  current : r'.current = r.golden
  delta : Option.Rel Opposite r.delta r'.delta
  status : r'.status = r.status

namespace Drift

/-- Swapped rows, and no difference in what they come to. -/
structure Swapped (d d' : Drift) : Prop where
  rows : List.Forall₂ DriftRow.Swapped d.rows d'.rows
  hasAlerts : d'.hasAlerts = d.hasAlerts
  count : ∀ status, d'.count status = d.count status

variable {s g c : Snapshot} {all : Bool} {d : Drift}
  {fields golden current : List (String × String)}

/-! Fields -/

/-- Texts of one field differ by as much and as badly in either order. -/
theorem classify_swap (f g c : String) :
    Option.Rel Opposite (classify f g c).1 (classify f c g).1 ∧
      (classify f c g).2 = (classify f g c).2 := by
  by_cases heq : g = c
  · rw [heq, classify_self]
    exact ⟨.none, rfl⟩
  have heq' : c ≠ g := Ne.symm heq
  rcases measured_or f with rfl | hf | hf
  · rw [classify_fingerprint heq, classify_fingerprint heq']
    exact ⟨.none, rfl⟩
  · rw [classify_params hf heq, classify_params hf heq']
    exact ⟨.none, rfl⟩
  · rw [classify_measured hf heq, classify_measured hf heq']
    cases ofText? g.toList with
    | none =>
      cases ofText? c.toList with
      | none => exact ⟨.none, rfl⟩
      | some y => exact ⟨.none, rfl⟩
    | some x =>
      cases ofText? c.toList with
      | none => exact ⟨.none, rfl⟩
      | some y => exact ⟨.some (opposite_sub y x), if_congr near_comm rfl rfl⟩

theorem row_swapped (golden current : List (String × String)) (f : String) :
    (row golden current f).Swapped (row current golden f) := by
  obtain ⟨hdelta, hstatus⟩ :=
    classify_swap f ((golden.lookup f).getD missing) ((current.lookup f).getD missing)
  exact ⟨rfl, rfl, rfl, hdelta, hstatus⟩

theorem sorted_flatten (h : flatten s all = .ok fields) : Fields.Sorted fields := by
  rw [flatten, bind_eq_ok] at h
  obtain ⟨keys, -, h⟩ := h
  have hkeys : Fields.Sorted (Fields.insertAll keys []) := Fields.sorted_nil.insertAll keys
  cases all with
  | false =>
    obtain rfl := pure_eq_ok.mp h
    exact hkeys
  | true =>
    obtain ⟨rows, -, h⟩ := bind_eq_ok.mp h
    obtain rfl := pure_eq_ok.mp h
    exact hkeys.insertAll rows.flatten

theorem otherFields_comm (hg : Fields.Sorted golden) (hc : Fields.Sorted current) :
    otherFields golden current = otherFields current golden := by
  rw [otherFields, hg.names_insertAll_comm hc, otherFields]

/-! Comparisons -/

theorem map_status_eq {rows rows' : List DriftRow} (h : List.Forall₂ DriftRow.Swapped rows rows') :
    rows'.map (·.status) = rows.map (·.status) := by
  induction h with
  | nil => rfl
  | cons hrow _ ih => rw [List.map_cons, List.map_cons, hrow.status, ih]

/-- Alerts and counts are read off the statuses of the rows. -/
theorem swapped_of_rows {d d' : Drift} (h : List.Forall₂ DriftRow.Swapped d.rows d'.rows) :
    d.Swapped d' := by
  have hstatus := map_status_eq h
  refine ⟨h, ?_, fun status => ?_⟩
  · have halerts (d : Drift) : d.hasAlerts = (d.rows.map (·.status)).any (· = .alert) := by
      rw [hasAlerts, List.any_map]
      rfl
    rw [halerts, halerts, hstatus]
  · have hcount (d : Drift) : d.count status = (d.rows.map (·.status)).countP (· = status) := by
      rw [count, List.countP_map, List.countP_eq_length_filter]
      rfl
    rw [hcount, hcount, hstatus]

theorem between_eq_ok_iff : between g c all = .ok d ↔ g.version = c.version ∧
    ∃ golden current, flatten g all = .ok golden ∧ flatten c all = .ok current ∧
      d = ⟨g.scenario, (keyFields ++ if all then otherFields golden current else []).map
        (row golden current)⟩ := by
  rw [between]
  by_cases hv : g.version = c.version
  · rw [if_neg (not_not.mpr hv)]
    simp only [bind_eq_ok, mapError_eq_ok, pure_eq_ok, hv, true_and]
    constructor
    · rintro ⟨golden, hg, current, hc, rfl⟩
      exact ⟨golden, current, hg, hc, rfl⟩
    · rintro ⟨golden, current, hg, hc, rfl⟩
      exact ⟨golden, hg, current, hc, rfl⟩
  · simp [hv]

theorem between_swapped (h : between g c all = .ok d) :
    ∃ d', between c g all = .ok d' ∧ d.Swapped d' := by
  obtain ⟨hv, golden, current, hg, hc, rfl⟩ := between_eq_ok_iff.mp h
  refine ⟨_, between_eq_ok_iff.mpr ⟨hv.symm, current, golden, hc, hg, rfl⟩, swapped_of_rows ?_⟩
  rw [otherFields_comm (sorted_flatten hc) (sorted_flatten hg), List.forall₂_map_left_iff,
    List.forall₂_map_right_iff, List.forall₂_same]
  exact fun f _ => row_swapped golden current f

/-- Comparing any two snapshots the one way and the other either fails both times, or gives the same
fields in the same order with the same statuses, the sides swapped and the differences negated; and
then neither the alerts nor the counts depend on the order. -/
theorem between_swap (g c : Snapshot) (all : Bool) :
    (∃ d d', between g c all = .ok d ∧ between c g all = .ok d' ∧ d.Swapped d') ∨
      ∃ e e', between g c all = .error e ∧ between c g all = .error e' := by
  cases h : between g c all with
  | ok d =>
    obtain ⟨d', hd', hswapped⟩ := between_swapped h
    exact .inl ⟨d, d', rfl, hd', hswapped⟩
  | error e =>
    cases h' : between c g all with
    | ok d' =>
      obtain ⟨d, hd, -⟩ := between_swapped h'
      rw [h] at hd
      cases hd
    | error e' => exact .inr ⟨e, e', rfl, rfl⟩

end Drift
end BucketOverflow
