import BucketOverflow.Proofs.Drift.Same
import BucketOverflow.Proofs.Params.Json
import BucketOverflow.Snapshot.Reader

/-! The text of a snapshot reads back. What is read agrees with what was written in everything but
the decimals, which are read inexactly. -/
namespace BucketOverflow
open Json Binary64

/-- The peak that is read from the text of a peak. -/
def SnapshotPeak.reread (k : SnapshotPeak) : SnapshotPeak :=
  { k with probability := Json.reread k.probability }

/-- A peak whose depth has 32 bits and whose decimal is moderate. -/
theorem SnapshotPeak.reads {k : SnapshotPeak} (hd : k.depth < 0x100000000)
    (hp : Moderate k.probability) :
    Reads (record SnapshotPeak.schema)
      (.obj [("depth", .ofNat k.depth), ("probability", .ofBinary64 k.probability),
        ("probability_bits", .str k.probabilityBits)]) k.reread := by
  refine reads_record (x := ⟨some k.depth, some (Json.reread k.probability),
    some k.probabilityBits⟩) ?_ rfl
  refine .cons (readsMember_slot rfl rfl (reads_natural32 hd) fun _ _ => bind_of_ok) ?_
  refine .cons (readsMember_slot rfl rfl (reads_binary64 hp) fun _ _ => bind_of_ok) ?_
  refine .cons (readsMember_slot rfl rfl (reads_text k.probabilityBits) fun _ _ => bind_of_ok) ?_
  exact .nil _

/-- The row that is read from the text of a row. -/
def SnapshotRow.reread (r : SnapshotRow) : SnapshotRow :=
  { r with load := Json.reread r.load, probability := Json.reread r.probability }

/-- A row whose depth has 32 bits and whose decimals are moderate. -/
structure SnapshotRow.Writable (r : SnapshotRow) : Prop where
  depth_lt : r.depth < 0x100000000
  load : Moderate r.load
  probability : Moderate r.probability

theorem SnapshotRow.reads {r : SnapshotRow} (h : r.Writable) :
    Reads (record SnapshotRow.schema) (Snapshot.rowJson r) r.reread := by
  refine reads_record (x := ⟨some r.depth, some (Json.reread r.load), some r.loadBits,
    some (Json.reread r.probability), some r.probabilityBits, some r.regime⟩) ?_ rfl
  refine .cons (readsMember_slot rfl rfl (reads_natural32 h.depth_lt) fun _ _ => bind_of_ok) ?_
  refine .cons (readsMember_slot rfl rfl (reads_binary64 h.load) fun _ _ => bind_of_ok) ?_
  refine .cons (readsMember_slot rfl rfl (reads_text r.loadBits) fun _ _ => bind_of_ok) ?_
  refine .cons (readsMember_slot rfl rfl (reads_binary64 h.probability) fun _ _ => bind_of_ok) ?_
  refine .cons (readsMember_slot rfl rfl (reads_text r.probabilityBits) fun _ _ => bind_of_ok) ?_
  exact .cons (readsMember_slot rfl rfl (reads_text r.regime) fun _ _ => bind_of_ok) (.nil _)

theorem reads_rows {rows : List SnapshotRow} (h : ∀ r ∈ rows, r.Writable) :
    Reads (list (record SnapshotRow.schema)) (.arr (rows.map Snapshot.rowJson))
      (rows.map (·.reread)) := by
  apply reads_list_map
  exact fun r hr => SnapshotRow.reads (h r hr)

theorem reads_depths {depths : List ℕ} (h : ∀ d ∈ depths, d < 0x100000000) :
    Reads (list natural32) (.arr (depths.map .ofNat)) depths := by
  have hreads := reads_list_map (g := id) fun d hd => reads_natural32 (h d hd)
  rwa [List.map_id] at hreads

namespace Snapshot

/-- A snapshot whose depths have 32 bits and whose decimals are moderate. -/
structure Writable (s : Snapshot) : Prop where
  peakDepth_lt : s.peak.depth < 0x100000000
  peakProbability : Moderate s.peak.probability
  saturatedDepths_lt : ∀ d ∈ s.saturatedDepths, d < 0x100000000
  rows : ∀ r ∈ s.rows, r.Writable

theorem reads_scenario (s : Snapshot) : Reads (record scenarioSchema)
    (.obj [("id", .str s.scenario), ("params", s.params.toJson)]) (s.scenario, s.params) := by
  refine reads_record (x := (some s.scenario, some s.params)) ?_ rfl
  refine .cons (readsMember_slot rfl rfl (reads_text s.scenario) fun _ _ => bind_of_ok) ?_
  exact .cons (readsMember_slot rfl rfl s.params.reads fun _ _ => bind_of_ok) (.nil _)

/-- The snapshot that is read from the text of a snapshot. -/
def reread (s : Snapshot) : Snapshot :=
  { s with peak := s.peak.reread, rows := s.rows.map (·.reread) }

theorem bare_reread (s : Snapshot) : s.reread.bare = s.bare := by
  simp only [bare, reread, List.map_map]
  rfl

/-- A written snapshot reads back, each decimal as the reader takes it. -/
theorem ofText_toText_eq {s : Snapshot} (h : s.Writable) : ofText s.toText = .ok s.reread := by
  have hpeak := SnapshotPeak.reads h.peakDepth_lt h.peakProbability
  have hdepths := reads_depths h.saturatedDepths_lt
  have hrows := reads_rows h.rows
  refine Reads.toPretty (reads_record (x := ⟨some s.version, some (s.scenario, s.params),
    some s.fingerprint, some s.peak.reread, some s.saturatedDepths,
    some (s.rows.map (·.reread))⟩) ?_ rfl)
  refine .cons (readsMember_slot rfl rfl (reads_text s.version) fun _ _ => bind_of_ok) ?_
  refine .cons (readsMember_slot rfl rfl (reads_scenario s) fun _ _ => bind_of_ok) ?_
  refine .cons (readsMember_slot rfl rfl (reads_text s.fingerprint) fun _ _ => bind_of_ok) ?_
  refine .cons (readsMember_slot rfl rfl hpeak fun _ _ => bind_of_ok) ?_
  refine .cons (readsMember_slot rfl rfl hdepths fun _ _ => bind_of_ok) ?_
  exact .cons (readsMember_slot rfl rfl hrows fun _ _ => bind_of_ok) (.nil _)

/-- A written snapshot reads back but for its decimals. -/
theorem ofText_toText {s : Snapshot} (h : s.Writable) :
    ∃ t, ofText s.toText = .ok t ∧ t.bare = s.bare :=
  ⟨s.reread, ofText_toText_eq h, bare_reread s⟩

end Snapshot
end BucketOverflow
