import BucketOverflow.Snapshot.Basic

/-!
Reading snapshots from their JSON text.
-/
namespace BucketOverflow
open Json

namespace SnapshotPeak

structure Draft where
  depth : Option Nat
  probability : Option Binary64
  probabilityBits : Option String

def schema : Schema Draft SnapshotPeak where
  kind := "struct PeakSnapshotV1"
  slots := [
    ⟨"depth", (·.depth.isSome), fun d cs => do
      let (x, r) ← natural32 cs; return ({ d with depth := some x }, r)⟩,
    ⟨"probability", (·.probability.isSome), fun d cs => do
      let (x, r) ← binary64 cs; return ({ d with probability := some x }, r)⟩,
    ⟨"probability_bits", (·.probabilityBits.isSome), fun d cs => do
      let (x, r) ← text cs; return ({ d with probabilityBits := some x }, r)⟩]
  empty := ⟨none, none, none⟩
  short := tooShort "struct PeakSnapshotV1" 3
  finish := fun d => do
    let depth ← required "depth" d.depth
    let probability ← required "probability" d.probability
    let probabilityBits ← required "probability_bits" d.probabilityBits
    return ⟨depth, probability, probabilityBits⟩

end SnapshotPeak

namespace SnapshotRow

structure Draft where
  depth : Option Nat
  load : Option Binary64
  loadBits : Option String
  probability : Option Binary64
  probabilityBits : Option String
  regime : Option String

def schema : Schema Draft SnapshotRow where
  kind := "struct DepthSnapshotV1"
  slots := [
    ⟨"depth", (·.depth.isSome), fun d cs => do
      let (x, r) ← natural32 cs; return ({ d with depth := some x }, r)⟩,
    ⟨"expected_load", (·.load.isSome), fun d cs => do
      let (x, r) ← binary64 cs; return ({ d with load := some x }, r)⟩,
    ⟨"expected_load_bits", (·.loadBits.isSome), fun d cs => do
      let (x, r) ← text cs; return ({ d with loadBits := some x }, r)⟩,
    ⟨"probability", (·.probability.isSome), fun d cs => do
      let (x, r) ← binary64 cs; return ({ d with probability := some x }, r)⟩,
    ⟨"probability_bits", (·.probabilityBits.isSome), fun d cs => do
      let (x, r) ← text cs; return ({ d with probabilityBits := some x }, r)⟩,
    ⟨"regime", (·.regime.isSome), fun d cs => do
      let (x, r) ← text cs; return ({ d with regime := some x }, r)⟩]
  empty := ⟨none, none, none, none, none, none⟩
  short := tooShort "struct DepthSnapshotV1" 6
  finish := fun d => do
    let depth ← required "depth" d.depth
    let load ← required "expected_load" d.load
    let loadBits ← required "expected_load_bits" d.loadBits
    let probability ← required "probability" d.probability
    let probabilityBits ← required "probability_bits" d.probabilityBits
    let regime ← required "regime" d.regime
    return ⟨depth, load, loadBits, probability, probabilityBits, regime⟩

end SnapshotRow

namespace Snapshot

/-- The name of a scenario and its parameters. -/
def scenarioSchema : Schema (Option String × Option Params) (String × Params) where
  kind := "struct SweepScenarioV1"
  slots := [
    ⟨"id", (·.1.isSome), fun d cs => do
      let (x, r) ← text cs; return ((some x, d.2), r)⟩,
    ⟨"params", (·.2.isSome), fun d cs => do
      let (x, r) ← record Params.schema cs; return ((d.1, some x), r)⟩]
  empty := (none, none)
  short := tooShort "struct SweepScenarioV1" 2
  finish := fun d => do
    let id ← required "id" d.1
    let params ← required "params" d.2
    return (id, params)

structure Draft where
  version : Option String
  scenario : Option (String × Params)
  fingerprint : Option String
  peak : Option SnapshotPeak
  saturatedDepths : Option (List Nat)
  rows : Option (List SnapshotRow)

def schema : Schema Draft Snapshot where
  kind := "struct SweepSnapshotFixtureV1"
  slots := [
    ⟨"version", (·.version.isSome), fun d cs => do
      let (x, r) ← text cs; return ({ d with version := some x }, r)⟩,
    ⟨"scenario", (·.scenario.isSome), fun d cs => do
      let (x, r) ← record scenarioSchema cs; return ({ d with scenario := some x }, r)⟩,
    ⟨"fingerprint", (·.fingerprint.isSome), fun d cs => do
      let (x, r) ← text cs; return ({ d with fingerprint := some x }, r)⟩,
    ⟨"peak", (·.peak.isSome), fun d cs => do
      let (x, r) ← record SnapshotPeak.schema cs; return ({ d with peak := some x }, r)⟩,
    ⟨"saturated_depths", (·.saturatedDepths.isSome), fun d cs => do
      let (x, r) ← list natural32 cs; return ({ d with saturatedDepths := some x }, r)⟩,
    ⟨"rows", (·.rows.isSome), fun d cs => do
      let (x, r) ← list (record SnapshotRow.schema) cs; return ({ d with rows := some x }, r)⟩]
  empty := ⟨none, none, none, none, none, none⟩
  short := tooShort "struct SweepSnapshotFixtureV1" 6
  finish := fun d => do
    let version ← required "version" d.version
    let scenario ← required "scenario" d.scenario
    let fingerprint ← required "fingerprint" d.fingerprint
    let peak ← required "peak" d.peak
    let saturatedDepths ← required "saturated_depths" d.saturatedDepths
    let rows ← required "rows" d.rows
    return ⟨version, scenario.1, scenario.2, fingerprint, peak, saturatedDepths, rows⟩

/-- The snapshot that a JSON text holds. -/
def ofText (s : String) : Except Json.Error Snapshot := Json.readText (Json.record schema) s

end Snapshot
end BucketOverflow
