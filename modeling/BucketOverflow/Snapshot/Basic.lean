import BucketOverflow.Snapshot.Bits
import BucketOverflow.Sweep.Json

/-!
Snapshots of sweeps for later comparison. A snapshot holds no time, one row for each depth in
order, and next to every value its exact bits.
-/
namespace BucketOverflow

variable [MathLibrary]

structure SnapshotPeak where
  depth : Nat
  probability : Binary64
  probabilityBits : String

structure SnapshotRow where
  depth : Nat
  load : Binary64
  loadBits : String
  probability : Binary64
  probabilityBits : String
  regime : String

structure Snapshot where
  version : String
  scenario : String
  params : Params
  fingerprint : String
  peak : SnapshotPeak
  saturatedDepths : List Nat
  rows : List SnapshotRow

namespace Snapshot

def currentVersion : String := "v1"
def sweepScenario : String := "depth_sweep"

def ofSweep (s : Sweep) : Snapshot where
  version := currentVersion
  scenario := sweepScenario
  params := s.params
  fingerprint := s.fingerprint
  peak := ⟨s.peak.depth, s.peak.probability, s.peak.probability.bitsText⟩
  saturatedDepths := s.saturatedDepths
  rows := s.rows.map fun r =>
    ⟨r.depth, r.load, r.load.bitsText, r.probability, r.probability.bitsText, r.regime.name⟩

/-- Sweeps validated parameters and takes the snapshot. -/
def take (p : Params) : Except ParamFault Snapshot := (Sweep.run p).map ofSweep

/-- Equality with values compared as numbers. -/
def eqv (s t : Snapshot) : Bool :=
  s.version = t.version && s.scenario = t.scenario && s.params = t.params
    && s.fingerprint = t.fingerprint
    && (s.peak.depth = t.peak.depth && s.peak.probability.eqv t.peak.probability
      && s.peak.probabilityBits = t.peak.probabilityBits)
    && s.saturatedDepths = t.saturatedDepths
    && s.rows.length = t.rows.length
    && (s.rows.zip t.rows).all fun (a, b) =>
      a.depth = b.depth && a.load.eqv b.load && a.loadBits = b.loadBits
        && a.probability.eqv b.probability && a.probabilityBits = b.probabilityBits
        && a.regime = b.regime

def rowJson (r : SnapshotRow) : Json :=
  .obj [("depth", .ofNat r.depth), ("expected_load", .ofBinary64 r.load),
    ("expected_load_bits", .str r.loadBits), ("probability", .ofBinary64 r.probability),
    ("probability_bits", .str r.probabilityBits), ("regime", .str r.regime)]

def toJson (s : Snapshot) : Json :=
  .obj [("version", .str s.version),
    ("scenario", .obj [("id", .str s.scenario), ("params", s.params.toJson)]),
    ("fingerprint", .str s.fingerprint),
    ("peak", .obj [("depth", .ofNat s.peak.depth),
      ("probability", .ofBinary64 s.peak.probability),
      ("probability_bits", .str s.peak.probabilityBits)]),
    ("saturated_depths", .arr (s.saturatedDepths.map .ofNat)),
    ("rows", .arr (s.rows.map rowJson))]

def toText (s : Snapshot) : String := s.toJson.toPretty

end Snapshot
end BucketOverflow
