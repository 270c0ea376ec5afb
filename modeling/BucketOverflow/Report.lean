import BucketOverflow.Sweep.Json

/-!
The report of a sweep: its parameters, its peak and a row for each depth, as markdown and as JSON.
-/
namespace BucketOverflow
open Text

variable [MathLibrary]

/-- One depth; a probability of zero has no logarithm. -/
structure ReportRow where
  depth : Nat
  load : Binary64
  probability : Binary64
  log10 : Option Binary64
  regime : Regime

structure Report where
  title : String
  preset : String
  timestamp : String
  params : Params
  peak : Peak
  fingerprint : String
  saturatedDepths : List Nat
  rows : List ReportRow

namespace Report

def ofSweep (title preset timestamp : String) (s : Sweep) : Report where
  title := title
  preset := preset
  timestamp := timestamp
  params := s.params
  peak := s.peak
  fingerprint := s.fingerprint
  saturatedDepths := s.saturatedDepths
  rows := s.rows.map fun r =>
    ⟨r.depth, r.load, r.probability,
      if Binary64.zero false < r.probability then some r.probability.log10 else none, r.regime⟩

def summary (r : Report) : String := r.peak.summary

/-- The parameters in the notation of the analysis. -/
def parameterText (p : Params) : List Char :=
  "Z=".toList ++ decimal p.capacity.toNat ++ ", x=".toList ++ decimal p.items.toNat
    ++ ", y=".toList ++ decimal p.paths.toNat ++ ", D=".toList ++ decimal p.maxDepth.toNat
    ++ ", ΔExp=".toList ++ decimal p.hopBudget.toNat

def depthsText : List Nat → List Char
  | [] => "none".toList
  | depths => [',', ' '].intercalate (depths.map decimal)

def rowText (r : ReportRow) : List Char :=
  "| ".toList ++ decimal r.depth
    ++ " | ".toList ++ r.load.signed [] (Binary64.scientificPlaces 6)
    ++ " | ".toList ++ r.probability.signed [] (Binary64.scientificPlaces 6)
    ++ " | ".toList ++ (match r.log10 with
      | some l => l.signed [] (Binary64.fixedPlaces 3)
      | none => "-inf".toList)
    ++ " | ".toList ++ r.regime.name.toList ++ " |".toList

/-- The lines of the markdown text. -/
def lines (r : Report) : List (List Char) :=
  [ "# ".toList ++ r.title.toList,
    [],
    "- Preset: ".toList ++ r.preset.toList,
    "- Timestamp: ".toList ++ r.timestamp.toList,
    "- Parameters: ".toList ++ parameterText r.params,
    "- Tail policy: ".toList ++ r.params.tailPolicy.name.toList,
    "- ".toList ++ r.summary.toList,
    "- Saturated depths: ".toList ++ depthsText r.saturatedDepths,
    "- Fingerprint: `".toList ++ r.fingerprint.toList ++ "`".toList,
    [],
    "| Depth | E[d] | P[d] | log10 P | Regime |".toList,
    "|------:|-----:|-----:|--------:|--------|".toList ] ++ r.rows.map rowText

def markdown (r : Report) : String := String.ofList (r.lines.flatMap (· ++ ['\n']))

def rowJson (r : ReportRow) : Json :=
  .obj [("depth", .ofNat r.depth), ("expected_load", .ofBinary64 r.load),
    ("probability", .ofBinary64 r.probability),
    ("log10_probability", (r.log10.map .ofBinary64).getD .null),
    ("regime", .str r.regime.name)]

def toJson (r : Report) : Json :=
  .obj [("title", .str r.title), ("preset", .str r.preset), ("timestamp", .str r.timestamp),
    ("params", r.params.toJson), ("peak", r.peak.toJson), ("fingerprint", .str r.fingerprint),
    ("saturated_depths", .arr (r.saturatedDepths.map .ofNat)),
    ("rows", .arr (r.rows.map rowJson))]

def jsonText (r : Report) : String := r.toJson.toPretty

end Report

open Json in
/-- A peak inside a larger text. -/
def Peak.schema : Schema (Option Nat × Option Binary64 × Option Binary64) Peak where
  kind := "struct PeakRisk"
  slots := [
    ⟨"depth", (·.1.isSome), fun d cs => do
      let (n, r) ← natural32 cs; return ((some n, d.2), r)⟩,
    ⟨"probability", (·.2.1.isSome), fun d cs => do
      let (x, r) ← binary64 cs; return ((d.1, some x, d.2.2), r)⟩,
    ⟨"expected_load", (·.2.2.isSome), fun d cs => do
      let (x, r) ← binary64 cs; return ((d.1, d.2.1, some x), r)⟩]
  empty := (none, none, none)
  short := tooShort "struct PeakRisk" 3
  finish := fun d => do
    let depth ← required "depth" d.1
    let probability ← required "probability" d.2.1
    let load ← required "expected_load" d.2.2
    return ⟨depth, probability, load⟩

namespace ReportRow

/-- A row of which any part may be missing. -/
structure Draft where
  depth : Option Nat
  load : Option Binary64
  probability : Option Binary64
  log10 : Option (Option Binary64)
  regime : Option Regime

open Json in
/-- A row inside a larger text; the logarithm may be left out. -/
def schema : Schema Draft ReportRow where
  kind := "struct ReportRow"
  slots := [
    ⟨"depth", (·.depth.isSome), fun d cs => do
      let (n, r) ← natural32 cs; return ({ d with depth := some n }, r)⟩,
    ⟨"expected_load", (·.load.isSome), fun d cs => do
      let (x, r) ← binary64 cs; return ({ d with load := some x }, r)⟩,
    ⟨"probability", (·.probability.isSome), fun d cs => do
      let (x, r) ← binary64 cs; return ({ d with probability := some x }, r)⟩,
    ⟨"log10_probability", (·.log10.isSome), fun d cs => do
      let (x, r) ← optional binary64 cs; return ({ d with log10 := some x }, r)⟩,
    ⟨"regime", (·.regime.isSome), fun d cs => do
      let (x, r) ← variant Regime.known cs; return ({ d with regime := some x }, r)⟩]
  empty := ⟨none, none, none, none, none⟩
  short := tooShort "struct ReportRow" 5
  finish := fun d => do
    let depth ← required "depth" d.depth
    let load ← required "expected_load" d.load
    let probability ← required "probability" d.probability
    let regime ← required "regime" d.regime
    return ⟨depth, load, probability, d.log10.join, regime⟩

end ReportRow

namespace Report

/-- A report of which any part may be missing. -/
structure Draft where
  title : Option String
  preset : Option String
  timestamp : Option String
  params : Option Params
  peak : Option Peak
  fingerprint : Option String
  saturatedDepths : Option (List Nat)
  rows : Option (List ReportRow)

open Json in
def schema : Schema Draft Report where
  kind := "struct RiskReport"
  slots := [
    ⟨"title", (·.title.isSome), fun d cs => do
      let (x, r) ← text cs; return ({ d with title := some x }, r)⟩,
    ⟨"preset", (·.preset.isSome), fun d cs => do
      let (x, r) ← text cs; return ({ d with preset := some x }, r)⟩,
    ⟨"timestamp", (·.timestamp.isSome), fun d cs => do
      let (x, r) ← text cs; return ({ d with timestamp := some x }, r)⟩,
    ⟨"params", (·.params.isSome), fun d cs => do
      let (x, r) ← record Params.schema cs; return ({ d with params := some x }, r)⟩,
    ⟨"peak", (·.peak.isSome), fun d cs => do
      let (x, r) ← record Peak.schema cs; return ({ d with peak := some x }, r)⟩,
    ⟨"fingerprint", (·.fingerprint.isSome), fun d cs => do
      let (x, r) ← text cs; return ({ d with fingerprint := some x }, r)⟩,
    ⟨"saturated_depths", (·.saturatedDepths.isSome), fun d cs => do
      let (x, r) ← list natural32 cs; return ({ d with saturatedDepths := some x }, r)⟩,
    ⟨"rows", (·.rows.isSome), fun d cs => do
      let (x, r) ← list (record ReportRow.schema) cs; return ({ d with rows := some x }, r)⟩]
  empty := ⟨none, none, none, none, none, none, none, none⟩
  short := tooShort "struct RiskReport" 8
  finish := fun d => do
    let title ← required "title" d.title
    let preset ← required "preset" d.preset
    let timestamp ← required "timestamp" d.timestamp
    let params ← required "params" d.params
    let peak ← required "peak" d.peak
    let fingerprint ← required "fingerprint" d.fingerprint
    let saturatedDepths ← required "saturated_depths" d.saturatedDepths
    let rows ← required "rows" d.rows
    return ⟨title, preset, timestamp, params, peak, fingerprint, saturatedDepths, rows⟩

/-- The report that a JSON text holds. -/
def ofText (text : String) : Except Json.Error Report := Json.readText (Json.record schema) text

end Report
end BucketOverflow
