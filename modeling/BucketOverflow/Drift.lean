import BucketOverflow.Decimal.Read
import BucketOverflow.Snapshot.Basic

/-!
The differences between two snapshots, field by field. Numbers that differ by rounding noise are
changed; other differences are alerts.
-/
namespace BucketOverflow
open Text Binary64

inductive DriftStatus where
  | same
  | changed
  | alert
deriving DecidableEq

structure DriftRow where
  field : String
  golden : String
  current : String
  delta : Option Binary64
  status : DriftStatus

structure Drift where
  scenario : String
  rows : List DriftRow

/-- Why two snapshots cannot be compared. -/
inductive DriftFault where
  | versions (golden current : String)
  | bits (fault : BitsFault)

def DriftFault.message : DriftFault → String
  | .versions golden current =>
    "fixture version mismatch: golden=" ++ golden ++ " current=" ++ current
  | .bits fault => fault.message

namespace Drift

/-- Relative changes up to this size are noise: `1e-12`. -/
def tolerance : Binary64 := ofDecimal false 1 (-12)

def missing : String := "<missing>"

/-- The fields that are always compared, in order. -/
def keyFields : List String :=
  ["params.capacity", "params.items", "params.paths", "params.max_depth", "params.hop_budget",
    "params.tail_policy", "fingerprint", "peak.depth", "peak.probability", "saturated_count"]

def natText (n : Nat) : String := String.ofList (decimal n)

/-- The value of a bit pattern, in scientific form. -/
def bitsValue (raw : String) : Except BitsFault String :=
  (ofBitsText raw).map fun x => String.ofList x.scientific

/-- The name of a field of one depth; four digits keep names in the order of depth. -/
def depthField (depth : Nat) (name : String) : String :=
  String.ofList ("depth.".toList ++ decimalPad 4 depth ++ '.' :: name.toList)

def rowTexts (r : SnapshotRow) : Except BitsFault (List (String × String)) := do
  let load ← bitsValue r.loadBits
  let probability ← bitsValue r.probabilityBits
  return [(depthField r.depth "expected_load", load),
    (depthField r.depth "probability", probability), (depthField r.depth "regime", r.regime)]

/-- The values of the key fields, in order. -/
def keyTexts (s : Snapshot) : Except BitsFault (List (String × String)) := do
  let p := s.params
  let probability ← bitsValue s.peak.probabilityBits
  return keyFields.zip [natText p.capacity.toNat, natText p.items.toNat, natText p.paths.toNat,
    natText p.maxDepth.toNat, natText p.hopBudget.toNat, p.tailPolicy.name, s.fingerprint,
    natText s.peak.depth, probability, natText s.saturatedDepths.length]

/-- All fields of a snapshot as texts, sorted by name; of two rows for one depth the last counts. -/
def flatten (s : Snapshot) (all : Bool) : Except BitsFault (List (String × String)) := do
  let keys ← keyTexts s
  let rows ← if all then s.rows.mapM rowTexts else pure []
  return Fields.insertAll rows.flatten (Fields.insertAll keys [])

/-- How two texts of one field differ. -/
def classify (field golden current : String) : Option Binary64 × DriftStatus :=
  if golden = current then (none, .same)
  else if field = "fingerprint" then (none, .changed)
  else if "params.".toList.isPrefixOf field.toList then (none, .alert)
  else
    match ofText? golden.toList, ofText? current.toList with
    | some g, some c =>
      let delta := c - g
      let scale := Binary64.max g.abs c.abs
      if zero false < scale ∧ delta.abs / scale ≤ tolerance then (some delta, .changed)
      else (some delta, .alert)
    | _, _ => (none, .alert)

def row (golden current : List (String × String)) (field : String) : DriftRow :=
  let g := (golden.lookup field).getD missing
  let c := (current.lookup field).getD missing
  let (delta, status) := classify field g c
  ⟨field, g, c, delta, status⟩

/-- The names of the other fields of either side, sorted. -/
def otherFields (golden current : List (String × String)) : List String :=
  (Fields.insertAll current golden).map (·.1) |>.filter fun f => !keyFields.contains f

/-- The differences between snapshots of one version; with `all`, also by depth. -/
def between (golden current : Snapshot) (all : Bool) : Except DriftFault Drift := do
  if golden.version ≠ current.version then
    .error (.versions golden.version current.version)
  else
    let g ← (flatten golden all).mapError .bits
    let c ← (flatten current all).mapError .bits
    let fields := keyFields ++ if all then otherFields g c else []
    return ⟨golden.scenario, fields.map (row g c)⟩

def hasAlerts (d : Drift) : Bool := d.rows.any fun r => r.status = .alert

def count (d : Drift) (status : DriftStatus) : Nat :=
  (d.rows.filter fun r => r.status = status).length

def fieldWidth : Nat := 28
def valueWidth : Nat := 24
def deltaWidth : Nat := 14
def statusWidth : Nat := 8

/-- A text cut to a width, with three dots for what is left out. -/
def truncate (width : Nat) (cs : List Char) : List Char :=
  if cs.length ≤ width then cs
  else if width ≤ 3 then cs.take width
  else cs.take (width - 3) ++ ['.', '.', '.']

def column (width : Nat) (cs : List Char) : List Char := padRight width ' ' (truncate width cs)

def statusText : DriftStatus → List Char
  | .same => "OK".toList
  | .changed => "CHG".toList
  | .alert => "ALERT".toList

def deltaText (d : Option Binary64) : List Char :=
  (d.map fun x => x.signed ['+'] (scientificPlaces 3)).getD []

def line (field golden current delta status : List Char) : List Char :=
  column fieldWidth field ++ ' ' :: column valueWidth golden ++ ' ' :: column valueWidth current
    ++ ' ' :: column deltaWidth delta ++ ' ' :: status

def rowLine (r : DriftRow) : List Char :=
  line r.field.toList r.golden.toList r.current.toList (deltaText r.delta) (statusText r.status)

/-- The table as lines. -/
def lines (d : Drift) : List (List Char) :=
  [ "depth sweep snapshot diff (scenario=".toList ++ d.scenario.toList ++ [')'],
    line "field".toList "golden".toList "current".toList "delta".toList
      (column statusWidth "status".toList),
    List.replicate (fieldWidth + valueWidth + valueWidth + deltaWidth + statusWidth + 4) '-' ]
    ++ d.rows.map rowLine
    ++ ["same=".toList ++ decimal (d.count .same)
      ++ " changed=".toList ++ decimal (d.count .changed)
      ++ " alert=".toList ++ decimal (d.count .alert)]

def plain (d : Drift) : String := String.ofList (d.lines.flatMap (· ++ ['\n']))

end Drift
end BucketOverflow
