import BucketOverflow.Arrival
import BucketOverflow.Decimal.Layout
import BucketOverflow.Digest
import BucketOverflow.Overflow

/-!
A sweep evaluates every depth of a grid. Its rows, its peak, its saturated depths and the
fingerprint of its exact values are read off the sequences that it produced.
-/
namespace BucketOverflow

variable [MathLibrary]

/-- The parameters and, by depth, the expected loads, probabilities and regimes. -/
structure Sweep where
  params : Params
  loads : List Binary64
  probabilities : List Binary64
  regimes : List Regime

/-- One depth of a sweep. -/
structure SweepRow where
  depth : Nat
  load : Binary64
  probability : Binary64
  regime : Regime

/-- The depth of the highest probability. -/
structure Peak where
  depth : Nat
  probability : Binary64
  load : Binary64

/-- Goes on with the best entry so far; only a value that is at most the best leaves it in place. -/
def argmaxFrom (best : Option (Nat × Binary64)) (i : Nat) : List Binary64 → Option (Nat × Binary64)
  | [] => best
  | v :: vs =>
    match best with
    | some (j, top) => argmaxFrom (if v ≤ top then some (j, top) else some (i, v)) (i + 1) vs
    | none => argmaxFrom (some (i, v)) (i + 1) vs

/-- The place and value of the maximum, the first of equals. -/
def argmaxFirst (values : List Binary64) : Option (Nat × Binary64) := argmaxFrom none 0 values

namespace Sweep

/-- Evaluates every depth of validated parameters. -/
def run (p : Params) : Except ParamFault Sweep := do
  p.validate
  let loads := p.depths.map fun depth =>
    expectedLoad p.hopBudget.toNat depth p.items.toNat p.paths.toNat
  let estimates := loads.map fun load => overflowProbability p.capacity.toNat load p.tailPolicy
  return ⟨p, loads, estimates.map (·.probability), estimates.map (·.regime)⟩

/-- One sweep for each hop budget, in the order given. -/
def compare (p : Params) (hopBudgets : List UInt32) : Except ParamFault (List Sweep) :=
  if hopBudgets.isEmpty then .error .emptyHopBudgets
  else hopBudgets.mapM fun budget => run (p.withHopBudget budget)

/-- The number of depths. -/
def size (s : Sweep) : Nat := s.probabilities.length

def peak (s : Sweep) : Peak :=
  let (depth, probability) := (argmaxFirst s.probabilities).getD (0, .zero false)
  ⟨depth, probability, s.loads.getD depth (.zero false)⟩

/-- The rows in the order of depth, as far as all sequences reach. -/
def rows (s : Sweep) : List SweepRow :=
  ((s.loads.zip s.probabilities).zip s.regimes).mapIdx fun depth r => ⟨depth, r.1.1, r.1.2, r.2⟩

/-- The depths whose expected load reaches the capacity. -/
def saturatedDepths (s : Sweep) : List Nat :=
  (s.rows.filter fun r => r.regime = .saturated).map (·.depth)

/-- The lowest `width` bytes of a number, the lowest first. -/
def littleEndian (width n : Nat) : List UInt8 :=
  (List.range width).map fun i => UInt8.ofNat (n >>> (8 * i))

def fingerprintDomain : String := "bucketrisk/depth-sweep/v1"

/-- The bytes that the fingerprint is taken of: a domain, the parameters, and every value's bits. -/
def fingerprintBytes (s : Sweep) : List UInt8 :=
  let p := s.params
  fingerprintDomain.toUTF8.toList
    ++ littleEndian 8 p.capacity.toNat ++ littleEndian 8 p.items.toNat
    ++ littleEndian 8 p.paths.toNat ++ littleEndian 4 p.maxDepth.toNat
    ++ littleEndian 4 p.hopBudget.toNat ++ p.tailPolicy.name.toUTF8.toList
    ++ (s.loads ++ s.probabilities).flatMap fun v => littleEndian 8 v.bits.toNat

/-- The SHA-256 of the exact results. -/
def fingerprint (s : Sweep) : String := String.ofList (hexLower (sha256 s.fingerprintBytes))

end Sweep

/-- The peak in words. -/
def Peak.summary (p : Peak) : String :=
  "Maximum Probability: " ++ String.ofList p.probability.scientific
    ++ " at Depth: " ++ String.ofList (Text.decimal p.depth)

end BucketOverflow
