import BucketOverflow.Binary64.Elementary
import BucketOverflow.Params.Basic

/-!
The bound on the probability that a bucket overflows: `exp (-(Z - E) ^ 2 / (Z + E))` for capacity
`Z` and expected load `E` below it.
-/
namespace BucketOverflow
open Binary64

variable [MathLibrary]

/-- Where an expected load lies: nowhere, below the capacity, or at least at it. -/
inductive Regime where
  | zeroLoad
  | bounded
  | saturated
deriving DecidableEq

namespace Regime

def name : Regime → String
  | .zeroLoad => "zero_load"
  | .bounded => "bounded"
  | .saturated => "saturated"

def known : List (String × Regime) :=
  [("zero_load", .zeroLoad), ("bounded", .bounded), ("saturated", .saturated)]

end Regime

structure Estimate where
  probability : Binary64
  regime : Regime
deriving DecidableEq

/-- The exponent `(Z - E) ^ 2 / (Z + E)`, which stays finite where the relative gap would not. -/
def chernoffExponent (capacity load : Binary64) : Binary64 :=
  let gap := capacity - load
  gap * gap / (capacity + load)

/-- The bound, or one where a policy clamps saturated loads. -/
def overflowProbability (capacity : Nat) (load : Binary64) (policy : TailPolicy) : Estimate :=
  let capacity := ofNat capacity
  if load ≤ zero false then ⟨zero false, .zeroLoad⟩
  else if capacity ≤ load then
    ⟨if policy.clamps then one else exp (-(chernoffExponent capacity load)), .saturated⟩
  else ⟨exp (-(chernoffExponent capacity load)), .bounded⟩

end BucketOverflow
