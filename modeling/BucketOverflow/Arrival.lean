import BucketOverflow.Binary64.Elementary

/-!
The probability that an item arrives in a bucket of one depth, its sum over hop counts, and the
expected load of the bucket.
-/
namespace BucketOverflow
open Binary64

variable [MathLibrary]

/-- What every arrival term of one depth shares: the share `2 ^ -d` of the tree below a bucket and
the logarithms of what half of it and all of it leave. -/
structure Level where
  share : Binary64
  lnHalf : Binary64
  lnAll : Binary64

namespace Level

def ofDepth (depth : Nat) : Level := ⟨twoPowNeg depth, lnKeep (depth + 1), lnKeep depth⟩

/-- The share times the chance that all trials miss the bucket but not its half. -/
def arrival (l : Level) (trials : Binary64) : Binary64 :=
  l.share * max (exp (trials * l.lnHalf) - exp (trials * l.lnAll)) (zero false)

end Level

/-- The probability of arrival at a depth within a number of hops, over sampled paths. -/
def arrivalProbability (depth hops paths : Nat) : Binary64 :=
  (Level.ofDepth depth).arrival (ofNat hops * ofNat paths)

/-- The arrival probabilities of one hop up to the budget, added in order to a negative zero. -/
def arrivalMass (hopBudget depth paths : Nat) : Binary64 :=
  let level := Level.ofDepth depth
  let paths := ofNat paths
  (List.range' 1 hopBudget).foldl (fun mass hops => mass + level.arrival (ofNat hops * paths))
    (zero true)

/-- The expected number of items in a bucket. -/
def expectedLoad (hopBudget depth items paths : Nat) : Binary64 :=
  ofNat items * arrivalMass hopBudget depth paths

end BucketOverflow
