import BucketOverflow.Binary64.Rounding

/-!
Powers of one half, which are exact, and the functions that a mathematics library gives. How such a
library rounds is its own affair, so the library is a parameter of everything that calls it.
-/
namespace BucketOverflow

/-- The functions of a mathematics library. -/
class MathLibrary where
  exp : Binary64 → Binary64
  log10 : Binary64 → Binary64
  /-- The logarithm of one more than `-2 ^ -j`, of what one of `2 ^ j` parts leaves. -/
  lnKeep : Nat → Binary64

namespace Binary64

/-- The power `2 ^ -d`, down through the subnormals to zero. -/
def twoPowNeg (d : Nat) : Binary64 :=
  if unitExp < d then zero false else ofMag false (nearestDyadic 1 (unitExp - d) 0)

variable [MathLibrary]

def exp (x : Binary64) : Binary64 := MathLibrary.exp x
def log10 (x : Binary64) : Binary64 := MathLibrary.log10 x
def lnKeep (j : Nat) : Binary64 := MathLibrary.lnKeep j

end Binary64
end BucketOverflow
