import BucketOverflow.Binary64.Elementary

/-!
A mathematics library to run with. Natural logarithms and exponentials are fixed-point sums carried
far beyond the 53 bits of a result and rounded once; the decimal logarithm takes the steps, each
rounded, that are common on the platforms.
-/
namespace BucketOverflow.Binary64.Platform

/-- Fixed-point numbers carry this many bits after the point. -/
def fracBits : Nat := 192

def fixedOne : Nat := 1 <<< fracBits

/-- The sum of `t * w ^ i / (2 * i + 1)` over the next `n` indices from `i`, in fixed point. -/
def oddSeries (w : Nat) : (n i t : Nat) → Nat
  | 0, _, _ => 0
  | n + 1, i, t => t / (2 * i + 1) + oddSeries w n (i + 1) ((t * w) >>> fracBits)

/-- Twice the inverse hyperbolic tangent of `a / b`, for `3 * a ≤ b`, in fixed point. -/
def twiceArtanh (a b : Nat) : Nat :=
  let z := (a <<< fracBits) / b
  2 * oddSeries ((z * z) >>> fracBits) 64 0 z

/-- The logarithm of two, from `2 = (1 + 1/3) / (1 - 1/3)`. -/
def ln2 : Nat := twiceArtanh 1 3

/-- The nested sum `1 + r / k * (1 + r / (k + 1) * …)` to `n` factors, in fixed point. -/
def expSeries (r : Nat) : (n k : Nat) → Nat
  | 0, _ => fixedOne
  | n + 1, k => fixedOne + ((r * expSeries r n (k + 1)) >>> fracBits) / k

/-- A finite value in fixed point, toward zero. -/
def toFixed (x : Binary64) : Int :=
  let lift := x.scale + fracBits
  let m : Int := (x.signif <<< (lift - unitExp) >>> (unitExp - lift) : Nat)
  if x.isNeg then -m else m

/-- Arguments of at least this magnitude, `2 ^ 11`, overflow or vanish. -/
def expLimit : Binary64 := ⟨0x40a0000000000000⟩

/-- The exponential: `2 ^ k * exp r` with `r` below the logarithm of two. -/
def exp (x : Binary64) : Binary64 :=
  if x.isNaN then nan
  else if expLimit ≤ x.abs then (if x.isNeg then zero false else inf false)
  else
    let k := toFixed x / ln2
    let r := toFixed x % ln2
    let lift := unitExp + k
    let down := fracBits + (-lift).toNat
    ofMag false (nearestDyadic (expSeries r.toNat 40 1) lift.toNat down)

/--
The sum of `2 ^ (128 - j * (i - 1)) / i` over indices `i` from one, as far as its terms stay above
the first by a factor of `2 ^ -100`.
-/
def keepSeries (j : Nat) : Nat :=
  (List.range (100 / j + 1)).foldl (fun sum i => sum + (1 <<< (128 - j * i)) / (i + 1)) 0

/-- The logarithm of `1 - 2 ^ -j`. A part too small for a word leaves everything. -/
def lnKeep (j : Nat) : Binary64 :=
  if j = 0 then inf true
  else if unitExp < j then zero true
  else ofMag true (nearestDyadic (keepSeries j) unitExp (128 + j))

/-- The natural logarithm of a positive finite magnitude, in fixed point. -/
def lnFixed (mag : Nat) : Int :=
  let m := significand mag
  let low := m.log2
  let b := if 2 * (1 <<< (2 * low)) < m * m then low + 1 else low
  let base := 1 <<< b
  let whole : Int := ((shiftOf mag + b : Nat) : Int) - unitExp
  whole * ln2 + if base ≤ m then (twiceArtanh (m - base) (m + base) : Int)
    else -(twiceArtanh (base - m) (base + m) : Int)

/-- The natural logarithm of a positive finite magnitude. -/
def ln (mag : Nat) : Binary64 :=
  let l := lnFixed mag
  ofMag (decide (l < 0)) (nearestDyadic l.natAbs unitExp fracBits)

/-- The exponent of the highest bit of a positive finite magnitude. -/
def exponent (mag : Nat) : Int := ((shiftOf mag + (significand mag).log2 : Nat) : Int) - unitExp

/-- A positive finite magnitude scaled by a power of two, into the binade from one on or, when its
exponent is negative, into the one before. -/
def fraction (mag : Nat) : Nat :=
  (if exponent mag < 0 then 1021 else 1022) * hiddenBit
    + significand mag <<< (52 - (significand mag).log2)

def ofInt (n : Int) : Binary64 := ofMag (decide (n < 0)) (nearest n.natAbs 1 unitExp)

/-- What is left of the decimal logarithm of two behind its high part. -/
def log10TwoLow : Binary64 := ⟨0x3d59fef311f12b36⟩

/-- The decimal logarithm of two to so few places that its product with an exponent is exact. -/
def log10TwoHigh : Binary64 := ⟨0x3fd34413509f6000⟩

/-- The decimal logarithm of the base of the natural ones. -/
def log10E : Binary64 := ⟨0x3fdbcb7b1526e50e⟩

/-- The decimal logarithm of `2 ^ k` times what has natural logarithm `l`. -/
def log10Parts (k : Int) (l : Binary64) : Binary64 :=
  ofInt k * log10TwoLow + log10E * l + ofInt k * log10TwoHigh

/-- The decimal logarithm of a positive finite magnitude. -/
def log10Mag (mag : Nat) : Binary64 :=
  let k := exponent mag
  log10Parts (if k < 0 then k + 1 else k) (ln (fraction mag))

/-- The decimal logarithm. -/
def log10 (x : Binary64) : Binary64 :=
  if x.isNaN then nan
  else if x.isZero then inf true
  else if x.isNeg then nan
  else if x.isInf then x
  else log10Mag x.mag

instance library : MathLibrary where
  exp := exp
  log10 := log10
  lnKeep := lnKeep

end BucketOverflow.Binary64.Platform
