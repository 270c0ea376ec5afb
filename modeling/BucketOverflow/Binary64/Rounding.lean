import BucketOverflow.Binary64.Basic

/-!
Rounding and arithmetic. Each operation forms its exact result as a ratio of natural numbers of
units and rounds it once, to nearest with ties to even.
-/
namespace BucketOverflow.Binary64

/-- The integer nearest to `num / den`; a tie goes to the even one. -/
def halfEven (num den : Nat) : Nat :=
  let q := num / den
  let r := 2 * (num % den)
  if r < den then q else if den < r then q + 1 else q + q % 2

/--
The magnitude nearest to `num * 2 ^ shift / den` units. A quotient with `b + 53` bits keeps its
top 53, and adding the rounded significand to `b * 2 ^ 52` carries into the next binade by itself.
For `num < den` the shift has to be zero.
-/
def nearest (num den shift : Nat) : Nat :=
  if num = 0 then 0
  else
    let drop := (num / den).log2 + shift - 52
    Nat.min infinite
      (drop * hiddenBit + halfEven (num <<< (shift - drop)) (den <<< (drop - shift)))

/-- The magnitude nearest to `m * 2 ^ up / 2 ^ down` units. -/
def nearestDyadic (m up down : Nat) : Nat := nearest m (1 <<< (down - up)) (up - down)

/-- A unit is `2 ^ -unitExp`. -/
def unitExp : Nat := 1074

def ofNat (n : Nat) : Binary64 := ofMag false (nearest n 1 unitExp)

instance (n : Nat) : OfNat Binary64 n := ⟨ofNat n⟩

/-- The signed significand over units shifted left by `s`, for `s` at most the scale. -/
def signedAt (s : Nat) (x : Binary64) : Int :=
  let m : Int := (x.signif <<< (x.scale - s) : Nat)
  if x.isNeg then -m else m

def add (x y : Binary64) : Binary64 :=
  if x.isNaN || y.isNaN then nan
  else if x.isInf then (if y.isInf && x.isNeg != y.isNeg then nan else x)
  else if y.isInf then y
  else
    let s := Nat.min x.scale y.scale
    let total := x.signedAt s + y.signedAt s
    if total = 0 then zero (x.isNeg && y.isNeg)
    else ofMag (decide (total < 0)) (nearest total.natAbs 1 s)

def sub (x y : Binary64) : Binary64 := add x (-y)

def mul (x y : Binary64) : Binary64 :=
  let neg := x.isNeg != y.isNeg
  if x.isNaN || y.isNaN then nan
  else if x.isInf || y.isInf then (if x.isZero || y.isZero then nan else inf neg)
  else ofMag neg (nearestDyadic (x.signif * y.signif) (x.scale + y.scale) unitExp)

def div (x y : Binary64) : Binary64 :=
  let neg := x.isNeg != y.isNeg
  if x.isNaN || y.isNaN then nan
  else if x.isInf then (if y.isInf then nan else inf neg)
  else if y.isInf then zero neg
  else if y.isZero then (if x.isZero then nan else inf neg)
  else ofMag neg (nearest (x.signif <<< (x.scale + unitExp)) (y.signif <<< y.scale) 0)

instance : Add Binary64 := ⟨add⟩
instance : Sub Binary64 := ⟨sub⟩
instance : Mul Binary64 := ⟨mul⟩
instance : Div Binary64 := ⟨div⟩

/-- The whole part of a finite magnitude. -/
def wholePart (mag : Nat) : Nat := units mag >>> unitExp

/-- A finite value's whole part, and one more when `bump` says so and a fraction is lost. -/
def toWhole (bump : Bool) (x : Binary64) : Binary64 :=
  if x.isFinite then
    let k := wholePart x.mag
    let k := if bump && k <<< unitExp != units x.mag then k + 1 else k
    ofMag x.isNeg (nearest k 1 unitExp)
  else x

/-- The greatest integer below; a zero keeps the sign of the argument. -/
def floor (x : Binary64) : Binary64 := x.toWhole x.isNeg

/-- The least integer above; a zero keeps the sign of the argument. -/
def ceil (x : Binary64) : Binary64 := x.toWhole (!x.isNeg)

/-- The nearest natural number, halves going up, held within 64 bits; a NaN gives zero. -/
def roundToNat (x : Binary64) : Nat :=
  let top := 0xffffffffffffffff
  if x.isNaN || x.isNeg then 0
  else if x.isInf then top
  else Nat.min top ((2 * units x.mag + 1 <<< unitExp) >>> (unitExp + 1))

end BucketOverflow.Binary64
