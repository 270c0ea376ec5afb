/-!
Binary64 words. A word is a sign and a magnitude; a finite magnitude is a whole number of units
of `2 ^ -1074`, written as a significand shifted left. Magnitudes are ordered as their values are.
-/
namespace BucketOverflow

/-- A binary64 word. Words are equal when all 64 bits are, so NaN payloads are told apart. -/
structure Binary64 where
  bits : UInt64
deriving DecidableEq, Inhabited

namespace Binary64

/-- The bit above every magnitude. -/
def signBit : UInt64 := 0x8000000000000000

/-- The least significand of a normal number, `2 ^ 52`. -/
def hiddenBit : Nat := 0x10000000000000

/-- The magnitude of an infinity; larger ones are NaNs. -/
def infinite : Nat := 0x7ff0000000000000

def isNeg (x : Binary64) : Bool := signBit ≤ x.bits

def mag (x : Binary64) : Nat := (x.bits % signBit).toNat

def ofMag (neg : Bool) (mag : Nat) : Binary64 :=
  ⟨(if neg then signBit else 0) + UInt64.ofNat mag⟩

def isNaN (x : Binary64) : Bool := infinite < x.mag
def isInf (x : Binary64) : Bool := x.mag == infinite
def isFinite (x : Binary64) : Bool := x.mag < infinite
def isZero (x : Binary64) : Bool := x.mag == 0

def nan : Binary64 := ⟨0x7ff8000000000000⟩
def inf (neg : Bool) : Binary64 := ofMag neg infinite
def zero (neg : Bool) : Binary64 := ofMag neg 0
def one : Binary64 := ⟨0x3ff0000000000000⟩

/-- How far the significand of a magnitude is shifted above one unit. -/
def shiftOf (mag : Nat) : Nat := mag / hiddenBit - 1

/-- A finite magnitude is worth `significand <<< shiftOf` units. -/
def significand (mag : Nat) : Nat := mag - shiftOf mag * hiddenBit

/-- The worth of a finite magnitude in units of `2 ^ -1074`. -/
def units (mag : Nat) : Nat := significand mag <<< shiftOf mag

def scale (x : Binary64) : Nat := shiftOf x.mag
def signif (x : Binary64) : Nat := significand x.mag

/-- Orders every word that is not NaN; both zeros have key zero. -/
def key (x : Binary64) : Int := if x.isNeg then -x.mag else x.mag

def le (x y : Binary64) : Bool := !x.isNaN && !y.isNaN && decide (x.key ≤ y.key)
def lt (x y : Binary64) : Bool := !x.isNaN && !y.isNaN && decide (x.key < y.key)

instance : LE Binary64 := ⟨fun x y => x.le y⟩
instance : LT Binary64 := ⟨fun x y => x.lt y⟩
instance (x y : Binary64) : Decidable (x ≤ y) := inferInstanceAs (Decidable (x.le y = true))
instance (x y : Binary64) : Decidable (x < y) := inferInstanceAs (Decidable (x.lt y = true))

/-- Equality of values: the zeros agree and a NaN agrees with nothing. -/
def eqv (x y : Binary64) : Bool := x.le y && y.le x

/-- The greater value; a NaN gives way to the other operand. -/
def max (x y : Binary64) : Binary64 :=
  if x.isNaN then y else if y.isNaN then x else if x < y then y else x

/-- The lesser value; a NaN gives way to the other operand. -/
def min (x y : Binary64) : Binary64 :=
  if x.isNaN then y else if y.isNaN then x else if y < x then y else x

/-- The same word with its sign bit set as given. -/
def withSign (neg : Bool) (x : Binary64) : Binary64 := ofMag neg x.mag

def neg (x : Binary64) : Binary64 := x.withSign (!x.isNeg)
def abs (x : Binary64) : Binary64 := x.withSign false

instance : Neg Binary64 := ⟨neg⟩

end Binary64
end BucketOverflow
