import BucketOverflow.Decimal.Digits

/-!
Written forms of binary64 values: scientific with the fewest or with a fixed number of digits, and
positional with fixed places. Every form keeps the sign of a negative zero.
-/
namespace BucketOverflow

open Text

def signedDecimal (n : Int) : List Char :=
  (if n < 0 then ['-'] else []) ++ decimal n.natAbs

namespace Decimal

/-- The first digit, and the others behind a point. -/
def pointed : List Char → List Char
  | c :: d :: cs => c :: '.' :: d :: cs
  | cs => cs

/-- The form `d.ddde-n`, without a sign on other exponents. -/
def scientific (d : Decimal) : List Char :=
  pointed (decimal d.digits) ++ 'e' :: signedDecimal d.leadingExp

end Decimal

namespace Binary64

/-- A word by sign and class, with `body` for finite magnitudes; a NaN has no sign. -/
def signed (plus : List Char) (body : Nat → List Char) (x : Binary64) : List Char :=
  if x.isNaN then "NaN".toList
  else (if x.isNeg then ['-'] else plus) ++ if x.isInf then "inf".toList else body x.mag

/-- The fewest digits that read back, an even choice going up: `1e0`, `2.5e-3`, `-0e0`. -/
def scientific (x : Binary64) : List Char :=
  x.signed [] fun mag => (if mag = 0 then ⟨0, 0⟩ else Decimal.shortest .up mag).scientific

/-- One digit, `places` more behind the point, and the exponent, after rounding half to even. -/
def scientificPlaces (places : Nat) (mag : Nat) : List Char :=
  if mag = 0 then Decimal.pointed (List.replicate (places + 1) '0') ++ "e0".toList
  else (Decimal.rounded places mag).scientific

/-- As many digits behind the point as `places`, after rounding half to even. -/
def fixedPlaces (places : Nat) (mag : Nat) : List Char :=
  let cs := decimalPad (places + 1) (Decimal.multiples mag (-places))
  cs.take (cs.length - places) ++ '.' :: cs.drop (cs.length - places)

end Binary64
end BucketOverflow
