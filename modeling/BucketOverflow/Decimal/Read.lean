import BucketOverflow.Binary64.Rounding
import BucketOverflow.Text.Digits

/-!
Reading decimal numbers as binary64 values, rounded once. A number is a sign, then the name of an
infinity or NaN, or digits around an optional point with an optional exponent.
-/
namespace BucketOverflow.Binary64
open Text

/-- The value `m * 10 ^ e` to nearest; four hundred digits off the point it is infinite or zero. -/
def ofDecimal (neg : Bool) (m : Nat) (e : Int) : Binary64 :=
  let top : Int := e + (decimal m).length
  if m = 0 || top < -400 then zero neg
  else if 400 < top then inf neg
  else ofMag neg (nearest ((m * Nat.pow 10 e.toNat) <<< unitExp) (Nat.pow 10 (-e).toNat) 0)

/-- A sign in front of a number, and the rest. -/
def readSign : List Char → Bool × List Char
  | '-' :: cs => (true, cs)
  | '+' :: cs => (false, cs)
  | cs => (false, cs)

/-- An exponent with its mark, or nothing at all. -/
def readExponent? : List Char → Option Int
  | [] => some 0
  | c :: cs =>
    let (neg, ds) := readSign cs
    if (c == 'e' || c == 'E') && !ds.isEmpty && ds.all isDigit then
      let n : Int := ofDigits 10 ds
      some (if neg then -n else n)
    else none

/-- Digits with an optional point, at least one of them, and an exponent. -/
def readFinite? (neg : Bool) (cs : List Char) : Option Binary64 :=
  let whole := cs.takeWhile isDigit
  let rest := cs.dropWhile isDigit
  let (frac, rest) := match rest with
    | '.' :: r => (r.takeWhile isDigit, r.dropWhile isDigit)
    | r => ([], r)
  if whole.isEmpty && frac.isEmpty then none
  else (readExponent? rest).map fun e =>
    ofDecimal neg (ofDigits 10 (whole ++ frac)) (e - frac.length)

/-- The value of a written number, `none` when the text is not one. -/
def ofText? (cs : List Char) : Option Binary64 :=
  let (neg, body) := readSign cs
  let name := String.ofList (body.map Char.toLower)
  if name = "inf" || name = "infinity" then some (inf neg)
  else if name = "nan" then some nan
  else readFinite? neg body

end BucketOverflow.Binary64
