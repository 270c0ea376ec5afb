import BucketOverflow.Binary64.Rounding
import BucketOverflow.Text.Digits

/-!
Decimal digits of binary64 magnitudes. `shortest` finds the fewest digits that read back as the
magnitude and among those the nearest; `rounded` keeps a given number of them.
-/
namespace BucketOverflow

/-- The value `digits * 10 ^ exp`. -/
structure Decimal where
  digits : Nat
  exp : Int
deriving DecidableEq

/-- Which of two equally near decimals is taken. -/
inductive DecimalTie where
  | up
  | even
deriving DecidableEq

namespace Decimal
open Binary64

/-- How many digits are written. -/
def width (d : Decimal) : Nat := (Text.decimal d.digits).length

/-- The exponent of the first written digit. -/
def leadingExp (d : Decimal) : Int := d.exp + d.width - 1

/-- The exponent of the leading decimal digit of a positive finite magnitude. -/
def leading (mag : Nat) : Int :=
  let u := units mag
  let bits : Int := (u.log2 : Int) - unitExp
  let low := bits * 78913 / 0x40000
  if Nat.pow 10 (low + 1).toNat <<< unitExp ≤ u * Nat.pow 10 (-(low + 1)).toNat then low + 1
  else low

/--
The multiple of `10 ^ g` nearest to a magnitude, among those that round to it. The reals that round
to a magnitude reach half a gap to both sides, and the gap below a least significand is halved;
the ends belong to magnitudes with an even significand.
-/
def onGrid (tie : DecimalTie) (mag : Nat) (g : Int) : Option Nat :=
  let m := significand mag
  let s := shiftOf mag
  let unit := Nat.pow 10 (-g).toNat <<< s
  let step := Nat.pow 10 g.toNat <<< (unitExp + 2)
  let value := 4 * m * unit
  let low := (4 * m - if m = hiddenBit && s != 0 then 1 else 2) * unit
  let high := (4 * m + 2) * unit
  let inside (k : Nat) : Bool :=
    if m % 2 = 0 then low ≤ k * step && k * step ≤ high else low < k * step && k * step < high
  let d := value / step
  let below := value - d * step
  let above := (d + 1) * step - value
  if inside d then
    if inside (d + 1) && (above < below || above == below && (tie == .up || d % 2 == 1)) then
      some (d + 1)
    else some d
  else if inside (d + 1) then some (d + 1)
  else none

/-- The first grid with a hit, of those with `n` more digits at most. -/
def firstOnGrid (tie : DecimalTie) (mag : Nat) : (n : Nat) → (g : Int) → Decimal
  | 0, g => ⟨(onGrid tie mag g).getD 0, g⟩
  | n + 1, g =>
    match onGrid tie mag g with
    | some d => ⟨d, g⟩
    | none => firstOnGrid tie mag n (g - 1)

/-- Moves up to `n` trailing zeros into the exponent. -/
def trim : (n : Nat) → Decimal → Decimal
  | 0, d => d
  | n + 1, d => if d.digits % 10 = 0 then trim n ⟨d.digits / 10, d.exp + 1⟩ else d

/-- The shortest decimal that reads back as a positive finite magnitude, of at most 17 digits. -/
def shortest (tie : DecimalTie) (mag : Nat) : Decimal :=
  trim 17 (firstOnGrid tie mag 16 (leading mag))

/-- A magnitude rounded half to even to a multiple of `10 ^ g`, as the number of multiples. -/
def multiples (mag : Nat) (g : Int) : Nat :=
  halfEven (units mag * Nat.pow 10 (-g).toNat) (Nat.pow 10 g.toNat <<< unitExp)

/-- A positive finite magnitude rounded half to even to `places + 1` digits. -/
def rounded (places mag : Nat) : Decimal :=
  let g := leading mag - places
  let d := multiples mag g
  if Nat.pow 10 (places + 1) ≤ d then ⟨d / 10, g + 1⟩ else ⟨d, g⟩

end Decimal
end BucketOverflow
