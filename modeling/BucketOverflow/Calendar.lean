import BucketOverflow.Text.Digits

/-!
Points in time and their text, `YYYY-MM-DDTHH:MM:SS.mmmZ`, in the proleptic Gregorian calendar.
-/
namespace BucketOverflow
open Text

/-- A point in time at or after the epoch. -/
structure Timestamp where
  secs : Nat
  millis : Nat
deriving DecidableEq

structure Date where
  year : Nat
  month : Nat
  day : Nat
deriving DecidableEq

namespace Timestamp

/-- A clock reading in seconds and nanoseconds; readings before the epoch count as the epoch. -/
def ofClock (secs : Int) (nanos : Nat) : Timestamp :=
  if secs < 0 then ⟨0, 0⟩ else ⟨secs.toNat, nanos / 1000000⟩

end Timestamp

namespace Date

/-- The date so many days after 1970-01-01. Years are counted from March, so that a leap day is the
last of its year, in eras of 400 years with 146097 days. -/
def ofDays (days : Nat) : Date :=
  let z := days + 719468
  let era := z / 146097
  let ofEra := z % 146097
  let yearOfEra := (ofEra - ofEra / 1460 + ofEra / 36524 - ofEra / 146096) / 365
  let ofYear := ofEra - (365 * yearOfEra + yearOfEra / 4 - yearOfEra / 100)
  let marchMonth := (5 * ofYear + 2) / 153
  let day := ofYear - (153 * marchMonth + 2) / 5 + 1
  let month := if marchMonth < 10 then marchMonth + 3 else marchMonth - 9
  ⟨yearOfEra + era * 400 + if month ≤ 2 then 1 else 0, month, day⟩

def text (d : Date) : List Char :=
  decimalPad 4 d.year ++ '-' :: decimalPad 2 d.month ++ '-' :: decimalPad 2 d.day

end Date

namespace Timestamp

def text (t : Timestamp) : String :=
  let rest := t.secs % 86400
  String.ofList ((Date.ofDays (t.secs / 86400)).text
    ++ 'T' :: decimalPad 2 (rest / 3600)
    ++ ':' :: decimalPad 2 (rest % 3600 / 60)
    ++ ':' :: decimalPad 2 (rest % 60)
    ++ '.' :: decimalPad 3 t.millis ++ ['Z'])

end Timestamp

/-- A clock by its readings, in the order in which they are taken. -/
structure Clock where
  reading : Nat → Timestamp

namespace Clock

/-- The clock after a number of readings. -/
def later (c : Clock) (taken : Nat) : Clock := ⟨fun i => c.reading (taken + i)⟩

/-- A point in time stands for a clock that does not move. -/
instance : Coe Timestamp Clock := ⟨fun t => ⟨fun _ => t⟩⟩

end Clock
end BucketOverflow
