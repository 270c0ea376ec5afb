import BucketOverflow.Calendar
import Mathlib.Tactic

/-! The calendar behind time stamps. A day is told by a year that begins in March, a month of it and
the days before it in that month. The day after it is the calendar's next date, so that the dates of
days are those of the Gregorian calendar from 1970-01-01 on, and signed words of 64 bits hold every
result on the way to them. -/
namespace BucketOverflow
open Text

namespace Date

variable {n z y m d e k : ℕ}

/-! The calendar -/

def isLeap (year : ℕ) : Bool := year % 4 == 0 && (year % 100 != 0 || year % 400 == 0)

def monthLength (year month : ℕ) : ℕ :=
  if month = 2 then (if isLeap year then 29 else 28)
  else if month = 4 ∨ month = 6 ∨ month = 9 ∨ month = 11 then 30 else 31

/-- A date of the calendar. -/
structure OnCalendar (d : Date) : Prop where
  one_le_month : 1 ≤ d.month
  month_le : d.month ≤ 12
  one_le_day : 1 ≤ d.day
  day_le : d.day ≤ monthLength d.year d.month

/-- The date of the day after. -/
def next (d : Date) : Date :=
  if d.day < monthLength d.year d.month then ⟨d.year, d.month, d.day + 1⟩
  else if d.month < 12 then ⟨d.year, d.month + 1, 1⟩
  else ⟨d.year + 1, 1, 1⟩

theorem isLeap_iff (year : ℕ) : isLeap year ↔ 4 ∣ year ∧ (¬100 ∣ year ∨ 400 ∣ year) := by
  simp [isLeap, Nat.dvd_iff_mod_eq_zero]

/-! Years that begin in March -/

def yearLength (year : ℕ) : ℕ := if isLeap year then 366 else 365

/-- The days before a year that begins in March, counted from the March of year 0. -/
def marchStart (y : ℕ) : ℕ := 365 * y + y / 4 - y / 100 + y / 400

/-- The leap day of a year is the last of the year that began in the March before. -/
theorem marchStart_succ (y : ℕ) : marchStart (y + 1) = marchStart y + yearLength (y + 1) := by
  have h4 := Nat.succ_div (a := y) (b := 4)
  have h100 := Nat.succ_div (a := y) (b := 100)
  have h400 := Nat.succ_div (a := y) (b := 400)
  unfold marchStart yearLength
  simp only [isLeap_iff]
  split_ifs at * <;> omega

theorem yearLength_le (y : ℕ) : yearLength y ≤ 366 := by
  unfold yearLength
  split_ifs <;> decide

theorem marchStart_strictMono : StrictMono marchStart := by
  apply strictMono_nat_of_lt_succ
  intro y
  rw [marchStart_succ]
  unfold yearLength
  split_ifs <;> omega

/-- The calendar comes round again after an era. -/
theorem marchStart_add_eras (e y : ℕ) : marchStart (y + e * 400) = marchStart y + 146097 * e := by
  unfold marchStart
  omega

/-- The days of an era without those that exceed 365 a year. -/
def commonDays (e : ℕ) : ℕ := e - e / 1460 + e / 36524 - e / 146096

def yearOfEra (e : ℕ) : ℕ := commonDays e / 365

theorem commonDays_mono : Monotone commonDays := by
  apply monotone_nat_of_le_succ
  intro e
  have hquad : (e + 1) / 1460 ≤ e / 1460 + 1 := by omega
  have hera : (e + 1) / 146096 + e / 36524 ≤ (e + 1) / 36524 + e / 146096 := by omega
  have hle : e / 1460 + e / 146096 ≤ e := by omega
  unfold commonDays
  omega

/-- At both ends of each year of an era the days kept are those of the years before. -/
theorem commonDays_marchStart : ∀ y < 400, 365 * y ≤ commonDays (marchStart y) ∧
    commonDays (marchStart (y + 1) - 1) < 365 * (y + 1) := by
  decide +kernel

theorem yearOfEra_spec (he : e < 146097) :
    yearOfEra e < 400 ∧ marchStart (yearOfEra e) ≤ e ∧ e < marchStart (yearOfEra e + 1) := by
  have hlast : commonDays 146096 < 365 * 400 := by decide
  have hlow : 365 * yearOfEra e ≤ commonDays e := Nat.mul_div_le _ _
  have hhigh : commonDays e < 365 * (yearOfEra e + 1) := Nat.lt_mul_div_succ _ (by decide)
  have hera : yearOfEra e < 400 := by
    have := commonDays_mono (show e ≤ 146096 by omega)
    omega
  refine ⟨hera, ?_, ?_⟩
  · by_contra hlt
    cases hy : yearOfEra e with
    | zero => simp [hy, marchStart] at hlt
    | succ y =>
      rw [hy] at hlt
      have hbefore := (commonDays_marchStart y (by omega)).2
      have := commonDays_mono (show e ≤ marchStart (y + 1) - 1 by omega)
      omega
  · by_contra hge
    rcases Nat.lt_or_ge (yearOfEra e + 1) 400 with hnext | hend
    · have hafter := (commonDays_marchStart _ hnext).1
      have := commonDays_mono (not_lt.mp hge)
      omega
    · have hwhole : marchStart 400 = 146097 := by decide
      have := marchStart_strictMono.monotone hend
      omega

/-- The year of a day, both counted from March of year 0. -/
def marchYear (z : ℕ) : ℕ := yearOfEra (z % 146097) + z / 146097 * 400

theorem marchYear_spec (z : ℕ) :
    marchStart (marchYear z) ≤ z ∧ z < marchStart (marchYear z + 1) := by
  obtain ⟨-, hlow, hhigh⟩ := yearOfEra_spec (Nat.mod_lt z (show 0 < 146097 by decide))
  rw [marchYear, marchStart_add_eras, Nat.add_right_comm, marchStart_add_eras]
  omega

theorem marchYear_eq (hlow : marchStart y ≤ z) (hhigh : z < marchStart (y + 1)) :
    marchYear z = y := by
  obtain ⟨hl, hh⟩ := marchYear_spec z
  have hle : marchYear z < y + 1 := marchStart_strictMono.lt_iff_lt.mp (hl.trans_lt hhigh)
  have hge : y < marchYear z + 1 := marchStart_strictMono.lt_iff_lt.mp (hlow.trans_lt hh)
  omega

/-! Months of such a year -/

/-- The days of a year before a month. -/
def monthStart (m : ℕ) : ℕ := (153 * m + 2) / 5

/-- The number of a month from January on. -/
def monthOf (m : ℕ) : ℕ := if m < 10 then m + 3 else m - 9

/-- The date so many days after the start of a month. -/
def ofMarch (y m d : ℕ) : Date := ⟨y + if monthOf m ≤ 2 then 1 else 0, monthOf m, d + 1⟩

def marchLength (y m : ℕ) : ℕ := monthLength (ofMarch y m 0).year (monthOf m)

theorem marchLength_pos (y m : ℕ) : 0 < marchLength y m := by
  unfold marchLength monthLength
  split_ifs <;> decide

theorem marchMonth_eq (hlow : monthStart m ≤ k) (hhigh : k < monthStart (m + 1)) :
    (5 * k + 2) / 153 = m := by
  unfold monthStart at *
  omega

theorem monthStart_add_length (hm : m < 11) (y : ℕ) :
    monthStart m + marchLength y m = monthStart (m + 1) := by
  interval_cases m <;> rfl

/-- The last month ends with the year. -/
theorem monthStart_add_length_last (y : ℕ) :
    monthStart 11 + marchLength y 11 = yearLength (y + 1) := by
  change 337 + (if isLeap (y + 1) then 29 else 28) = if isLeap (y + 1) then 366 else 365
  split_ifs <;> rfl

/-! Days told by year, month and day -/

/-- The day `z` lies `d` days into the month `m` of the year `y`, all counted from March. -/
structure Marks (z y m d : ℕ) : Prop where
  month_lt : m < 12
  day_lt : d < marchLength y m
  place : z = marchStart y + monthStart m + d

theorem exists_marks (z : ℕ) : ∃ y m d, Marks z y m d := by
  obtain ⟨hlow, hhigh⟩ := marchYear_spec z
  generalize marchYear z = y at *
  obtain ⟨k, rfl⟩ := Nat.exists_eq_add_of_le hlow
  have hlen := yearLength_le (y + 1)
  rw [marchStart_succ] at hhigh
  have hm : (5 * k + 2) / 153 < 12 := by omega
  have hstart : monthStart ((5 * k + 2) / 153) ≤ k ∧
      k < monthStart ((5 * k + 2) / 153 + 1) := by
    unfold monthStart
    omega
  generalize (5 * k + 2) / 153 = m at *
  refine ⟨y, m, k - monthStart m, hm, ?_, by omega⟩
  rcases Nat.lt_or_ge m 11 with hlt | hge
  · have := monthStart_add_length hlt y
    omega
  · obtain rfl : m = 11 := by omega
    have := monthStart_add_length_last y
    omega

theorem Marks.lt_monthStart (h : Marks z y m d) : monthStart m + d < monthStart (m + 1) := by
  obtain ⟨hm, hd, -⟩ := h
  rcases Nat.lt_or_ge m 11 with hlt | hge
  · have := monthStart_add_length hlt y
    omega
  · obtain rfl : m = 11 := by omega
    have hlast := monthStart_add_length_last y
    have hlen := yearLength_le (y + 1)
    have hend : 366 < monthStart (11 + 1) := by decide
    omega

theorem Marks.lt_marchStart (h : Marks z y m d) : z < marchStart (y + 1) := by
  obtain ⟨hm, hd, rfl⟩ := h
  have hlast := monthStart_add_length_last y
  rw [marchStart_succ]
  rcases Nat.lt_or_ge m 11 with hlt | hge
  · have := monthStart_add_length hlt y
    have : monthStart (m + 1) ≤ monthStart 11 := by
      unfold monthStart
      omega
    omega
  · obtain rfl : m = 11 := by omega
    omega

theorem Marks.onCalendar (h : Marks z y m d) : (ofMarch y m d).OnCalendar := by
  have hm := h.month_lt
  refine ⟨?_, ?_, Nat.le_add_left 1 d, h.day_lt⟩ <;> simp only [ofMarch, monthOf] <;>
    split_ifs <;> omega

/-- One day on, the marks are those of the next date. -/
theorem Marks.step (h : Marks z y m d) :
    ∃ y' m' d', Marks (z + 1) y' m' d' ∧ ofMarch y' m' d' = (ofMarch y m d).next := by
  obtain ⟨hm, hd, rfl⟩ := h
  have hday : (ofMarch y m d).day < monthLength (ofMarch y m d).year (ofMarch y m d).month ↔
      d + 1 < marchLength y m := Iff.rfl
  by_cases hin : d + 1 < marchLength y m
  · refine ⟨y, m, d + 1, ⟨hm, hin, rfl⟩, ?_⟩
    rw [next, if_pos (hday.mpr hin)]
    rfl
  rw [next, if_neg (hday.not.mpr hin)]
  rcases Nat.lt_or_ge m 11 with hlt | hge
  · have hlen := monthStart_add_length hlt y
    refine ⟨y, m + 1, 0, ⟨by omega, marchLength_pos _ _, by omega⟩, ?_⟩
    interval_cases m <;> rfl
  · obtain rfl : m = 11 := by omega
    have hlen := monthStart_add_length_last y
    refine ⟨y + 1, 0, 0, ⟨by decide, marchLength_pos _ _, ?_⟩, rfl⟩
    rw [marchStart_succ, show monthStart 0 = 0 from rfl]
    omega

theorem ofDays_eq (n : ℕ) : ofDays n =
    let z := n + 719468
    let k := z - marchStart (marchYear z)
    let m := (5 * k + 2) / 153
    ofMarch (marchYear z) m (k - monthStart m) := by
  obtain ⟨hera, hlow, -⟩ :=
    yearOfEra_spec (Nat.mod_lt (n + 719468) (show 0 < 146097 by decide))
  have hk : (n + 719468) % 146097 - (365 * yearOfEra ((n + 719468) % 146097) +
      yearOfEra ((n + 719468) % 146097) / 4 - yearOfEra ((n + 719468) % 146097) / 100) =
      n + 719468 - marchStart (marchYear (n + 719468)) := by
    rw [marchYear, marchStart_add_eras]
    unfold marchStart at *
    omega
  dsimp only
  rw [← hk]
  rfl

/-- The date of a day is read off its marks; the epoch is day 719468 of the count from March. -/
theorem ofDays_of_marks (h : Marks (n + 719468) y m d) : ofDays n = ofMarch y m d := by
  have hplace := h.place
  have hyear : marchYear (n + 719468) = y := marchYear_eq (by omega) h.lt_marchStart
  have hk : n + 719468 - marchStart y = monthStart m + d := by omega
  rw [ofDays_eq]
  simp only [hyear, hk, marchMonth_eq (Nat.le_add_right _ d) h.lt_monthStart,
    Nat.add_sub_cancel_left]

theorem ofDays_onCalendar (n : ℕ) : (ofDays n).OnCalendar := by
  obtain ⟨y, m, d, h⟩ := exists_marks (n + 719468)
  rw [ofDays_of_marks h]
  exact h.onCalendar

theorem ofDays_succ (n : ℕ) : ofDays (n + 1) = (ofDays n).next := by
  obtain ⟨y, m, d, h⟩ := exists_marks (n + 719468)
  obtain ⟨y', m', d', h', hnext⟩ := h.step
  rw [Nat.add_right_comm] at h'
  rw [ofDays_of_marks h', hnext, ofDays_of_marks h]

example : ofDays 11016 = ⟨2000, 2, 29⟩ := by decide

/-! Arithmetic in words -/

section Words

variable (hold : ℤ → Option ℤ)

def yearOfEraIn (e : ℤ) : Option ℤ := do
  let kept ← hold (e - e.tdiv 1460)
  let kept ← hold (kept + e.tdiv 36524)
  let kept ← hold (kept - e.tdiv 146096)
  return kept.tdiv 365

def ofYearIn (e y : ℤ) : Option ℤ := do
  let start ← hold (365 * y)
  let start ← hold (start + y.tdiv 4)
  let start ← hold (start - y.tdiv 100)
  hold (e - start)

def marchMonthIn (k : ℤ) : Option ℤ := do
  let fifths ← hold (5 * k)
  let fifths ← hold (fifths + 2)
  return fifths.tdiv 153

def dayIn (k m : ℤ) : Option ℤ := do
  let fifths ← hold (153 * m)
  let fifths ← hold (fifths + 2)
  let passed ← hold (k - fifths.tdiv 5)
  hold (passed + 1)

def monthIn (m : ℤ) : Option ℤ := if m < 10 then hold (m + 3) else hold (m - 9)

def yearIn (era y month : ℤ) : Option ℤ := do
  let before ← hold (era * 400)
  let year ← hold (y + before)
  hold (year + if month ≤ 2 then 1 else 0)

/-- Year, month and day of a date where `hold` gives a number if there is a word for it, and nothing
for any other result on the way. Eras are counted with the remainder of a division that is never
negative; every other division goes toward zero. -/
def ofDaysIn (days : ℤ) : Option (ℤ × ℤ × ℤ) := do
  let days ← hold days
  let z ← hold (days + 719468)
  let y ← yearOfEraIn hold (z % 146097)
  let k ← ofYearIn hold (z % 146097) y
  let m ← marchMonthIn hold k
  let day ← dayIn hold k m
  let month ← monthIn hold m
  let year ← yearIn hold (z / 146097) y month
  return (year, month, day)

variable {hold}

theorem ofDaysIn_of {days z y k m day month year : ℤ} (hdays : hold days = some days)
    (hz : hold (days + 719468) = some z) (hy : yearOfEraIn hold (z % 146097) = some y)
    (hk : ofYearIn hold (z % 146097) y = some k) (hm : marchMonthIn hold k = some m)
    (hday : dayIn hold k m = some day) (hmonth : monthIn hold m = some month)
    (hyear : yearIn hold (z / 146097) y month = some year) :
    ofDaysIn hold days = some (year, month, day) := by
  simp only [ofDaysIn, hdays, hz, hy, hk, hm, hday, hmonth, hyear, Option.bind_eq_bind,
    Option.bind_some, Option.pure_def]

variable (hh : ∀ i : ℤ, 0 ≤ i → i < 2 ^ 62 → hold i = some i)
include hh

theorem yearOfEraIn_eq (he : e < 146097) : yearOfEraIn hold e = some (yearOfEra e : ℤ) := by
  simp (disch := omega) only [yearOfEraIn, hh, Int.tdiv_eq_ediv_of_nonneg, Option.bind_eq_bind,
    Option.bind_some, Option.pure_def, yearOfEra, commonDays]
  congr 1
  omega

theorem ofYearIn_eq (he : e < 146097) (hy : y < 400) (hle : marchStart y ≤ e) :
    ofYearIn hold e y = some ((e - marchStart y : ℕ) : ℤ) := by
  unfold marchStart at *
  simp (disch := omega) only [ofYearIn, hh, Int.tdiv_eq_ediv_of_nonneg, Option.bind_eq_bind,
    Option.bind_some]
  congr 1
  omega

theorem marchMonthIn_eq (hk : k < 366) :
    marchMonthIn hold k = some (((5 * k + 2) / 153 : ℕ) : ℤ) := by
  simp (disch := omega) only [marchMonthIn, hh, Int.tdiv_eq_ediv_of_nonneg, Option.bind_eq_bind,
    Option.bind_some, Option.pure_def]
  rfl

theorem dayIn_eq (hk : k < 366) : dayIn hold k ((5 * k + 2) / 153 : ℕ) =
    some ((k - monthStart ((5 * k + 2) / 153) + 1 : ℕ) : ℤ) := by
  simp (disch := omega) only [dayIn, hh, Int.tdiv_eq_ediv_of_nonneg, Option.bind_eq_bind,
    Option.bind_some, monthStart]
  congr 1
  omega

theorem monthIn_eq (hm : m < 12) : monthIn hold m = some (monthOf m : ℤ) := by
  unfold monthIn monthOf
  by_cases hlt : m < 10
  · rw [if_pos (by exact_mod_cast hlt), if_pos hlt, hh _ (by omega) (by omega)]
    rfl
  · rw [if_neg (by exact_mod_cast hlt), if_neg hlt, hh _ (by omega) (by omega)]
    congr 1
    omega

theorem yearIn_eq {era : ℕ} (hera : era < 2 ^ 50) (hy : y < 400) (month : ℕ) :
    yearIn hold era y month =
      some ((y + era * 400 + if month ≤ 2 then 1 else 0 : ℕ) : ℤ) := by
  have hlead : (if (month : ℤ) ≤ 2 then 1 else 0 : ℤ) = (if month ≤ 2 then 1 else 0 : ℕ) := by
    split_ifs <;> omega
  have hle : (if month ≤ 2 then 1 else 0) ≤ 1 := by split_ifs <;> decide
  simp (disch := omega) only [yearIn, hlead, hh, Option.bind_eq_bind, Option.bind_some]
  congr 1

theorem ofDaysIn_eq (hn : n < 2 ^ 50) : ofDaysIn hold n =
    some (((ofDays n).year : ℤ), ((ofDays n).month : ℤ), ((ofDays n).day : ℤ)) := by
  have hdays : hold n = some (n : ℤ) := hh _ (by omega) (by omega)
  have hz : hold ((n : ℤ) + 719468) = some ((n + 719468 : ℕ) : ℤ) := by
    rw [hh _ (by omega) (by omega)]
    push_cast
    rfl
  obtain ⟨y, m, d, h⟩ := exists_marks (n + 719468)
  rw [ofDays_of_marks h]
  have hlt : (n + 719468) / 146097 < 2 ^ 50 := by omega
  generalize n + 719468 = z at *
  have hmod : (z : ℤ) % 146097 = (z % 146097 : ℕ) := by omega
  have hdiv : (z : ℤ) / 146097 = (z / 146097 : ℕ) := by omega
  have he := Nat.mod_lt z (show 0 < 146097 by decide)
  obtain ⟨hera, hlow, -⟩ := yearOfEra_spec he
  have hplace := h.place
  have hyear : marchYear z = y := marchYear_eq (by omega) h.lt_marchStart
  have hk : z % 146097 - marchStart (yearOfEra (z % 146097)) = monthStart m + d := by
    rw [← hyear, marchYear, marchStart_add_eras] at hplace
    omega
  have hlen := yearLength_le (y + 1)
  have hin : monthStart m + d < 366 := by
    have := h.lt_marchStart
    rw [marchStart_succ] at this
    omega
  have hmonth := marchMonth_eq (Nat.le_add_right _ d) h.lt_monthStart
  apply ofDaysIn_of hdays hz
  · rw [hmod, yearOfEraIn_eq hh he]
  · rw [hmod, ofYearIn_eq hh he hera hlow, hk]
  · rw [marchMonthIn_eq hh hin, hmonth]
  · have hday := dayIn_eq hh hin
    rwa [hmonth, Nat.add_sub_cancel_left] at hday
  · exact monthIn_eq hh h.month_lt
  · rw [hdiv, yearIn_eq hh hlt hera, ← hyear]
    rfl

end Words

/-- A number if a signed word of 64 bits holds it. -/
def word64? (i : ℤ) : Option ℤ :=
  if -0x8000000000000000 ≤ i ∧ i < 0x8000000000000000 then some i else none

theorem word64?_eq {i : ℤ} (h0 : 0 ≤ i) (hi : i < 2 ^ 62) : word64? i = some i :=
  if_pos ⟨by omega, by omega⟩

end Date

namespace Timestamp

/-- What the text of a time stamp shows: the date of a day, which signed words of 64 bits hold all
the way, and a time of that day, which together give the seconds back. -/
structure Shows (t : Timestamp) (day hour minute second : ℕ) : Prop where
  text_eq : t.text = String.ofList ((Date.ofDays day).text ++ 'T' :: decimalPad 2 hour ++
    ':' :: decimalPad 2 minute ++ ':' :: decimalPad 2 second ++
      '.' :: decimalPad 3 t.millis ++ ['Z'])
  secs_eq : day * 86400 + hour * 3600 + minute * 60 + second = t.secs
  hour_lt : hour < 24
  minute_lt : minute < 60
  second_lt : second < 60
  words : Date.ofDaysIn Date.word64? day = some (((Date.ofDays day).year : ℤ),
    ((Date.ofDays day).month : ℤ), ((Date.ofDays day).day : ℤ))

/-- Days are dated from 1970-01-01 on, each with the calendar's next date after that of the day
before, and every time stamp shows the date and the time of its seconds. -/
theorem text_gregorian :
    Date.ofDays 0 = ⟨1970, 1, 1⟩ ∧
    (∀ n, (Date.ofDays n).OnCalendar ∧ Date.ofDays (n + 1) = (Date.ofDays n).next) ∧
    ∀ (secs : UInt64) (millis : ℕ), ∃ day hour minute second,
      Shows ⟨secs.toNat, millis⟩ day hour minute second := by
  refine ⟨by decide, fun n => ⟨Date.ofDays_onCalendar n, Date.ofDays_succ n⟩, ?_⟩
  intro secs millis
  have hlt := secs.toNat_lt
  refine ⟨secs.toNat / 86400, secs.toNat % 86400 / 3600, secs.toNat % 86400 % 3600 / 60,
    secs.toNat % 86400 % 60, rfl, ?_, ?_, ?_, ?_, ?_⟩
  · simp only
    omega
  · omega
  · omega
  · omega
  · exact Date.ofDaysIn_eq (fun _ => Date.word64?_eq) (by omega)

end Timestamp
end BucketOverflow
