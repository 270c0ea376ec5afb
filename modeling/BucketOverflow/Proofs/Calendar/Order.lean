import Mathlib.Data.String.Basic
import BucketOverflow.Proofs.Calendar
import BucketOverflow.Proofs.Text.Digits

/-! The order of time stamps. A time stamp is a row of numbers of fixed widths, so that texts come
in the order of these rows; and the rows of later points in time come later, since every day is
dated after the day before. -/
namespace BucketOverflow

namespace Date

variable {d e : Date} {m n : ℕ}

/-- A date as one number, with two digits for the month and two for the day. -/
def numeral (d : Date) : ℕ := (d.year * 100 + d.month) * 100 + d.day

/-- The numbers of a date in the order of its text. -/
def row (d : Date) : List ℕ := [d.year, d.month, d.day]

@[simp] theorem length_row (d : Date) : d.row.length = 3 := rfl

theorem monthLength_le (year month : ℕ) : monthLength year month ≤ 31 := by
  unfold monthLength
  split_ifs <;> decide

theorem OnCalendar.two_digits (h : d.OnCalendar) : d.month < 100 ∧ d.day < 100 := by
  have hday := h.day_le.trans (monthLength_le _ _)
  have hmonth := h.month_le
  omega

theorem OnCalendar.row_lt_iff (hd : d.OnCalendar) (he : e.OnCalendar) :
    d.row < e.row ↔ d.numeral < e.numeral := by
  have hd := hd.two_digits
  have he := he.two_digits
  simp only [row, numeral, List.cons_lt_cons_iff, List.not_lt_nil, and_false, or_false]
  omega

theorem OnCalendar.lt_next (h : d.OnCalendar) : d.numeral < d.next.numeral := by
  have hday := h.day_le.trans (monthLength_le _ _)
  have hmonth := h.month_le
  unfold next numeral
  split_ifs <;> dsimp only <;> omega

/-- Later days have later dates. -/
theorem ofDays_strictMono : StrictMono fun n => (ofDays n).numeral := by
  apply strictMono_nat_of_lt_succ
  intro n
  rw [ofDays_succ]
  exact (ofDays_onCalendar n).lt_next

/-- Exactly the first 2932897 days lie in years of at most four digits. -/
theorem year_lt_iff : (ofDays n).year < 10000 ↔ n < 2932897 := by
  have hlast : (ofDays 2932896).numeral = 99991231 := by decide
  have hfirst : (ofDays 2932897).numeral = 100000101 := by decide
  have hdigits := (ofDays_onCalendar n).two_digits
  have hmono {k m : ℕ} (h : k ≤ m) : (ofDays k).numeral ≤ (ofDays m).numeral :=
    ofDays_strictMono.monotone h
  constructor
  · intro hyear
    by_contra hge
    have hle := hmono (not_lt.mp hge)
    rw [hfirst, numeral] at hle
    omega
  · intro hlt
    have hle := hmono (Nat.le_of_lt_succ hlt)
    rw [hlast, numeral] at hle
    omega

theorem row_ofDays_lt_iff (m n : ℕ) : (ofDays m).row < (ofDays n).row ↔ m < n := by
  rw [(ofDays_onCalendar m).row_lt_iff (ofDays_onCalendar n)]
  exact ofDays_strictMono.lt_iff_lt

theorem row_ofDays_inj (m n : ℕ) : (ofDays m).row = (ofDays n).row ↔ m = n := by
  have hm := row_ofDays_lt_iff m n
  have hn := row_ofDays_lt_iff n m
  constructor
  · intro h
    rw [h, iff_false_left (List.lt_irrefl _)] at hm hn
    omega
  · rintro rfl
    rfl

end Date

namespace Timestamp
open Text Date

variable {t u : Timestamp}

/-- The milliseconds since the epoch. -/
def sinceEpoch (t : Timestamp) : ℕ := t.secs * 1000 + t.millis

/-- A point in time before the year 10000, which begins 2932897 days after the epoch, with the
milliseconds of its second. -/
structure Dated (t : Timestamp) : Prop where
  secs_lt : t.secs < 2932897 * 86400
  millis_lt : t.millis < 1000

theorem dated_iff : t.Dated ↔ (ofDays (t.secs / 86400)).year < 10000 ∧ t.millis < 1000 := by
  rw [year_lt_iff, Nat.div_lt_iff_lt_mul (by decide)]
  exact ⟨fun h => ⟨h.secs_lt, h.millis_lt⟩, fun h => ⟨h.1, h.2⟩⟩

/-- The numbers of a time of day. -/
def clock (rest millis : ℕ) : List ℕ := [rest / 3600, rest % 3600 / 60, rest % 60, millis]

/-- The numbers that a time stamp shows, from the year down to the milliseconds. -/
def row (t : Timestamp) : List ℕ :=
  (ofDays (t.secs / 86400)).row ++ clock (t.secs % 86400) t.millis

def marks : List (ℕ × Char) :=
  [(4, '-'), (2, '-'), (2, 'T'), (2, ':'), (2, ':'), (2, '.'), (3, 'Z')]

theorem marked_row (d : Date) (rest millis : ℕ) :
    marked marks (d.row ++ clock rest millis) = d.text ++ 'T' :: decimalPad 2 (rest / 3600) ++
      ':' :: decimalPad 2 (rest % 3600 / 60) ++ ':' :: decimalPad 2 (rest % 60) ++
      '.' :: decimalPad 3 millis ++ ['Z'] := by
  simp only [Date.text, Date.row, clock, marked, marks, List.cons_append, List.nil_append,
    List.append_assoc]

theorem toList_text (t : Timestamp) : t.text.toList = marked marks t.row := by
  rw [text, String.toList_ofList]
  exact (marked_row _ _ _).symm

theorem Dated.fitWidths (h : t.Dated) : FitWidths marks t.row := by
  obtain ⟨hyear, hmillis⟩ := dated_iff.mp h
  have hrest : t.secs % 86400 < 86400 := Nat.mod_lt _ (by decide)
  have hdigits := (ofDays_onCalendar (t.secs / 86400)).two_digits
  unfold row
  generalize ofDays (t.secs / 86400) = d at *
  generalize t.secs % 86400 = rest at *
  simp only [FitWidths, marks, Date.row, clock, List.cons_append, List.nil_append,
    List.forall₂_cons, List.Forall₂.nil, and_true]
  omega

theorem clock_lt_iff {rest rest' millis millis' : ℕ} (h : millis < 1000) (h' : millis' < 1000) :
    clock rest millis < clock rest' millis' ↔ rest * 1000 + millis < rest' * 1000 + millis' := by
  simp only [clock, List.cons_lt_cons_iff, List.not_lt_nil, and_false, or_false]
  omega

/-- Later points in time show a later row of numbers. -/
theorem row_lt_iff (ht : t.Dated) (hu : u.Dated) : t.row < u.row ↔ t.sinceEpoch < u.sinceEpoch := by
  have hlen : (ofDays (t.secs / 86400)).row.length = (ofDays (u.secs / 86400)).row.length := by
    rw [length_row, length_row]
  have htm := ht.millis_lt
  have hum := hu.millis_lt
  rw [row, row, append_lt_append_iff hlen, row_ofDays_lt_iff, row_ofDays_inj, clock_lt_iff htm hum]
  unfold sinceEpoch
  omega

theorem text_lt_iff (ht : t.Dated) (hu : u.Dated) :
    t.text < u.text ↔ t.sinceEpoch < u.sinceEpoch := by
  rw [String.lt_iff_toList_lt, toList_text, toList_text, marked_lt_iff ht.fitWidths hu.fitWidths,
    row_lt_iff ht hu]

theorem length_text (h : t.Dated) : t.text.length = 24 := by
  rw [← String.length_toList, toList_text, length_marked h.fitWidths]
  rfl

/-- A clock that is read in seconds and nanoseconds is told by its whole milliseconds. -/
theorem sinceEpoch_ofClock (secs : ℕ) {nanos : ℕ} (h : nanos < 1000000000) :
    (ofClock secs nanos).millis < 1000 ∧
      (ofClock secs nanos).sinceEpoch = (secs * 1000000000 + nanos) / 1000000 := by
  have hclock : ofClock secs nanos = ⟨secs, nanos / 1000000⟩ := by
    rw [ofClock, if_neg (by omega), Int.toNat_natCast]
  rw [hclock, sinceEpoch]
  dsimp only
  omega

/-- Before the year 10000 a time stamp has 24 characters, and the texts of two come in the order of
their milliseconds since the epoch, which are the whole milliseconds of the clock. -/
theorem text_chronological (ht : t.Dated) (hu : u.Dated) :
    t.text.length = 24 ∧ u.text.length = 24 ∧
      (t.text < u.text ↔ t.sinceEpoch < u.sinceEpoch) ∧
      (t.text = u.text ↔ t.sinceEpoch = u.sinceEpoch) ∧
      (u.text < t.text ↔ u.sinceEpoch < t.sinceEpoch) ∧
      ∀ secs nanos : ℕ, nanos < 1000000000 → (ofClock secs nanos).millis < 1000 ∧
        (ofClock secs nanos).sinceEpoch = (secs * 1000000000 + nanos) / 1000000 := by
  have hlt := text_lt_iff ht hu
  have hgt := text_lt_iff hu ht
  refine ⟨length_text ht, length_text hu, hlt, ?_, hgt, fun secs _ => sinceEpoch_ofClock secs⟩
  constructor
  · intro heq
    rw [heq, iff_false_left (lt_irrefl _)] at hlt hgt
    omega
  · intro heq
    rw [heq, iff_false_right (lt_irrefl _)] at hlt hgt
    exact le_antisymm (not_lt.mp hgt) (not_lt.mp hlt)

/-- The last millisecond of a century and the first of the next; and the last that is told in four
digits of the year. -/
theorem text_chronological_century :
    (⟨946684799, 999⟩ : Timestamp).text < (⟨946684800, 0⟩ : Timestamp).text ∧
      (⟨253402300799, 999⟩ : Timestamp).text.length = 24 := by
  have hold : Dated ⟨946684799, 999⟩ := ⟨by decide, by decide⟩
  have hnew : Dated ⟨946684800, 0⟩ := ⟨by decide, by decide⟩
  have hlast : Dated ⟨253402300799, 999⟩ := ⟨by decide, by decide⟩
  exact ⟨(text_chronological hold hnew).2.2.1.mpr (by decide), (text_chronological hlast hold).1⟩

example : (⟨946684799, 999⟩ : Timestamp).text = "1999-12-31T23:59:59.999Z" := by
  decide +kernel

end Timestamp
end BucketOverflow
