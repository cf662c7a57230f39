import QueryAlgebra.Proofs.Instant.Calendar

/-!
# The start of a day

The start of a day is put together from the parts of the day, and years of two digits are read as years of
the twentieth century then. So an instant of the years 0 to 99 is carried there; for all others the start
of the day is the last one before them.

* `Day.number_modern`, `Day.year_modern`: the numbers and years of the days of the twentieth century.
* `Instant.TwoDigit`: instants whose year has at most two digits.
* `Instant.dayNumber_midnight_iff`: it is the start of the instant's own day exactly if the year has more
  digits; `Instant.dayNumber_midnight_of_twoDigit` says which day it is otherwise.
* `Instant.midnight_midnight`: the start of a day is the start of its own day.
-/

namespace QueryAlgebra

namespace Calendar.Day

/-- The twentieth century: from 1 January 1900 to 31 December 1999. -/
def Modern (n : Int) : Prop := -25567 ≤ n ∧ n ≤ 10956

/-- Days of the twentieth century have numbers of it, those behind the end of a month as well. -/
theorem number_modern {d : Day} (year : 1900 ≤ d.year ∧ d.year ≤ 1999)
    (month : 1 ≤ d.month ∧ d.month ≤ 12) (day : 1 ≤ d.day ∧ d.day ≤ 31) : Modern d.number := by
  unfold Modern number daysPerEra eraOffset
  dsimp only
  split <;> split <;> omega

/-- A day with a number of the twentieth century has a year of it. -/
theorem year_modern {n : Int} (h : Modern n) :
    1900 ≤ (ofNumber n).year ∧ (ofNumber n).year ≤ 1999 := by
  unfold Modern at h
  have era : (n + eraOffset) / daysPerEra = 4 := by unfold eraOffset daysPerEra; omega
  have hmonth : (ofNumber n).month
      = (if (5 * dayOfYear ((n + eraOffset) % daysPerEra) + 2) / 153 < 10
          then (5 * dayOfYear ((n + eraOffset) % daysPerEra) + 2) / 153 + 3
          else (5 * dayOfYear ((n + eraOffset) % daysPerEra) + 2) / 153 - 9) := rfl
  have hyear : (ofNumber n).year
      = (if (ofNumber n).month ≤ 2
          then yearOfEra ((n + eraOffset) % daysPerEra) + (n + eraOffset) / daysPerEra * 400 + 1
          else yearOfEra ((n + eraOffset) % daysPerEra) + (n + eraOffset) / daysPerEra * 400) := rfl
  rw [hyear, hmonth, era]
  have inEra : (n + eraOffset) % daysPerEra = n + 135080 := by unfold eraOffset daysPerEra; omega
  rw [inEra]
  -- The first two months of 1900 belong to the year before, which begins in March.
  have years : 299 ≤ yearOfEra (n + 135080) ∧ yearOfEra (n + 135080) ≤ 399 := by
    unfold yearOfEra
    omega
  have first : yearOfEra (n + 135080) = 299 → 306 ≤ dayOfYear (n + 135080) := by
    intro h
    unfold dayOfYear
    rw [h]
    omega
  have last : yearOfEra (n + 135080) = 399 → dayOfYear (n + 135080) ≤ 305 := by
    intro h
    unfold dayOfYear
    rw [h]
    omega
  have range := dayOfYear_range (a := n + 135080) (by omega) (by omega)
  generalize yearOfEra _ = y at *
  generalize dayOfYear _ = d at *
  split <;> split at * <;> omega

end Calendar.Day

namespace Instant

open Calendar

theorem ofMillis?_eq_some {ms : Int} {t : Instant} : ofMillis? ms = some t ↔ t.millis = ms := by
  unfold ofMillis?
  split
  · rw [Option.some.injEq]
    exact ⟨fun h => h ▸ rfl, fun h => by cases t; cases h; rfl⟩
  · rename_i outside
    simp only [reduceCtorEq, false_iff]
    rintro rfl
    exact outside t.inRange

/-- The instant lies in the years 0 to 99. -/
def TwoDigit (t : Instant) : Prop := 0 ≤ t.day.year ∧ t.day.year ≤ 99

instance (t : Instant) : Decidable t.TwoDigit := inferInstanceAs (Decidable (_ ∧ _))

theorem midnight_eq_some {t m : Instant} : t.midnight = some m ↔
    m.millis = Day.number { t.day with year := fullYear t.day.year } * millisPerDay :=
  ofMillis?_eq_some

/-- An instant at the start of a day lies in that day. -/
theorem dayNumber_of_millis {m : Instant} {n : Int} (h : m.millis = n * millisPerDay) :
    m.dayNumber = n := by
  rw [dayNumber, h]
  exact Int.mul_ediv_cancel n (by decide)

/-- The instants of a day, from its start on. -/
theorem dayNumber_eq_iff {t : Instant} {n : Int} : t.dayNumber = n ↔
    n * millisPerDay ≤ t.millis ∧ t.millis < n * millisPerDay + millisPerDay := by
  unfold dayNumber millisPerDay
  omega

/-! ### Which day it is the start of -/

section

variable {t m : Instant} (start : t.midnight = some m)
include start

/-- The start of a day is a whole number of days away from the start of 1970. -/
theorem millis_midnight : m.millis = m.dayNumber * millisPerDay := by
  have whole := midnight_eq_some.1 start
  rwa [← dayNumber_of_millis whole] at whole

/-- The start of a day is that of the instant's own day, if its year has more than two digits. -/
theorem dayNumber_midnight (far : ¬t.TwoDigit) : m.dayNumber = t.dayNumber := by
  have year : fullYear t.day.year = t.day.year := if_neg far
  have whole := midnight_eq_some.1 start
  rw [year] at whole
  exact (dayNumber_of_millis whole).trans (Day.number_ofNumber t.dayNumber)

/-- A year of two digits is read as one of the twentieth century. -/
theorem dayNumber_midnight_of_twoDigit (early : t.TwoDigit) :
    m.dayNumber = Day.number ⟨1900 + t.day.year, t.day.month, t.day.day⟩ := by
  have year : fullYear t.day.year = 1900 + t.day.year := if_pos early
  have whole := midnight_eq_some.1 start
  rw [year] at whole
  exact dayNumber_of_millis whole

theorem modern_midnight (early : t.TwoDigit) : Day.Modern m.dayNumber := by
  rw [dayNumber_midnight_of_twoDigit start early]
  unfold TwoDigit at early
  refine Day.number_modern ?_ (Day.month_ofNumber _) (Day.day_ofNumber _)
  dsimp only
  omega

/-- **The start of a day is that of the instant's own day exactly if its year has more than two digits.** -/
theorem dayNumber_midnight_iff : m.dayNumber = t.dayNumber ↔ ¬t.TwoDigit := by
  refine ⟨fun same early => ?_, dayNumber_midnight start⟩
  -- The first century ends long before the twentieth begins.
  have modern := modern_midnight start early
  have years := Day.year_ofNumber t.dayNumber
  unfold TwoDigit day at early
  rw [same] at modern
  unfold Day.Modern at modern
  unfold eraOffset daysPerEra at years
  omega

/-- The start of a day is no instant of a year of two digits. -/
theorem not_twoDigit_midnight : ¬m.TwoDigit := by
  by_cases early : t.TwoDigit
  · have years := Day.year_modern (modern_midnight start early)
    unfold TwoDigit day
    omega
  · unfold TwoDigit day at *
    rwa [dayNumber_midnight start early]

/-- **The start of a day is the start of its own day.** -/
theorem midnight_midnight : m.midnight = some m := by
  obtain ⟨again, found⟩ := Option.isSome_iff_exists.1 m.midnight_isSome
  have same := dayNumber_midnight found (not_twoDigit_midnight start)
  have millis := millis_midnight found
  rw [same, ← millis_midnight start] at millis
  exact midnight_eq_some.2 (millis ▸ midnight_eq_some.1 found)

end

end Instant
end QueryAlgebra
