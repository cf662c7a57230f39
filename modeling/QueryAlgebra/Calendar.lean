/-!
# The calendar

Days are counted from 1 January 1970 in the Gregorian calendar, extended to all years. The year is
taken to begin in March, so that a leap day is the last of its year, and four centuries have the
same number of days.

* `Day`: a year, a month from 1 to 12 and a day of the month.
* `Day.ofNumber`, `Day.number`: the day with a number, and the number of a day.
* `weekday`: days of the week from Sunday, 0, to Saturday, 6.
-/

namespace QueryAlgebra.Calendar

/-- A day of the calendar. -/
structure Day where
  year  : Int
  month : Int
  day   : Int
deriving DecidableEq

/-- The days of four centuries. -/
def daysPerEra : Int := 146097

/-- The number of 1 March of the year 0, counted back from 1 January 1970. -/
def eraOffset : Int := 719468

/-- The day with a given number. -/
def Day.ofNumber (n : Int) : Day :=
  let shifted   := n + eraOffset
  let era       := shifted / daysPerEra
  let inEra     := shifted % daysPerEra
  let yearOfEra := (inEra - inEra / 1460 + inEra / 36524 - inEra / 146096) / 365
  let inYear    := inEra - (365 * yearOfEra + yearOfEra / 4 - yearOfEra / 100)
  let marchBased := (5 * inYear + 2) / 153
  let day   := inYear - (153 * marchBased + 2) / 5 + 1
  let month := if marchBased < 10 then marchBased + 3 else marchBased - 9
  let year  := yearOfEra + era * 400
  ⟨if month ≤ 2 then year + 1 else year, month, day⟩

/-- The number of a day. A day beyond the end of its month counts into the next one. -/
def Day.number (d : Day) : Int :=
  let year      := if d.month ≤ 2 then d.year - 1 else d.year
  let era       := year / 400
  let yearOfEra := year % 400
  let marchBased := if 2 < d.month then d.month - 3 else d.month + 9
  let inYear    := (153 * marchBased + 2) / 5 + d.day - 1
  let inEra     := yearOfEra * 365 + yearOfEra / 4 - yearOfEra / 100 + inYear
  era * daysPerEra + inEra - eraOffset

/-- The day of the week of a day number, Sunday first. -/
def weekday (n : Int) : Int := (n + 4) % 7

/-- The short names of the days of the week. -/
def weekdayNames : List String := ["Sun", "Mon", "Tue", "Wed", "Thu", "Fri", "Sat"]

/-- The short names of the months. -/
def monthNames : List String :=
  ["Jan", "Feb", "Mar", "Apr", "May", "Jun", "Jul", "Aug", "Sep", "Oct", "Nov", "Dec"]

end QueryAlgebra.Calendar
