import QueryAlgebra.Instant.Basic
import QueryAlgebra.Number.Text

/-!
# The text of an instant

* `Instant.iso`: year, month and day, `T`, the time to the millisecond and `Z`. Years from 0 to 9999
  have four digits, all others a sign and six.
* `Instant.long`: weekday, month, day, year, time and zone in words.
* `Instant.dateText`, `Instant.timestampText`: the day, and the day with the time of day, as they
  stand inside SQL literals.
-/

namespace QueryAlgebra

namespace Instant

/-- A number with at least `width` digits, as text. -/
def digits (width n : Nat) : String := String.ofList (padded width n)

/-- A year of four digits, or with a sign and six digits when it has no four. -/
def isoYear (year : Int) : String :=
  if 0 ≤ year ∧ year ≤ 9999 then digits 4 year.toNat
  else (if year < 0 then "-" else "+") ++ digits 6 year.natAbs

/-- Hours, minutes and seconds. -/
def clock (t : Instant) : String :=
  digits 2 t.hour ++ ":" ++ digits 2 t.minute ++ ":" ++ digits 2 t.second

/-- The text of an instant in universal time, to the millisecond. -/
def iso (t : Instant) : String :=
  isoYear t.day.year ++ "-" ++ digits 2 t.day.month.toNat ++ "-" ++ digits 2 t.day.day.toNat
    ++ "T" ++ t.clock ++ "." ++ digits 3 t.millisecond ++ "Z"

/-- The text of an instant with the names of its weekday and month. -/
def long (t : Instant) : String :=
  let year := t.day.year
  (Calendar.weekdayNames.getD (Calendar.weekday t.dayNumber).toNat "") ++ " "
    ++ (Calendar.monthNames.getD (t.day.month.toNat - 1) "") ++ " "
    ++ digits 2 t.day.day.toNat ++ " "
    ++ (if year < 0 then "-" else "") ++ digits 4 year.natAbs ++ " "
    ++ t.clock ++ " GMT+0000 (Coordinated Universal Time)"

/-- An integer in decimal digits, after a minus sign when it is negative. -/
def intText (n : Int) : String :=
  (if n < 0 then "-" else "") ++ String.ofList (digitsOf n.natAbs)

/-- The day of an instant, the year in as many digits as it has. -/
def dateText (t : Instant) : String :=
  intText t.day.year ++ "-" ++ digits 2 t.day.month.toNat ++ "-" ++ digits 2 t.day.day.toNat

/-- The day and time of an instant, with six digits of the second when it is not whole. -/
def timestampText (t : Instant) : String :=
  t.dateText ++ " " ++ t.clock
    ++ (if t.millisecond = 0 then "" else "." ++ digits 6 (t.millisecond * 1000))

end Instant

end QueryAlgebra
