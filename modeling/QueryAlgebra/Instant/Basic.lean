import QueryAlgebra.Calendar
import QueryAlgebra.Number.Basic

/-!
# Instants

An instant is a whole number of milliseconds since the start of 1970, at most a hundred million
days away from it.

* `Instant.ofMillis?`, `Instant.ofNumber?`: the instant of a count of milliseconds that is in range.
* `Instant.day`, `Instant.hour`, …: its parts in universal time.
* `Instant.midnight`: the start of its day, with the years of the first century read as two-digit
  years of the twentieth.
-/

namespace QueryAlgebra

/-- The milliseconds of a day. -/
def millisPerDay : Int := 86400000

/-- The farthest distance of an instant from the start of 1970, in milliseconds. -/
def instantLimit : Nat := 8640000000000000

/-- A point in time. -/
structure Instant where
  millis  : Int
  inRange : millis.natAbs ≤ instantLimit
deriving DecidableEq

namespace Instant

/-- The instant of a count of milliseconds, if it is in range. -/
def ofMillis? (ms : Int) : Option Instant :=
  if h : ms.natAbs ≤ instantLimit then some ⟨ms, h⟩ else none

/-- The instant of a number of milliseconds, whose fraction is cut off. -/
def ofNumber? (n : Number) : Option Instant := n.toInt?.bind ofMillis?

/-- The number of the instant's day. -/
def dayNumber (t : Instant) : Int := t.millis / millisPerDay

/-- The milliseconds passed since the start of the instant's day. -/
def timeOfDay (t : Instant) : Nat := (t.millis % millisPerDay).toNat

def day (t : Instant) : Calendar.Day := .ofNumber t.dayNumber

def hour (t : Instant) : Nat := t.timeOfDay / 3600000

def minute (t : Instant) : Nat := t.timeOfDay / 60000 % 60

def second (t : Instant) : Nat := t.timeOfDay / 1000 % 60

def millisecond (t : Instant) : Nat := t.timeOfDay % 1000

/-- A year as it is read from two digits: 0 to 99 lie in the twentieth century. -/
def fullYear (year : Int) : Int := if 0 ≤ year ∧ year ≤ 99 then 1900 + year else year

/-- The start of the instant's day, whose year is read by `fullYear`. -/
def midnight (t : Instant) : Option Instant :=
  ofMillis? (Calendar.Day.number { t.day with year := fullYear t.day.year } * millisPerDay)

end Instant

end QueryAlgebra
