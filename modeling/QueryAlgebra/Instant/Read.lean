import QueryAlgebra.Instant.Basic
import QueryAlgebra.Number.Read

/-!
# Instants read from text

* `Instant.ofText?`: reads a year, optionally with a month and a day, optionally followed by `T` and
  a time of day, to the minute or finer, and a zone. Without a zone the time is universal.
-/

namespace QueryAlgebra

namespace Instant

/-- The amount of exactly `n` digits at the head of a text, and the rest. -/
def takeDigits (n : Nat) (cs : List Char) : Option (Nat × List Char) :=
  let ds := cs.take n
  if ds.length = n ∧ ds.all Char.isDigit then some (decimalAmount ds, cs.drop n) else none

/-- A number of two digits after a mark: none if the mark is absent, refused if no digits follow. -/
def optionalPart (mark : Char) (cs : List Char) : Option (Option Nat × List Char) :=
  match cs with
  | c :: r => if c = mark then (takeDigits 2 r).map fun (n, t) => (some n, t) else some (none, cs)
  | []     => some (none, [])

/-- A year of four digits, or of six after a sign. Minus zero is refused. -/
def readYear : List Char → Option (Int × List Char)
  | '+' :: r => (takeDigits 6 r).map fun (n, t) => ((n : Int), t)
  | '-' :: r => (takeDigits 6 r).bind fun (n, t) => if n = 0 then none else some (-(n : Int), t)
  | r        => (takeDigits 4 r).map fun (n, t) => ((n : Int), t)

/-- The milliseconds of a decimal fraction; digits after the third are ignored. -/
def fractionMillis (ds : List Char) : Nat :=
  decimalAmount ((ds ++ ['0', '0']).take 3)

/-- Seconds with an optional fraction, in milliseconds; nothing at all is zero. -/
def readSeconds (cs : List Char) : Option (Nat × List Char) := do
  let (seconds, rest) ← optionalPart ':' cs
  match seconds with
  | none => return (0, rest)
  | some s =>
    if 59 < s then none
    else match rest with
      | '.' :: r =>
        let (fraction, tail) := spanDigits r
        if fraction.isEmpty then none else return (s * 1000 + fractionMillis fraction, tail)
      | _ => return (s * 1000, rest)

/-- A zone, as the minutes it is ahead of universal time, up to the end of the text. -/
def readZone : List Char → Option Int
  | []       => some 0
  | ['Z']    => some 0
  | c :: r   => do
    if c ≠ '+' ∧ c ≠ '-' then none
    else
      let (hours, rest) ← takeDigits 2 r
      let (minutes, tail) ← optionalPart ':' rest
      let minutes ← minutes
      if 23 < hours ∨ 59 < minutes ∨ tail ≠ [] then none
      else
        let ahead : Int := hours * 60 + minutes
        return if c = '-' then -ahead else ahead

/-- A time of day with its zone, as milliseconds from the start of the day in universal time. The
day may end at the hour 24. -/
def readTime (cs : List Char) : Option Int := do
  let (hours, rest) ← takeDigits 2 cs
  let (minutes, rest) ← optionalPart ':' rest
  let minutes ← minutes
  let (millis, rest) ← readSeconds rest
  let ahead ← readZone rest
  if 24 < hours ∨ 59 < minutes ∨ (hours = 24 ∧ 0 < minutes + millis) then none
  else return ((hours * 60 + minutes : Nat) - ahead) * 60000 + millis

/-- The instant that a text spells. -/
def ofText? (s : String) : Option Instant := do
  let (year, rest) ← readYear s.toList
  let (month, rest) ← optionalPart '-' rest
  let (day, rest) ← if month.isSome then optionalPart '-' rest else some (none, rest)
  let month := month.getD 1
  let day := day.getD 1
  if month < 1 ∨ 12 < month ∨ day < 1 ∨ 31 < day then none
  else
    let time ← match rest with
      | []       => some 0
      | 'T' :: r => readTime r
      | _        => none
    ofMillis? (Calendar.Day.number ⟨year, month, day⟩ * millisPerDay + time)

end Instant

end QueryAlgebra
