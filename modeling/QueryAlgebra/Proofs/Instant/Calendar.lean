import QueryAlgebra.Instant.Basic

/-!
# Days and their numbers

* `Day.inYear_ofNumber`: the place of a day in its year, which begins in March.
* `Day.month_ofNumber`, `Day.day_ofNumber`, `Day.year_ofNumber`: the ranges of the parts of a day.
* `Day.number_ofNumber`: the day with a number has that number.
* `Instant.midnight_isSome`: the start of an instant's day is in range.
-/

namespace QueryAlgebra.Calendar

/-- The year within four centuries of a day `a` of them. -/
def yearOfEra (a : Int) : Int := (a - a / 1460 + a / 36524 - a / 146096) / 365

/-- The place in its year of a day `a` of four centuries. -/
def dayOfYear (a : Int) : Int :=
  a - (365 * yearOfEra a + yearOfEra a / 4 - yearOfEra a / 100)

theorem yearOfEra_range {a : Int} (h0 : 0 ≤ a) (h1 : a < 146097) :
    0 ≤ yearOfEra a ∧ yearOfEra a ≤ 399 := by
  unfold yearOfEra
  omega

/-- A year has at most 366 days. The two estimates of the leap days before a day, from the day and
from its year, differ by at most one. -/
theorem dayOfYear_range {a : Int} (h0 : 0 ≤ a) (h1 : a < 146097) :
    0 ≤ dayOfYear a ∧ dayOfYear a ≤ 365 := by
  have hyear : 0 ≤ a - 365 * yearOfEra a - a / 1460 + a / 36524 - a / 146096 ∧
      a - 365 * yearOfEra a - a / 1460 + a / 36524 - a / 146096 ≤ 364 := by
    unfold yearOfEra
    omega
  unfold dayOfYear
  generalize yearOfEra a = y at *
  constructor
  · rcases Int.lt_or_le (a / 1460) (y / 4) with h | h
    · omega
    · rcases Int.lt_or_le (a / 36524) (y / 100 + 1) with h' | h'
      · omega
      · omega
  · rcases Int.lt_or_le (y / 4 + 1) (a / 1460) with h | h
    · omega
    · rcases Int.lt_or_le (a / 36524) (y / 100) with h' | h'
      · omega
      · omega

namespace Day

/-- The place in its year of the day with a number. -/
theorem dayOfYear_ofNumber (n : Int) :
    0 ≤ dayOfYear ((n + eraOffset) % daysPerEra) ∧
      dayOfYear ((n + eraOffset) % daysPerEra) ≤ 365 := by
  refine dayOfYear_range ?_ ?_
  · unfold daysPerEra; omega
  · unfold daysPerEra; omega

theorem month_ofNumber (n : Int) : 1 ≤ (ofNumber n).month ∧ (ofNumber n).month ≤ 12 := by
  have h := dayOfYear_ofNumber n
  have hmonth : (ofNumber n).month
      = (if (5 * dayOfYear ((n + eraOffset) % daysPerEra) + 2) / 153 < 10
          then (5 * dayOfYear ((n + eraOffset) % daysPerEra) + 2) / 153 + 3
          else (5 * dayOfYear ((n + eraOffset) % daysPerEra) + 2) / 153 - 9) := rfl
  rw [hmonth]
  generalize dayOfYear _ = d at *
  split <;> omega

theorem day_ofNumber (n : Int) : 1 ≤ (ofNumber n).day ∧ (ofNumber n).day ≤ 31 := by
  have h := dayOfYear_ofNumber n
  have hday : (ofNumber n).day
      = dayOfYear ((n + eraOffset) % daysPerEra)
        - (153 * ((5 * dayOfYear ((n + eraOffset) % daysPerEra) + 2) / 153) + 2) / 5 + 1 := rfl
  rw [hday]
  generalize dayOfYear _ = d at *
  omega

/-- The year lies in the four centuries of the day's number, or just behind them. -/
theorem year_ofNumber (n : Int) :
    400 * ((n + eraOffset) / daysPerEra) ≤ (ofNumber n).year ∧
      (ofNumber n).year ≤ 400 * ((n + eraOffset) / daysPerEra) + 400 := by
  have hera : 0 ≤ yearOfEra ((n + eraOffset) % daysPerEra) ∧
      yearOfEra ((n + eraOffset) % daysPerEra) ≤ 399 := by
    refine yearOfEra_range ?_ ?_ <;> unfold daysPerEra <;> omega
  have hyear : (ofNumber n).year
      = (if (ofNumber n).month ≤ 2
          then yearOfEra ((n + eraOffset) % daysPerEra) + (n + eraOffset) / daysPerEra * 400 + 1
          else yearOfEra ((n + eraOffset) % daysPerEra) + (n + eraOffset) / daysPerEra * 400) := rfl
  rw [hyear]
  generalize yearOfEra _ = y at *
  generalize (n + eraOffset) / daysPerEra = era
  split <;> omega

/-- **The day with a number has that number.** -/
theorem number_ofNumber (n : Int) : (ofNumber n).number = n := by
  have hsplit : (n + eraOffset) / daysPerEra * daysPerEra + (n + eraOffset) % daysPerEra
      = n + eraOffset := Int.ediv_mul_add_emod _ _
  have hrange := dayOfYear_ofNumber n
  have hera : 0 ≤ yearOfEra ((n + eraOffset) % daysPerEra) ∧
      yearOfEra ((n + eraOffset) % daysPerEra) ≤ 399 := by
    refine yearOfEra_range ?_ ?_ <;> unfold daysPerEra <;> omega
  have hday : dayOfYear ((n + eraOffset) % daysPerEra)
      = (n + eraOffset) % daysPerEra - (365 * yearOfEra ((n + eraOffset) % daysPerEra)
        + yearOfEra ((n + eraOffset) % daysPerEra) / 4
        - yearOfEra ((n + eraOffset) % daysPerEra) / 100) := rfl
  have hnumber : ofNumber n
      = let d := dayOfYear ((n + eraOffset) % daysPerEra)
        let y := yearOfEra ((n + eraOffset) % daysPerEra) + (n + eraOffset) / daysPerEra * 400
        let m := if (5 * d + 2) / 153 < 10 then (5 * d + 2) / 153 + 3 else (5 * d + 2) / 153 - 9
        ⟨if m ≤ 2 then y + 1 else y, m, d - (153 * ((5 * d + 2) / 153) + 2) / 5 + 1⟩ := rfl
  rw [hnumber]
  dsimp only [number]
  generalize dayOfYear _ = d at *
  generalize yearOfEra _ = y at *
  generalize (n + eraOffset) % daysPerEra = a at *
  generalize (n + eraOffset) / daysPerEra = era at *
  by_cases hlate : (5 * d + 2) / 153 < 10
  · have hm : ¬((5 * d + 2) / 153 + 3 ≤ 2) := by omega
    have hm' : 2 < (5 * d + 2) / 153 + 3 := by omega
    simp only [if_pos hlate, if_neg hm, if_pos hm']
    have hera' : (y + era * 400) / 400 = era := by omega
    have hyear : (y + era * 400) % 400 = y := by omega
    rw [hera', hyear]
    unfold daysPerEra eraOffset at *
    omega
  · have hm : (5 * d + 2) / 153 - 9 ≤ 2 := by omega
    have hm' : ¬(2 < (5 * d + 2) / 153 - 9) := by omega
    simp only [if_neg hlate, if_pos hm, if_neg hm']
    have hera' : (y + era * 400 + 1 - 1) / 400 = era := by omega
    have hyear : (y + era * 400 + 1 - 1) % 400 = y := by omega
    rw [hera', hyear]
    unfold daysPerEra eraOffset at *
    omega

end Day

end QueryAlgebra.Calendar

namespace QueryAlgebra.Instant

/-- **The start of the day of an instant is an instant.** -/
theorem midnight_isSome (t : Instant) : t.midnight.isSome = true := by
  have hrange := t.inRange
  have hday : t.dayNumber = t.millis / millisPerDay := rfl
  have known : ∀ n : Int, (n * millisPerDay).natAbs ≤ instantLimit →
      (ofMillis? (n * millisPerDay)).isSome = true := fun n hn => by simp [ofMillis?, hn]
  refine known _ ?_
  unfold fullYear
  split
  · -- Years of two digits lie in the twentieth century.
    rename_i hyear
    have hmonth := Calendar.Day.month_ofNumber t.dayNumber
    have hdate := Calendar.Day.day_ofNumber t.dayNumber
    unfold day at *
    generalize Calendar.Day.ofNumber t.dayNumber = d at *
    dsimp only [Calendar.Day.number]
    unfold millisPerDay instantLimit Calendar.daysPerEra Calendar.eraOffset
    split <;> split <;> omega
  · rw [show ({ t.day with year := t.day.year } : Calendar.Day).number = t.dayNumber from
      Calendar.Day.number_ofNumber t.dayNumber]
    unfold millisPerDay instantLimit at *
    omega

end QueryAlgebra.Instant
