import QueryAlgebra.Proofs.Instant.Midnight
import QueryAlgebra.Proofs.Instant.Text

/-!
# Days and times in digits

How literals spell days and times of day: a year of four digits, all else in two, and six digits of a
second that is not whole.

* `Figures`: a number in so many digits. `figures_digitsOf_iff`: numbers as they stand have them exactly if
  they are neither too small nor too large.
* `DayText`, `ClockText`: a day and a time of day.
* `Instant.dayText_dateText`, `Instant.four_of_dayText`: the day of an instant is spelled so exactly if its
  year has four digits.
* `Instant.clockText_fineClock`: the time of day always is.
-/

namespace QueryAlgebra

open Calendar

/-! ### Numbers in so many digits -/

/-- The number in exactly `width` digits. -/
structure Figures (width n : Nat) (cs : List Char) : Prop where
  width  : cs.length = width
  digits : ∀ c ∈ cs, c.isDigit = true
  amount : decimalAmount cs = n

theorem figures_padded {w n : Nat} (hw : 0 < w) (h : n < 10 ^ w) : Figures w n (padded w n) :=
  ⟨length_padded hw h, fun _ => isDigit_of_mem_padded, decimalAmount_padded w n⟩

/-- A number that is not padded has as many digits as it needs. -/
theorem figures_digitsOf_iff {w n : Nat} (hw : 1 < w) :
    Figures w n (digitsOf n) ↔ 10 ^ (w - 1) ≤ n ∧ n < 10 ^ w := by
  constructor
  · intro h
    have width : (digitsOf n).length = w := h.width
    have upper := digitsOf_lt n
    rcases Nat.eq_zero_or_pos n with rfl | pos
    · have one : (digitsOf 0).length = 1 := by decide
      omega
    · have lower := le_digitsOf pos
      rw [width] at upper lower
      exact ⟨lower, upper⟩
  · rintro ⟨lower, upper⟩
    have most := (length_digitsOf_le (by omega)).2 upper
    have least : ¬(digitsOf n).length ≤ w - 1 := fun short =>
      absurd ((length_digitsOf_le (by omega)).1 short) (by omega)
    exact ⟨by omega, fun _ => isDigit_of_mem_digitsOf, decimalAmount_digitsOf n⟩

/-! ### Days and times of day -/

/-- The day as a year of four digits, a month and a day of the month. -/
inductive DayText : Day → List Char → Prop
  | intro {y m d : Nat} {ys ms ds : List Char} (year : Figures 4 y ys) (month : Figures 2 m ms)
      (day : Figures 2 d ds) : DayText ⟨y, m, d⟩ (ys ++ '-' :: (ms ++ '-' :: ds))

/-- Six digits of a second behind a point, or nothing. -/
inductive FractionText : Nat → List Char → Prop
  | none : FractionText 0 []
  | digits {f : Nat} {fs : List Char} (micros : Figures 6 f fs) : FractionText f ('.' :: fs)

/-- The time of day, in microseconds, as hours, minutes and seconds. -/
inductive ClockText : Nat → List Char → Prop
  | intro {h m s f : Nat} {hs ms ss fs : List Char} (hour : Figures 2 h hs) (minute : Figures 2 m ms)
      (second : Figures 2 s ss) (fraction : FractionText f fs) (range : h < 24 ∧ m < 60 ∧ s < 60) :
    ClockText (((h * 60 + m) * 60 + s) * 1000000 + f) (hs ++ ':' :: (ms ++ ':' :: (ss ++ fs)))

theorem DayText.chars {d : Day} {cs : List Char} (h : DayText d cs) :
    ∀ c ∈ cs, c.isDigit = true ∨ c = '-' := by
  obtain ⟨year, month, day⟩ := h
  simp only [List.forall_mem_append, List.forall_mem_cons]
  exact ⟨fun c hc => .inl (year.digits c hc), .inr trivial, fun c hc => .inl (month.digits c hc),
    .inr trivial, fun c hc => .inl (day.digits c hc)⟩

theorem FractionText.chars {f : Nat} {cs : List Char} (h : FractionText f cs) :
    ∀ c ∈ cs, c.isDigit = true ∨ c = '.' := by
  cases h with
  | none => nofun
  | digits micros => exact List.forall_mem_cons.2 ⟨.inr rfl, fun c hc => .inl (micros.digits c hc)⟩

theorem ClockText.chars {time : Nat} {cs : List Char} (h : ClockText time cs) :
    ∀ c ∈ cs, c.isDigit = true ∨ c = ':' ∨ c = '.' := by
  obtain ⟨hour, minute, second, fraction, -⟩ := h
  simp only [List.forall_mem_append, List.forall_mem_cons]
  exact ⟨fun c hc => .inl (hour.digits c hc), .inr (.inl trivial), fun c hc => .inl (minute.digits c hc),
    .inr (.inl trivial), fun c hc => .inl (second.digits c hc),
    fun c hc => (fraction.chars c hc).imp_right .inr⟩

/-! ### The texts of instants -/

namespace Instant

theorem toList_dateText (t : Instant) : t.dateText.toList = (intText t.day.year).toList ++
    '-' :: (padded 2 t.day.month.toNat ++ '-' :: padded 2 t.day.day.toNat) := by
  simp [dateText, digits]

/-- **A day whose year has four digits is spelled so.** -/
theorem dayText_dateText {t : Instant} (four : 1000 ≤ t.day.year ∧ t.day.year ≤ 9999) :
    DayText t.day t.dateText.toList := by
  have month := Day.month_ofNumber t.dayNumber
  have day := Day.day_ofNumber t.dayNumber
  obtain ⟨y, hy⟩ := Int.eq_ofNat_of_zero_le (show 0 ≤ t.day.year by omega)
  obtain ⟨m, hm⟩ := Int.eq_ofNat_of_zero_le (show 0 ≤ t.day.month by unfold Instant.day; omega)
  obtain ⟨d, hd⟩ := Int.eq_ofNat_of_zero_le (show 0 ≤ t.day.day by unfold Instant.day; omega)
  have parts : t.day = ⟨y, m, d⟩ := by rw [← hy, ← hm, ← hd]
  have year : Figures 4 y (digitsOf y) := (figures_digitsOf_iff (by decide)).2 (by omega)
  have text : (intText y).toList = digitsOf y := by simp [intText]
  unfold Instant.day at hm hd
  rw [toList_dateText, parts, text]
  exact .intro year (figures_padded (by decide) (by simp; omega))
    (figures_padded (by decide) (by simp; omega))

/-- **A day that is spelled so has a year of four digits**, whatever follows. -/
theorem four_of_dayText {t : Instant} {d : Day} {cs r s : List Char} (h : DayText d cs)
    (text : t.dateText.toList ++ r = cs ++ s) : 1000 ≤ t.day.year ∧ t.day.year ≤ 9999 := by
  obtain @⟨_, _, _, ys, _, _, year, -, -⟩ := h
  rw [toList_dateText, List.append_assoc, List.append_assoc, List.cons_append, List.cons_append] at text
  by_cases negative : t.day.year < 0
  · obtain ⟨c, cs, rfl⟩ := List.exists_cons_of_ne_nil
      (List.ne_nil_of_length_pos (by rw [year.width]; decide : 0 < ys.length))
    have digit := year.digits c (by simp)
    simp only [intText, if_pos negative, String.toList_append] at text
    obtain ⟨rfl, -⟩ := List.cons.inj (text : '-' :: _ = c :: _)
    exact absurd digit (by decide)
  · simp only [intText, if_neg negative, String.toList_append, String.toList_ofList] at text
    obtain ⟨same, -⟩ := Text.takeWhile_append_inj Char.isDigit
      (fun c hc => isDigit_of_mem_digitsOf (by simpa using hc)) year.digits (by decide) (by decide) text
    have four : (digitsOf t.day.year.natAbs).length = 4 := by
      rw [← year.width, ← same]
      simp
    have range := (figures_digitsOf_iff (by decide)).1
      ⟨four, fun _ => isDigit_of_mem_digitsOf, decimalAmount_digitsOf _⟩
    omega

/-- The time of an instant, with six digits of the second when it is not whole. -/
def fineClock (t : Instant) : String :=
  t.clock ++ (if t.millisecond = 0 then "" else "." ++ digits 6 (t.millisecond * 1000))

theorem toList_timestampText (t : Instant) :
    t.timestampText.toList = t.dateText.toList ++ ' ' :: t.fineClock.toList := by
  simp [timestampText, fineClock]

/-- **Every time of day is spelled so.** -/
theorem clockText_fineClock (t : Instant) : ClockText (t.timeOfDay * 1000) t.fineClock.toList := by
  have hour := t.hour_lt
  have minute := t.minute_lt
  have second := t.second_lt
  have millisecond := t.millisecond_lt
  have time : t.timeOfDay * 1000
      = ((t.hour * 60 + t.minute) * 60 + t.second) * 1000000 + t.millisecond * 1000 := by
    rw [← t.timeOfDay_eq]
    ring
  have fraction : FractionText (t.millisecond * 1000)
      (if t.millisecond = 0 then "" else "." ++ digits 6 (t.millisecond * 1000)).toList := by
    split
    · rename_i whole
      rw [whole]
      exact .none
    · simpa [digits] using FractionText.digits (figures_padded (by decide) (by omega))
  have text : t.clock.toList = padded 2 t.hour ++ ':' :: (padded 2 t.minute ++ ':' :: padded 2 t.second) := by
    simp [clock, digits]
  rw [time, fineClock, String.toList_append, text]
  simpa using ClockText.intro (figures_padded (by decide) (by omega)) (figures_padded (by decide) (by omega))
    (figures_padded (by decide) (by omega)) fraction ⟨hour, minute, second⟩

end Instant

end QueryAlgebra
