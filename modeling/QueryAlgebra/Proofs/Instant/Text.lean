import QueryAlgebra.Proofs.Instant.Calendar
import QueryAlgebra.Proofs.Number.Text

/-!
# Texts of instants are read back

* `Instant.ofText?_iso`: the text of an instant is read as that instant.
* `Instant.iso_append_inj`: the text of an instant tells it, whatever follows.
-/

namespace QueryAlgebra

namespace Instant

open Calendar

/-! ### The parts of an instant -/

theorem millis_eq (t : Instant) : t.dayNumber * millisPerDay + t.timeOfDay = t.millis := by
  have := Int.ediv_mul_add_emod t.millis millisPerDay
  have hpos : 0 ≤ t.millis % millisPerDay := Int.emod_nonneg _ (by decide)
  unfold dayNumber timeOfDay
  omega

theorem timeOfDay_lt (t : Instant) : t.timeOfDay < 86400000 := by
  unfold timeOfDay millisPerDay
  omega

theorem timeOfDay_eq (t : Instant) :
    (t.hour * 60 + t.minute) * 60000 + (t.second * 1000 + t.millisecond) = t.timeOfDay := by
  unfold hour minute second millisecond
  omega

theorem hour_lt (t : Instant) : t.hour < 24 := by
  have := t.timeOfDay_lt
  unfold hour
  omega

theorem minute_lt (t : Instant) : t.minute < 60 := Nat.mod_lt _ (by decide)

theorem second_lt (t : Instant) : t.second < 60 := Nat.mod_lt _ (by decide)

theorem millisecond_lt (t : Instant) : t.millisecond < 1000 := Nat.mod_lt _ (by decide)

/-- The year of an instant has at most six digits. -/
theorem year_natAbs_lt (t : Instant) : t.day.year.natAbs < 10 ^ 6 := by
  have hyear := Day.year_ofNumber t.dayNumber
  have hrange := t.inRange
  unfold day
  unfold dayNumber millisPerDay eraOffset daysPerEra instantLimit at *
  omega

/-! ### Reading an instant -/

theorem readYear_isoYear {year : Int} (h : year.natAbs < 10 ^ 6) (r : List Char) :
    readYear ((isoYear year).toList ++ r) = some (year, r) := by
  unfold isoYear
  split
  · rename_i hfour
    have htake := takeDigits_padded (w := 4) (n := year.toNat) (by decide) (by omega) r
    have hlen := length_padded (w := 4) (n := year.toNat) (by decide) (by omega)
    simp only [digits, String.toList_ofList]
    -- The first character is a digit, so no sign is read.
    obtain ⟨c, ds, hc⟩ : ∃ c ds, padded 4 year.toNat = c :: ds :=
      List.exists_cons_of_ne_nil (by rintro h; rw [h] at hlen; simp at hlen)
    have hdigit : c.isDigit = true := isDigit_of_mem_padded (w := 4) (by rw [hc]; simp)
    rw [hc] at htake ⊢
    have hplus : c ≠ '+' := by rintro rfl; exact absurd hdigit (by decide)
    have hminus : c ≠ '-' := by rintro rfl; exact absurd hdigit (by decide)
    simp only [List.cons_append] at htake ⊢
    simp [readYear, hplus, hminus, htake, Int.toNat_of_nonneg hfour.1]
  · have htake := takeDigits_padded (w := 6) (n := year.natAbs) (by decide) h r
    rename_i hfour
    split
    · rename_i hneg
      simp only [digits, String.toList_append, String.toList_ofList]
      simp [readYear, htake, abs_of_neg hneg]
      omega
    · rename_i hpos
      simp only [digits, String.toList_append, String.toList_ofList]
      simp [readYear, htake, abs_of_nonneg (not_lt.1 hpos)]

theorem optionalPart_digits (mark : Char) {n : Nat} (h : n < 100) (r : List Char) :
    optionalPart mark (mark :: (padded 2 n ++ r)) = some (some n, r) := by
  simp [optionalPart, takeDigits_padded (w := 2) (by decide) h r]

theorem readSeconds_clock {s ms : Nat} (hs : s < 60) (hms : ms < 1000) (r : List Char)
    (hr : NoDigit r) :
    readSeconds (':' :: (padded 2 s ++ '.' :: (padded 3 ms ++ r)))
      = some (s * 1000 + ms, r) := by
  have hlen := length_padded (w := 3) (n := ms) (by decide) hms
  have hdigits : ∀ c ∈ padded 3 ms, c.isDigit = true := fun c hc => isDigit_of_mem_padded hc
  have hspan := spanDigits_append hdigits hr
  have hnil : padded 3 ms ≠ [] := by rintro h; rw [h] at hlen; simp at hlen
  have hmillis : fractionMillis (padded 3 ms) = ms := by
    unfold fractionMillis
    rw [List.take_left' hlen, decimalAmount_padded]
  have hsmall : ¬59 < s := by omega
  simp [readSeconds, optionalPart_digits ':' (show s < 100 by omega), hsmall, hspan, hnil, hmillis]

theorem readTime_clock {h m s ms : Nat} (hh : h < 24) (hm : m < 60) (hs : s < 60)
    (hms : ms < 1000) :
    readTime (padded 2 h ++ ':' :: (padded 2 m ++ ':' :: (padded 2 s ++ '.' ::
        (padded 3 ms ++ ['Z']))))
      = some (((h * 60 + m) * 60000 + (s * 1000 + ms) : Nat) : Int) := by
  have hhours := takeDigits_padded (w := 2) (n := h) (by decide) (by omega)
    (':' :: (padded 2 m ++ ':' :: (padded 2 s ++ '.' :: (padded 3 ms ++ ['Z']))))
  have hminutes := optionalPart_digits ':' (show m < 100 by omega)
    (':' :: (padded 2 s ++ '.' :: (padded 3 ms ++ ['Z'])))
  have hseconds := readSeconds_clock hs hms ['Z'] (noDigit_cons (by decide))
  have hzone : readZone ['Z'] = some 0 := rfl
  have hvalid : ¬(24 < h ∨ 59 < m ∨ (h = 24 ∧ 0 < m + (s * 1000 + ms))) := by omega
  simp only [readTime, hhours, hminutes, hseconds, hzone, Option.bind_eq_bind, Option.bind_some,
    if_neg hvalid, Option.pure_def]
  congr 1

/-- The text of an instant, part by part. -/
theorem toList_iso (t : Instant) :
    t.iso.toList = (isoYear t.day.year).toList ++ '-' :: (padded 2 t.day.month.toNat ++ '-' ::
      (padded 2 t.day.day.toNat ++ 'T' :: (padded 2 t.hour ++ ':' :: (padded 2 t.minute ++ ':' ::
        (padded 2 t.second ++ '.' :: (padded 3 t.millisecond ++ ['Z'])))))) := by
  simp [iso, clock, digits]

/-- **The text of an instant is read as that instant.** -/
theorem ofText?_iso (t : Instant) : ofText? t.iso = some t := by
  have hmonth := Day.month_ofNumber t.dayNumber
  have hday := Day.day_ofNumber t.dayNumber
  have hyears := fun r => readYear_isoYear t.year_natAbs_lt r
  have hmonths := fun r => optionalPart_digits '-' (n := t.day.month.toNat)
    (by unfold day; omega) r
  have hdays := fun r => optionalPart_digits '-' (n := t.day.day.toNat) (by unfold day; omega) r
  have htime := readTime_clock t.hour_lt t.minute_lt t.second_lt t.millisecond_lt
  have hvalid : ¬(t.day.month.toNat < 1 ∨ 12 < t.day.month.toNat ∨ t.day.day.toNat < 1 ∨
      31 < t.day.day.toNat) := by unfold day; omega
  have hnumber : Day.number ⟨t.day.year, t.day.month.toNat, t.day.day.toNat⟩ = t.dayNumber := by
    have hm : ((t.day.month.toNat : Nat) : Int) = t.day.month :=
      Int.toNat_of_nonneg (by unfold day; omega)
    have hd : ((t.day.day.toNat : Nat) : Int) = t.day.day :=
      Int.toNat_of_nonneg (by unfold day; omega)
    rw [hm, hd]
    exact Day.number_ofNumber t.dayNumber
  have hmillis := t.millis_eq
  rw [← t.timeOfDay_eq] at hmillis
  unfold ofText?
  rw [toList_iso]
  simp only [hyears, hmonths, hdays, htime, Option.bind_eq_bind, Option.bind_some,
    Option.isSome_some, if_true, Option.getD_some, if_neg hvalid, hnumber, hmillis]
  simp [ofMillis?, t.inRange]

theorem iso_injective {s t : Instant} (h : s.iso = t.iso) : s = t := by
  have := ofText?_iso s
  rw [h, ofText?_iso t] at this
  exact (Option.some.inj this).symm

/-! ### Where the text of an instant ends -/

theorem ne_of_isDigit {c d : Char} (hc : c.isDigit = true) (hd : d.isDigit = false) : c ≠ d := by
  rintro rfl
  rw [hc] at hd
  exact Bool.noConfusion hd

/-- The text of an instant without its last character. -/
theorem iso_eq_body (t : Instant) : ∃ body : List Char, t.iso.toList = body ++ ['Z'] ∧
    ∀ c ∈ body, (c != 'Z') = true := by
  have hpadded : ∀ {w n : Nat}, ∀ c ∈ padded w n, (c != 'Z') = true := fun c hc => by
    simpa using ne_of_isDigit (isDigit_of_mem_padded hc) (by decide)
  have hyear : ∀ c ∈ (isoYear t.day.year).toList, (c != 'Z') = true := by
    unfold isoYear
    split
    · simpa [digits] using fun c => hpadded (w := 4) c
    · split <;> simpa [digits] using fun c => hpadded (w := 6) c
  refine ⟨(isoYear t.day.year).toList ++ '-' :: (padded 2 t.day.month.toNat ++ '-' ::
    (padded 2 t.day.day.toNat ++ 'T' :: (padded 2 t.hour ++ ':' :: (padded 2 t.minute ++ ':' ::
      (padded 2 t.second ++ '.' :: padded 3 t.millisecond))))), by simp [toList_iso], ?_⟩
  intro c hc
  simp only [List.mem_append, List.mem_cons] at hc
  rcases hc with h | rfl | h | rfl | h | rfl | h | rfl | h | rfl | h | rfl | h
  · exact hyear c h
  all_goals first | rfl | exact hpadded c h

/-- **The text of an instant tells it**, whatever follows. -/
theorem iso_append_inj {s t : Instant} {r r' : List Char}
    (h : s.iso.toList ++ r = t.iso.toList ++ r') : s = t ∧ r = r' := by
  obtain ⟨a, ha, hall⟩ := iso_eq_body s
  obtain ⟨b, hb, hall'⟩ := iso_eq_body t
  rw [ha, hb, List.append_assoc, List.append_assoc] at h
  obtain ⟨rfl, hr⟩ := Text.takeWhile_append_inj (· != 'Z') hall hall' (by decide) (by decide) h
  exact ⟨iso_injective (String.toList_inj.1 (ha.trans hb.symm)), (List.cons.inj hr).2⟩

/-- The text of an instant begins with a digit or a sign. -/
theorem iso_head (t : Instant) : ∃ c r, t.iso.toList = c :: r ∧ (c.isDigit ∨ c = '+' ∨ c = '-') := by
  have hyear : ∃ c r, (isoYear t.day.year).toList = c :: r ∧ (c.isDigit ∨ c = '+' ∨ c = '-') := by
    unfold isoYear
    split
    · have hlen := length_padded (w := 4) (n := t.day.year.toNat) (by decide) (by omega)
      obtain ⟨c, ds, hc⟩ : ∃ c ds, padded 4 t.day.year.toNat = c :: ds :=
        List.exists_cons_of_ne_nil (by rintro h; rw [h] at hlen; simp at hlen)
      refine ⟨c, ds, by simp [digits, hc], Or.inl ?_⟩
      exact isDigit_of_mem_padded (w := 4) (n := t.day.year.toNat) (by rw [hc]; simp)
    · split
      · exact ⟨'-', padded 6 t.day.year.natAbs, by simp [digits], by simp⟩
      · exact ⟨'+', padded 6 t.day.year.natAbs, by simp [digits], by simp⟩
  obtain ⟨c, r, hc, hclass⟩ := hyear
  rw [toList_iso, hc]
  exact ⟨c, _, rfl, hclass⟩

end Instant

end QueryAlgebra
