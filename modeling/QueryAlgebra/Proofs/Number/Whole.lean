import QueryAlgebra.Proofs.Number.Text
import QueryAlgebra.Value.Coerce

/-!
# Natural numbers among the numbers

* `Number.Exact`: a natural number that is a number.
* `Number.ofNat_of_steps`: it is the number nearest to itself.
* `Number.ofNat_text_injective`: such natural numbers are told apart by their texts.
* `Value.natural?_eq_some`: which values are natural numbers.
* `Value.exact_of_natural?`: the natural number that a value is, is a number.
-/

namespace QueryAlgebra

namespace Number

/-- The natural number is a number: it has few enough significant bits and is small enough. -/
def Exact (n : Nat) : Prop := ∃ m : Magnitude, m.steps = n * stepsPerOne

/-- A natural number that is a number is the nearest one to itself. -/
theorem ofNat_of_steps {n : Nat} {m : Magnitude} (h : m.steps = n * stepsPerOne) :
    ofNat n = .finite false m := by
  have hself := nearest_self m.sparse (show 0 < 1 by decide)
  rw [Nat.mul_one] at hself
  unfold ofNat
  rw [← h]
  exact ofRatio_eq false m hself

theorem unsignedZero_positive (m : Magnitude) : unsignedZero (.finite false m) = .finite false m := by
  unfold unsignedZero
  split <;> rfl

/-- Without a sign zero has none to lose. -/
theorem unsignedZero_unsignedZero (n : Number) : n.unsignedZero.unsignedZero = n.unsignedZero := by
  cases n with
  | finite a m => by_cases zero : m.steps = 0 <;> simp [unsignedZero, isZero, abs, zero]
  | _ => rfl

theorem ofNat_text_injective {a b : Nat} (ha : Exact a) (hb : Exact b)
    (h : (ofNat a).text = (ofNat b).text) : a = b := by
  obtain ⟨m, hm⟩ := ha
  obtain ⟨n, hn⟩ := hb
  have hsame := text_eq_text_iff.1 h
  rw [ofNat_of_steps hm, ofNat_of_steps hn, unsignedZero_positive, unsignedZero_positive] at hsame
  have hmn : m = n := (Number.finite.inj hsame).2
  rw [hmn, hn] at hm
  exact (Nat.eq_of_mul_eq_mul_right stepsPerOne_pos hm).symm

theorem lt_zero (negative : Bool) (m : Magnitude) :
    (finite negative m).lt (ofNat 0) = true ↔ m.signed negative < 0 := by
  have zero : ofNat 0 = .finite false ⟨0, ⟨0, 0, by decide, by simp⟩, stepsLimit_pos⟩ :=
    ofNat_of_steps (by simp)
  rw [zero]
  simp [lt, compare?, position?, Magnitude.signed, Int.compare_eq_lt]

end Number

/-- A value is a natural number if it is a number of that many ones, which has no sign unless it is a
zero. -/
theorem Value.natural?_eq_some {v : Value} {n : Nat} : v.natural? = some n ↔
    ∃ negative m, v = .number (.finite negative m) ∧ m.steps = n * stepsPerOne ∧
      (negative = true → n = 0) := by
  constructor
  · intro h
    cases v with
    | number x =>
      cases x with
      | finite negative m =>
        obtain ⟨passes, read⟩ := Option.ite_none_right_eq_some.1 h
        obtain ⟨whole, above⟩ := Bool.and_eq_true_iff.1 passes
        have parts : m.steps / stepsPerOne * stepsPerOne = m.steps :=
          Nat.div_mul_cancel (Nat.dvd_of_mod_eq_zero (beq_iff_eq.1 whole))
        simp only [Number.toInt?, Option.map_some, Option.some.injEq] at read
        refine ⟨negative, m, rfl, ?_⟩
        cases negative with
        | false =>
          simp only [Bool.false_eq_true, if_false, Int.toNat_natCast] at read
          exact ⟨by rw [← read, parts], nofun⟩
        | true =>
          -- Below zero there is only the other zero.
          have zero : m.steps = 0 := by
            have least : ¬m.signed true < 0 := fun below => by
              simp [(Number.lt_zero true m).2 below] at above
            simp only [Magnitude.signed, if_true] at least
            omega
          obtain rfl : 0 = n := by simpa [zero] using read
          exact ⟨by simp [zero], fun _ => rfl⟩
      | _ => simp [natural?, Number.isWhole] at h
    | _ => simp [natural?] at h
  · rintro ⟨negative, m, rfl, steps, unsigned⟩
    have whole : (Number.finite negative m).isWhole = true := by simp [Number.isWhole, steps]
    have count : m.steps / stepsPerOne = n := by
      rw [steps, Nat.mul_div_cancel _ Number.stepsPerOne_pos]
    have above : (Number.finite negative m).lt (.ofNat 0) = false := by
      refine Bool.eq_false_iff.2 fun below => ?_
      have below := (Number.lt_zero negative m).1 below
      cases negative with
      | false =>
        simp only [Magnitude.signed, Bool.false_eq_true, if_false] at below
        omega
      | true => simp [Magnitude.signed, steps, unsigned rfl] at below
    cases negative with
    | false => simp [natural?, whole, above, Number.toInt?, count]
    | true => simp [natural?, whole, above, Number.toInt?, count, unsigned rfl]

/-- **The natural number that a value is, is a number.** -/
theorem Value.exact_of_natural? {v : Value} {n : Nat} (h : v.natural? = some n) :
    Number.Exact n := by
  obtain ⟨_, m, -, steps, -⟩ := Value.natural?_eq_some.1 h
  exact ⟨m, steps⟩

end QueryAlgebra
