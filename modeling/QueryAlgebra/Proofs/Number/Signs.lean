import QueryAlgebra.Proofs.Number.Places

/-!
# The sign of a sum

Rounding takes no sum that is not zero to zero, and no sum across it. So the difference of two numbers
stands before, at or behind zero as the first number stands before, at or behind the second one; only
two infinities have no difference.

* `Number.position_ofRatio_total`: rounding keeps the sign of a whole count of steps.
* `Number.position_add`: the sign of a sum.
* `Number.position_eq_iff`: numbers at one place differ at most in the sign of a zero.
-/

namespace QueryAlgebra

namespace Number

/-- Rounding an integral count of steps keeps its sign. -/
theorem position_ofRatio_total {total p : Int} {negative : Bool}
    (h : (ofRatio (if total = 0 then negative else decide (total < 0)) total.natAbs 1).position? =
      some p) : (p < 0 ↔ total < 0) ∧ (0 < p ↔ 0 < total) := by
  rw [position_ofRatio] at h
  obtain rfl := Option.some.inj h
  have one : Sparse 1 := ⟨1, 0, by decide, rfl⟩
  have zero : Sparse 0 := ⟨0, 0, by decide, rfl⟩
  have up : 1 ≤ total.natAbs → 1 ≤ nearest total.natAbs 1 := le_nearest one
  have down : total.natAbs ≤ 0 → nearest total.natAbs 1 ≤ 0 := nearest_le zero
  have limit := stepsLimit_pos
  generalize nearest total.natAbs 1 = rounded at *
  generalize stepsLimit = limit at *
  rcases lt_trichotomy total 0 with below | rfl | above
  · rw [if_neg below.ne, decide_eq_true below, if_pos rfl]
    omega
  · obtain rfl : rounded = 0 := by simpa using down
    cases negative <;> simp
  · rw [if_neg above.ne', decide_eq_false above.not_gt, if_neg Bool.false_ne_true]
    omega

theorem position_finite {negative : Bool} {m : Magnitude} {u : Int}
    (h : (finite negative m).position? = some u) : m.signed negative = u ∧ u.natAbs < stepsLimit := by
  obtain rfl := Option.some.inj h
  have small := m.small
  cases negative <;> simpa [Magnitude.signed] using small

theorem position_neg {x : Number} {u : Int} (h : x.position? = some u) : x.neg.position? = some (-u) := by
  cases x with
  | nan => cases h
  | infinite a =>
    obtain rfl := Option.some.inj h
    cases a with
    | false => rfl
    | true => exact congrArg some (neg_neg _).symm
  | finite a m =>
    obtain rfl := Option.some.inj h
    cases a <;> simp [neg, position?, Magnitude.signed]

/-- The sum of two numbers is before, at or behind zero as the sum of their counts of steps is, unless
they are the two infinities. -/
theorem position_add {x y : Number} {u v : Int} (hx : x.position? = some u) (hy : y.position? = some v)
    (apart : ¬(x = y.neg ∧ x.isFinite = false)) :
    ∃ p, (x.add y).position? = some p ∧ (p < 0 ↔ u + v < 0) ∧ (0 < p ↔ 0 < u + v) := by
  have limit := stepsLimit_pos
  cases x with
  | nan => cases hx
  | infinite a =>
    obtain rfl := Option.some.inj hx
    cases y with
    | nan => cases hy
    | infinite b =>
      obtain rfl := Option.some.inj hy
      obtain rfl : a = b := by
        cases a <;> cases b <;> simp [neg, isFinite] at apart <;> rfl
      have sum : (infinite a).add (infinite a) = infinite a := if_pos rfl
      rw [sum]
      refine ⟨_, rfl, ?_⟩
      split <;> omega
    | finite b n =>
      obtain ⟨-, small⟩ := position_finite hy
      refine ⟨_, rfl, ?_⟩
      split <;> omega
  | finite a m =>
    cases y with
    | nan => cases hy
    | infinite b =>
      obtain ⟨-, small⟩ := position_finite hx
      obtain rfl := Option.some.inj hy
      refine ⟨_, rfl, ?_⟩
      split <;> omega
    | finite b n =>
      obtain rfl := (position_finite hx).1
      obtain rfl := (position_finite hy).1
      exact ⟨_, position_ofRatio .., position_ofRatio_total (position_ofRatio ..)⟩

theorem eq_infinite_of_unsignedZero {n : Number} {negative : Bool}
    (h : n.unsignedZero = infinite negative) : n = infinite negative := by
  cases n with
  | nan => exact h
  | infinite s => exact h
  | finite s m =>
    unfold unsignedZero at h
    split at h <;> cases h

/-- Numbers stand at one integer exactly when they differ at most in the sign of a zero. -/
theorem position_eq_iff {x y : Number} {u v : Int} (hx : x.position? = some u)
    (hy : y.position? = some v) : u = v ↔ x.unsignedZero = y.unsignedZero := by
  have limit := stepsLimit_pos
  cases x with
  | nan => cases hx
  | infinite a =>
    obtain rfl := Option.some.inj hx
    cases y with
    | nan => cases hy
    | infinite b =>
      obtain rfl := Option.some.inj hy
      generalize stepsLimit = limit at *
      cases a <;> cases b <;> simp [unsignedZero, isZero] <;> omega
    | finite b n =>
      obtain ⟨-, small⟩ := position_finite hy
      refine iff_of_false ?_ fun h => by cases eq_infinite_of_unsignedZero h.symm
      split <;> omega
  | finite a m =>
    cases y with
    | nan => cases hy
    | infinite b =>
      obtain ⟨-, small⟩ := position_finite hx
      obtain rfl := Option.some.inj hy
      refine iff_of_false ?_ fun h => by cases eq_infinite_of_unsignedZero h
      split <;> omega
    | finite b n =>
      obtain rfl := (position_finite hx).1
      obtain rfl := (position_finite hy).1
      obtain ⟨j, jh, js⟩ := m
      obtain ⟨k, kh, ks⟩ := n
      cases a <;> cases b <;> by_cases hj : j = 0 <;> by_cases hk : k = 0 <;>
        simp [unsignedZero, isZero, abs, Magnitude.signed, hj, hk] <;> omega

end Number

end QueryAlgebra
