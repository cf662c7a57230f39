import QueryAlgebra.Proofs.Number.Rounding

/-!
# Whole numbers among the numbers

Sums, differences, products and remainders of whole numbers are whole, however they are rounded: the
grid that a count of steps is rounded on fits into the steps of one, or they into it. Only what is
too large, or no number at all, is no longer whole.

* `Number.Integral`: a number that is whole if it is finite.
* `nearest_whole`: a whole number of ones is rounded to a whole number of ones.
* `Number.Integral.add`, `Number.Integral.sub`, `Number.Integral.mul`, `Number.Integral.rem`:
  arithmetic keeps numbers whole.
* `Number.integral_trunc`, `Number.integral_floor`, `Number.integral_ceil`: rounding makes them so.
-/

namespace QueryAlgebra

/-- Rounding to few bits keeps the zeros at the end of a count. -/
theorem pow_dvd_nearest {p num : Nat} (zeros : 2 ^ p ∣ num) : 2 ^ p ∣ nearest num 1 := by
  unfold nearest
  simp only [natPow, Nat.one_mul, Nat.div_one]
  generalize num.log2 - 52 = spacing
  rcases Nat.le_total spacing p with fine | coarse
  · -- All bits that rounding would cut off are zeros.
    have onGrid : 2 ^ spacing ∣ num := (Nat.pow_dvd_pow 2 fine).trans zeros
    have above : 0 < 2 ^ spacing := Nat.two_pow_pos spacing
    have exact : ¬(2 ^ spacing < 2 * (num % 2 ^ spacing) ∨
        (2 * (num % 2 ^ spacing) = 2 ^ spacing ∧ num / 2 ^ spacing % 2 = 1)) := by
      rw [Nat.mod_eq_zero_of_dvd onGrid]
      omega
    rw [if_neg exact, Nat.div_mul_cancel onGrid]
    exact zeros
  · -- Every point of the grid ends in that many zeros.
    have point : 2 ^ p ∣ 2 ^ spacing := Nat.pow_dvd_pow 2 coarse
    split
    · exact Dvd.dvd.mul_left point _
    · exact Dvd.dvd.mul_left point _

/-- **A whole number of ones is rounded to a whole number of ones.** -/
theorem nearest_whole {num : Nat} (whole : stepsPerOne ∣ num) : stepsPerOne ∣ nearest num 1 := by
  unfold stepsPerOne at *
  generalize leastPower = p at *
  exact pow_dvd_nearest whole

/-- A product counts the steps of both factors: it is as many steps as one factor has ones. -/
theorem nearest_product {m q c : Nat} (hc : 0 < c) :
    nearest (m * (c * q)) c = nearest (m * q) 1 := by
  have cancelled := nearest_mul_right (m * q) 1 hc
  rwa [Nat.one_mul, Nat.mul_assoc, Nat.mul_comm q] at cancelled

/-- A whole magnitude is a whole number of ones whatever its sign. -/
theorem Magnitude.dvd_signed {m : Magnitude} (whole : stepsPerOne ∣ m.steps) (negative : Bool) :
    (stepsPerOne : Int) ∣ m.signed negative := by
  unfold Magnitude.signed
  split
  · exact Int.dvd_neg.2 (Int.natCast_dvd_natCast.2 whole)
  · exact Int.natCast_dvd_natCast.2 whole

namespace Number

/-- The number is whole if it is finite. -/
inductive Integral : Number → Prop where
  | nan : Integral .nan
  | infinite (negative : Bool) : Integral (.infinite negative)
  | finite (negative : Bool) {m : Magnitude} (whole : stepsPerOne ∣ m.steps) :
    Integral (.finite negative m)

theorem integral_iff {n : Number} : n.Integral ↔ (n.isFinite = true → n.isWhole = true) := by
  constructor
  · rintro (_ | _ | ⟨_, whole⟩) finite
    · cases finite
    · cases finite
    · exact beq_iff_eq.2 (Nat.mod_eq_zero_of_dvd whole)
  · intro whole
    cases n with
    | nan => exact .nan
    | infinite negative => exact .infinite negative
    | finite negative m => exact .finite negative (Nat.dvd_of_mod_eq_zero (beq_iff_eq.1 (whole rfl)))

instance (n : Number) : Decidable n.Integral := decidable_of_iff _ integral_iff.symm

theorem integral_ofRatio {negative : Bool} {num den : Nat}
    (whole : stepsPerOne ∣ nearest num den) : (ofRatio negative num den).Integral := by
  by_cases small : nearest num den < stepsLimit
  · rw [ofRatio, dif_pos small]
    exact .finite _ whole
  · rw [ofRatio, dif_neg small]
    exact .infinite _

/-- The number nearest to a whole number of ones is whole. -/
theorem integral_ofRatio_one {negative : Bool} {num : Nat} (whole : stepsPerOne ∣ num) :
    (ofRatio negative num 1).Integral := integral_ofRatio (nearest_whole whole)

theorem integral_ofNat (n : Nat) : (ofNat n).Integral := integral_ofRatio_one (Nat.dvd_mul_left _ _)

theorem integral_ofInt (i : Int) : (ofInt i).Integral := integral_ofRatio_one (Nat.dvd_mul_left _ _)

/-! ### Rounding -/

theorem integral_trunc (n : Number) : n.trunc.Integral := by
  cases n with
  | nan => exact .nan
  | infinite negative => exact .infinite negative
  | finite => exact integral_ofRatio_one (Nat.dvd_mul_left _ _)

/-- A whole number has no fraction to cut off. -/
theorem trunc_of_isWhole {n : Number} (whole : n.isWhole = true) : n.trunc = n := by
  cases n with
  | finite a m =>
    have ones : m.steps / stepsPerOne * stepsPerOne = m.steps :=
      Nat.div_mul_cancel (Nat.dvd_of_mod_eq_zero (beq_iff_eq.1 whole))
    have itself := nearest_self m.sparse Nat.one_pos
    rw [Nat.mul_one] at itself
    rw [trunc, ones]
    exact ofRatio_eq a m itself
  | _ => rfl

theorem isFinite_of_isWhole {n : Number} (whole : n.isWhole = true) : n.isFinite = true := by
  cases n with
  | finite => rfl
  | _ => cases whole

theorem integral_awayFromZero (n : Number) : n.awayFromZero.Integral := by
  cases n with
  | nan => exact .nan
  | infinite negative => exact .infinite negative
  | finite => exact integral_ofRatio_one (Nat.dvd_mul_left _ _)

theorem integral_floor (n : Number) : n.floor.Integral := by
  unfold floor
  split
  · exact integral_awayFromZero n
  · exact integral_trunc n

theorem integral_ceil (n : Number) : n.ceil.Integral := by
  unfold ceil
  split
  · exact integral_trunc n
  · exact integral_awayFromZero n

/-! ### Arithmetic -/

namespace Integral

variable {a b : Number}

theorem neg : a.Integral → a.neg.Integral
  | .nan            => .nan
  | .infinite n     => .infinite !n
  | .finite n whole => .finite (!n) whole

theorem abs : a.Integral → a.abs.Integral
  | .nan            => .nan
  | .infinite _     => .infinite false
  | .finite _ whole => .finite false whole

theorem unsignedZero (ha : a.Integral) : a.unsignedZero.Integral := by
  unfold Number.unsignedZero
  split
  · exact ha.abs
  · exact ha

theorem add : a.Integral → b.Integral → (a.add b).Integral
  | .nan, _ => .nan
  | .infinite _, .nan => .nan
  | .finite .., .nan => .nan
  | .infinite x, .infinite y => by
    unfold Number.add
    dsimp only
    split
    · exact .infinite x
    · exact .nan
  | .infinite x, .finite .. => .infinite x
  | .finite .., .infinite y => .infinite y
  | .finite x hm, .finite y hn => by
    have total := Int.dvd_add (Magnitude.dvd_signed hm x) (Magnitude.dvd_signed hn y)
    exact integral_ofRatio_one (Int.natCast_dvd.1 total)

theorem sub (ha : a.Integral) (hb : b.Integral) : (a.sub b).Integral := ha.add hb.neg

theorem mul : a.Integral → b.Integral → (a.mul b).Integral
  | .nan, _ => .nan
  | .infinite _, .nan => .nan
  | .finite .., .nan => .nan
  | .infinite x, .infinite y => .infinite (x != y)
  | .infinite x, .finite y _ => by
    unfold Number.mul
    dsimp only
    split
    · exact .nan
    · exact .infinite _
  | .finite x _, .infinite y => by
    unfold Number.mul
    dsimp only
    split
    · exact .nan
    · exact .infinite _
  | .finite x hm, .finite y ⟨q, hq⟩ => by
    -- The product of the steps counts steps of steps, so one factor is taken in ones.
    refine integral_ofRatio ?_
    rw [hq, nearest_product stepsPerOne_pos]
    exact nearest_whole (Dvd.dvd.mul_right hm q)

theorem rem : a.Integral → b.Integral → (a.rem b).Integral
  | .nan, _ => .nan
  | .infinite _, .nan => .nan
  | .infinite _, .infinite _ => .nan
  | .infinite _, .finite .. => .nan
  | .finite .., .nan => .nan
  | .finite x hm, .infinite _ => .finite x hm
  | .finite x hm, .finite y hn => by
    unfold Number.rem
    dsimp only
    split
    · exact .nan
    · exact integral_ofRatio_one ((Nat.dvd_mod_iff hn).2 hm)

end Integral

end Number

end QueryAlgebra
