import QueryAlgebra.Number.Basic

/-!
# The shortest decimal of a number

The amounts that round to a number form an interval. The shortest decimal of the number is the
multiple of the greatest power of ten that lies in the interval, nearest to the number itself.

* `Decimal`: a whole number of times a power of ten.
* `readsBack`: whether a decimal lies in the interval of a count of steps.
* `neighbours`: the two multiples of a power of ten around a count of steps.
* `shortest`: the shortest decimal of a count of steps.
* `shortest_readsBack`: the shortest decimal lies in the interval.
-/

namespace QueryAlgebra

/-- `digits · 10 ^ exponent`. -/
structure Decimal where
  digits   : Nat
  exponent : Int
deriving DecidableEq

namespace Decimal

/-- The spacing of the 53-bit counts at a count of steps. -/
def spacing (u : Nat) : Nat := Nat.pow 2 (u.log2 - 52)

/-- Four times the lower end of the interval of a count; just above a power of two the counts below
lie closer. -/
def lower (u : Nat) : Nat :=
  4 * u - (if u / spacing u = Nat.pow 2 52 ∧ 1 < spacing u then spacing u else 2 * spacing u)

/-- Four times the upper end of the interval of a count. -/
def upper (u : Nat) : Nat := 4 * u + 2 * spacing u

/-- Four times a decimal in steps, multiplied by `scale` to make it whole. -/
def quarters (d : Decimal) : Nat := d.digits * Nat.pow 10 d.exponent.toNat * (4 * stepsPerOne)

/-- What `quarters` is multiplied by. -/
def scale (d : Decimal) : Nat := Nat.pow 10 (-d.exponent).toNat

/-- Whether a decimal rounds to a count of steps: it lies in the interval, whose ends belong to it
when the last bit of the count is even. -/
def readsBack (u : Nat) (d : Decimal) : Bool :=
  if u / spacing u % 2 = 0 then
    decide (lower u * d.scale ≤ d.quarters) && decide (d.quarters ≤ upper u * d.scale)
  else
    decide (lower u * d.scale < d.quarters) && decide (d.quarters < upper u * d.scale)

/-- The two multiples of `10 ^ p` around a count of steps, the nearer one first. -/
def neighbours (u : Nat) (p : Int) : List Decimal :=
  let num := u * Nat.pow 10 (-p).toNat
  let den := stepsPerOne * Nat.pow 10 p.toNat
  let kept := num / den
  let rest := num % den
  if den < 2 * rest ∨ (2 * rest = den ∧ kept % 2 = 1) then [⟨kept + 1, p⟩, ⟨kept, p⟩]
  else [⟨kept, p⟩, ⟨kept + 1, p⟩]

/-- All digits of a count of steps. -/
def exact (u : Nat) : Decimal := ⟨u * Nat.pow 5 leastPower, -leastPower⟩

/-- How many times a count below one must be multiplied by ten to reach one. -/
def leadingZeros : Nat → Nat → Nat
  | 0,        _ => 0
  | fuel + 1, u => if stepsPerOne ≤ u then 0 else leadingZeros fuel (u * 10) + 1

/-- The power of ten of the leading digit of a count of steps. -/
def leading (u : Nat) : Int :=
  if stepsPerOne ≤ u then ((Nat.toDigits 10 (u / stepsPerOne)).length : Int) - 1
  else -(leadingZeros 400 u : Int)

/-- The first neighbour that rounds to the count, on the grids from `10 ^ p` downwards; all digits
of the count when none of the first grids has one. -/
def search : Nat → Nat → Int → Decimal
  | 0,        u, _ => exact u
  | fuel + 1, u, p => ((neighbours u p).find? (readsBack u)).getD (search fuel u (p - 1))

/-- The shortest decimal that rounds to a positive count of steps. -/
def shortest (u : Nat) : Decimal := search 20 u (leading u + 1)

theorem pow_ten (n : Nat) : Nat.pow 10 n = Nat.pow 5 n * Nat.pow 2 n := Nat.mul_pow 5 2 n

theorem quarters_exact (u : Nat) : quarters (exact u) = 4 * u * scale (exact u) := by
  unfold quarters scale exact stepsPerOne
  dsimp only
  generalize leastPower = n
  have h0 : (-(n : Int)).toNat = 0 := by omega
  have h1 : (-(-(n : Int))).toNat = n := by omega
  have one : Nat.pow 10 0 = 1 := rfl
  rw [h0, h1, one, pow_ten, Nat.mul_one]
  simp only [Nat.mul_assoc, Nat.mul_comm, Nat.mul_left_comm]

/-- All digits of a positive count lie inside its interval. -/
theorem readsBack_exact {u : Nat} (h : 0 < u) : readsBack u (exact u) = true := by
  have hs : 0 < spacing u := Nat.two_pow_pos _
  have hle : spacing u ≤ u := by
    refine Nat.le_trans ?_ (Nat.log2_self_le (Nat.pos_iff_ne_zero.1 h))
    exact Nat.pow_le_pow_right (by decide) (Nat.sub_le _ _)
  have hp : 0 < scale (exact u) := Nat.pow_pos (by decide)
  have hl : lower u < 4 * u := by unfold lower; split <;> omega
  have hu : 4 * u < upper u := by unfold upper; omega
  have hl' := Nat.mul_lt_mul_of_pos_right hl hp
  have hu' := Nat.mul_lt_mul_of_pos_right hu hp
  unfold readsBack
  rw [quarters_exact]
  split <;> simp only [Bool.and_eq_true, decide_eq_true_eq]
  · exact ⟨Nat.le_of_lt hl', Nat.le_of_lt hu'⟩
  · exact ⟨hl', hu'⟩

theorem search_readsBack {u : Nat} (h : 0 < u) (fuel : Nat) (p : Int) :
    readsBack u (search fuel u p) = true := by
  induction fuel generalizing p with
  | zero => exact readsBack_exact h
  | succ fuel ih =>
    unfold search
    cases hf : (neighbours u p).find? (readsBack u) with
    | none => exact ih _
    | some d => exact List.find?_some hf

/-- The shortest decimal rounds to the count it stands for. -/
theorem shortest_readsBack {u : Nat} (h : 0 < u) : readsBack u (shortest u) = true :=
  search_readsBack h _ _

end Decimal

end QueryAlgebra
