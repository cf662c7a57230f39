import QueryAlgebra.Proofs.Number.Whole

/-!
# Numbers among small integers

Rounding passes over no count with few bits: what is not below such a count is rounded to no less, and
what is not above it to no more. So a sum stands among the integers up to `2^53` as the exact sum does,
however large its parts are, and comparing it with one of them tells how the exact sum compares.

* `le_nearest`, `nearest_le`: rounding passes over no count with few bits.
* `Number.Denotes`: a number that is an integer.
* `Number.Near`: a number that stands among the integers up to a bound as an integer does.
* `Number.Denotes.add`, `Number.Near.add`: sums do.
* `Number.Near.lt_iff`, `Number.Near.gt_iff`: comparison with a small integer.
-/

namespace QueryAlgebra

/-! ### Rounding among counts with few bits -/

/-- A count with few bits stands on the grid on which another count is rounded, or below a power of two
that is not above the other count. -/
theorem Sparse.on_grid {w : Nat} (h : Sparse w) (num : Nat) : 2 ^ (num.log2 - 52) ∣ w ∨
    w < 2 ^ 52 * 2 ^ (num.log2 - 52) ∧ 2 ^ 52 * 2 ^ (num.log2 - 52) ≤ num := by
  obtain ⟨j, s, hj, rfl⟩ := h
  simp only [natPow] at hj ⊢
  rcases Nat.le_total (num.log2 - 52) s with fine | coarse
  · exact .inl ((Nat.pow_dvd_pow 2 fine).trans (Nat.dvd_mul_left _ _))
  · by_cases same : num.log2 - 52 = s
    · exact .inl (same ▸ Nat.dvd_mul_left _ _)
    -- The grid is coarser than the count, so the other count has more than 53 bits.
    · have finer : s + 1 ≤ num.log2 - 52 := by omega
      have large : num ≠ 0 := by
        rintro rfl
        simp at finer
      refine .inr ⟨?_, ?_⟩
      · calc j * 2 ^ s < 2 ^ 53 * 2 ^ s := Nat.mul_lt_mul_of_pos_right hj (Nat.two_pow_pos s)
          _ = 2 ^ 52 * 2 ^ (s + 1) := by ring
          _ ≤ 2 ^ 52 * 2 ^ (num.log2 - 52) :=
            Nat.mul_le_mul_left _ (Nat.pow_le_pow_right (by decide) finer)
      · rw [← Nat.pow_add, show 52 + (num.log2 - 52) = num.log2 by omega]
        exact Nat.log2_self_le large

/-- **Rounding goes down to no less than a count with few bits.** -/
theorem le_nearest {w num : Nat} (hw : Sparse w) (h : w ≤ num) : w ≤ nearest num 1 := by
  have kept : w ≤ num / 2 ^ (num.log2 - 52) * 2 ^ (num.log2 - 52) := by
    have positive := Nat.two_pow_pos (num.log2 - 52)
    rcases hw.on_grid num with ⟨q, rfl⟩ | ⟨below, above⟩
    · rw [Nat.mul_comm] at h ⊢
      exact Nat.mul_le_mul_right _ ((Nat.le_div_iff_mul_le positive).2 h)
    · exact below.le.trans (Nat.mul_le_mul_right _ ((Nat.le_div_iff_mul_le positive).2 above))
  unfold nearest
  simp only [natPow, Nat.one_mul, Nat.div_one]
  split
  · exact kept.trans (Nat.mul_le_mul_right _ (Nat.le_succ _))
  · exact kept

/-- **Rounding goes up to no more than a count with few bits.** -/
theorem nearest_le {w num : Nat} (hw : Sparse w) (h : num ≤ w) : nearest num 1 ≤ w := by
  unfold nearest
  simp only [natPow, Nat.one_mul, Nat.div_one]
  have parts := Nat.div_add_mod' num (2 ^ (num.log2 - 52))
  have positive := Nat.two_pow_pos (num.log2 - 52)
  rcases hw.on_grid num with ⟨q, rfl⟩ | ⟨below, above⟩
  · generalize 2 ^ (num.log2 - 52) = grain at *
    split
    · -- What is rounded up is not on the grid, so the next point of the grid is at most the count.
      have less : num / grain * grain < q * grain := by
        rw [Nat.mul_comm q]
        omega
      rw [Nat.mul_comm grain q]
      exact Nat.mul_le_mul_right _ (Nat.lt_of_mul_lt_mul_right less)
    · omega
  · omega

namespace Number

/-- Cutting the fraction off a finite number gives a finite one. -/
theorem isFinite_trunc {n : Number} (h : n.isFinite = true) : n.trunc.isFinite = true := by
  cases n with
  | finite a m =>
    have below : nearest (m.steps / stepsPerOne * stepsPerOne) 1 ≤ m.steps :=
      nearest_le m.sparse (Nat.div_mul_le_self _ _)
    rw [trunc, ofRatio, dif_pos (Nat.lt_of_le_of_lt below m.small)]
    rfl
  | _ => cases h

/-! ### Integers -/

/-- The number is an integer. -/
inductive Denotes : Number → Int → Prop where
  | mk (negative : Bool) {m : Magnitude} {i : Int} (h : m.signed negative = i * stepsPerOne) :
    Denotes (.finite negative m) i

theorem Denotes.position {x : Number} {i : Int} : x.Denotes i → x.position? = some (i * stepsPerOne)
  | .mk _ h => congrArg some h

/-- A whole number is the integer that is read from it. -/
theorem denotes_of_toInt? {x : Number} {i : Int} (whole : x.isWhole = true)
    (h : x.toInt? = some i) : x.Denotes i := by
  cases x with
  | nan => cases h
  | infinite negative => cases h
  | finite negative m =>
    obtain rfl := Option.some.inj h
    have split : m.steps / stepsPerOne * stepsPerOne = m.steps :=
      Nat.div_mul_cancel (Nat.dvd_of_mod_eq_zero (beq_iff_eq.1 whole))
    refine .mk negative ?_
    generalize m.steps / stepsPerOne = q at *
    unfold Magnitude.signed
    rw [← split]
    generalize stepsPerOne = unit
    cases negative <;> simp

theorem denotes_of_isWhole {x : Number} (whole : x.isWhole = true) : ∃ i, x.Denotes i := by
  cases x with
  | nan => cases whole
  | infinite negative => cases whole
  | finite negative m => exact ⟨_, denotes_of_toInt? whole rfl⟩

theorem Denotes.toInt? {x : Number} {i : Int} (h : x.Denotes i) : x.toInt? = some i := by
  obtain ⟨negative, h⟩ := h
  rename_i m
  have positive : (stepsPerOne : Int) ≠ 0 := Int.natCast_ne_zero.2 stepsPerOne_pos.ne'
  unfold Magnitude.signed at h
  simp only [Number.toInt?, Int.natCast_ediv]
  cases negative with
  | true =>
    have size : (m.steps : Int) = -i * stepsPerOne := by
      rw [Int.neg_mul, ← h, if_pos rfl, Int.neg_neg]
    rw [size, Int.mul_ediv_cancel _ positive, if_pos rfl, Int.neg_neg]
  | false =>
    have size : (m.steps : Int) = i * stepsPerOne := h
    rw [size, Int.mul_ediv_cancel _ positive]
    rfl

/-! ### Order -/

theorem lt_iff {x y : Number} {u v : Int} (hx : x.position? = some u) (hy : y.position? = some v) :
    x.lt y = true ↔ u < v := by
  simp only [lt, compare?, hx, hy, beq_iff_eq, Option.some.injEq]
  exact Int.compare_eq_lt

/-- The number stands among the integers up to a bound as an integer does. -/
def Near (bound : Nat) (x : Number) (i : Int) : Prop :=
  ∃ u, x.position? = some u ∧ ∀ k : Int, k.natAbs ≤ bound →
    (k ≤ i → k * stepsPerOne ≤ u) ∧ (i ≤ k → u ≤ k * stepsPerOne)

section

variable {bound : Nat} {x y : Number} {i j : Int}

theorem Denotes.near (h : x.Denotes i) : x.Near bound i :=
  ⟨_, h.position, fun _ _ => ⟨fun low => Int.mul_le_mul_of_nonneg_right low (Int.natCast_nonneg _),
    fun high => Int.mul_le_mul_of_nonneg_right high (Int.natCast_nonneg _)⟩⟩

/-- A number is below a small integer exactly if the integer that it stands for is. -/
theorem Near.lt_iff (hx : x.Near bound i) (hy : y.Denotes j) (small : j.natAbs < bound) :
    x.lt y = true ↔ i < j := by
  obtain ⟨u, position, among⟩ := hx
  have positive : (0 : Int) < stepsPerOne := Int.natCast_pos.2 stepsPerOne_pos
  rw [Number.lt_iff position hy.position]
  constructor
  · intro below
    by_contra high
    have := (among j small.le).1 (by omega)
    omega
  · intro below
    have next := (among (j - 1) (by omega)).2 (by omega)
    rw [Int.sub_mul, Int.one_mul] at next
    omega

/-- A number is above a small integer exactly if the integer that it stands for is. -/
theorem Near.gt_iff (hx : x.Near bound i) (hy : y.Denotes j) (small : j.natAbs < bound) :
    y.lt x = true ↔ j < i := by
  obtain ⟨u, position, among⟩ := hx
  have positive : (0 : Int) < stepsPerOne := Int.natCast_pos.2 stepsPerOne_pos
  rw [Number.lt_iff hy.position position]
  constructor
  · intro above
    by_contra low
    have := (among j small.le).2 (by omega)
    omega
  · intro above
    have next := (among (j + 1) (by omega)).1 (by omega)
    rw [Int.add_mul, Int.one_mul] at next
    omega

end

/-! ### Rounded counts -/

/-- Where a rounded count stands: beyond the largest number it is infinite. -/
theorem position_ofRatio (negative : Bool) (num den : Nat) :
    (ofRatio negative num den).position? = some (if negative = true
      then -((min (nearest num den) stepsLimit : Nat) : Int)
      else (min (nearest num den) stepsLimit : Nat)) := by
  unfold ofRatio
  split
  · rename_i small
    rw [Nat.min_eq_left small.le]
    rfl
  · rename_i large
    rw [Nat.min_eq_right (Nat.le_of_not_lt large)]
    rfl

/-- A small integer has few bits and is no infinity. -/
theorem small_steps {k : Int} (h : k.natAbs ≤ 2 ^ 53) :
    Sparse (k * stepsPerOne).natAbs ∧ (k * stepsPerOne).natAbs < stepsLimit := by
  rw [Int.natAbs_mul, Int.natAbs_natCast]
  have bits : Sparse (k.natAbs * stepsPerOne) := by
    unfold stepsPerOne
    generalize leastPower = s
    exact sparse_of_le s h
  have below : k.natAbs < Nat.pow 2 1024 := h.trans_lt (by decide +kernel)
  unfold stepsLimit
  generalize Nat.pow 2 1024 = limit at *
  exact ⟨bits, Nat.mul_lt_mul_of_pos_right below stepsPerOne_pos⟩

/-- A number that stands among small integers as one of them is that integer. -/
theorem Near.denotes {bound : Nat} {x : Number} {i : Int} (h : x.Near bound i)
    (inside : i.natAbs ≤ bound) (small : bound ≤ 2 ^ 53) : x.Denotes i := by
  obtain ⟨u, position, among⟩ := h
  obtain rfl : u = i * stepsPerOne :=
    Int.le_antisymm ((among i inside).2 le_rfl) ((among i inside).1 le_rfl)
  have limit := (@small_steps i (inside.trans small)).2
  cases x with
  | nan => cases position
  | infinite negative =>
    have beyond := Option.some.inj position
    cases negative <;> simp only [Bool.false_eq_true, if_false, if_true] at beyond <;> omega
  | finite negative m => exact .mk negative (Option.some.inj position)

/-- **A rounded count stands among small integers as the count does.** -/
theorem position_among {negative : Bool} {total : Int} (below : negative = true → total ≤ 0)
    (above : negative ≠ true → 0 ≤ total) :
    ∃ u, (ofRatio negative total.natAbs 1).position? = some u ∧
      ∀ k : Int, k.natAbs ≤ 2 ^ 53 → (k * stepsPerOne ≤ total → k * stepsPerOne ≤ u) ∧
        (total ≤ k * stepsPerOne → u ≤ k * stepsPerOne) := by
  refine ⟨_, position_ofRatio _ _ _, fun k hk => ?_⟩
  obtain ⟨sparse, small⟩ := small_steps hk
  generalize k * (stepsPerOne : Int) = c at *
  have down : c.natAbs ≤ total.natAbs → c.natAbs ≤ nearest total.natAbs 1 := le_nearest sparse
  have up : total.natAbs ≤ c.natAbs → nearest total.natAbs 1 ≤ c.natAbs := nearest_le sparse
  generalize nearest total.natAbs 1 = rounded at *
  split
  · have := below ‹_›
    omega
  · have := above ‹_›
    omega

/-- Natural numbers up to `2^53` are numbers. -/
theorem denotes_ofNat {n : Nat} (small : n ≤ 2 ^ 53) : (ofNat n).Denotes n := by
  have steps := @small_steps n small
  rw [Int.natAbs_mul, Int.natAbs_natCast, Int.natAbs_natCast] at steps
  rw [@ofNat_of_steps n ⟨_, steps.1, steps.2⟩ rfl]
  exact .mk false (Nat.cast_mul n stepsPerOne)

theorem Denotes.neg {x : Number} {i : Int} : x.Denotes i → x.neg.Denotes (-i)
  | .mk negative h => by
    refine .mk (!negative) ?_
    rw [Int.neg_mul, ← h]
    unfold Magnitude.signed
    cases negative <;> simp

/-! ### Sums -/

/-- A sum of finite numbers stands among small integers as the exact sum of their counts does. -/
theorem add_among (a b : Bool) (m n : Magnitude) :
    ∃ u, ((Number.finite a m).add (.finite b n)).position? = some u ∧
      ∀ k : Int, k.natAbs ≤ 2 ^ 53 →
        (k * stepsPerOne ≤ m.signed a + n.signed b → k * stepsPerOne ≤ u) ∧
        (m.signed a + n.signed b ≤ k * stepsPerOne → u ≤ k * stepsPerOne) := by
  refine position_among ?_ ?_
  · split
    · omega
    · simpa using fun below => Int.le_of_lt below
  · split
    · omega
    · simp

/-- **The sum of two integers stands among small integers as the exact sum does.** -/
theorem Denotes.add {x y : Number} {i j : Int} (hx : x.Denotes i) (hy : y.Denotes j) :
    (x.add y).Near (2 ^ 53) (i + j) := by
  obtain ⟨a, hx⟩ := hx
  obtain ⟨b, hy⟩ := hy
  rename_i m n
  obtain ⟨u, position, among⟩ := add_among a b m n
  refine ⟨u, position, fun k hk => ?_⟩
  rw [hx, hy, ← Int.add_mul] at among
  exact ⟨fun low => (among k hk).1 (Int.mul_le_mul_of_nonneg_right low (Int.natCast_nonneg _)),
    fun high => (among k hk).2 (Int.mul_le_mul_of_nonneg_right high (Int.natCast_nonneg _))⟩

/-- **A small integer more**, and the sum stands among fewer integers as the exact one does. -/
theorem Near.add {bound : Nat} {x y : Number} {i j : Int} (hx : x.Near (bound + j.natAbs) i)
    (hy : y.Denotes j) (small : bound + j.natAbs ≤ 2 ^ 53) : (x.add y).Near bound (i + j) := by
  obtain ⟨u, position, among⟩ := hx
  obtain ⟨b, total⟩ := hy
  rename_i n
  have before : ∀ k : Int, k.natAbs ≤ bound → (k ≤ i + j → (k - j) * stepsPerOne ≤ u) ∧
      (i + j ≤ k → u ≤ (k - j) * stepsPerOne) := by
    intro k hk
    have step := among (k - j) (by omega)
    exact ⟨fun low => step.1 (by omega), fun high => step.2 (by omega)⟩
  cases x with
  | nan => cases position
  | infinite a =>
    -- An infinity is beyond all small integers, and no integer brings it back.
    refine ⟨u, position, fun k hk => ?_⟩
    have here := (@small_steps k (by omega)).2
    have there := (@small_steps (k - j) (by omega)).2
    obtain rfl := Option.some.inj position
    have step := before k hk
    generalize k * (stepsPerOne : Int) = c at *
    generalize (k - j) * (stepsPerOne : Int) = c' at *
    cases a <;> simp only [Bool.false_eq_true, if_false, if_true] at * <;> omega
  | finite a m =>
    obtain rfl := Option.some.inj position
    obtain ⟨u, position, among⟩ := add_among a b m n
    refine ⟨u, position, fun k hk => ?_⟩
    have step := before k hk
    have rounded := among k (by omega)
    rw [total] at rounded
    rw [Int.sub_mul] at step
    exact ⟨fun low => rounded.1 (by have := step.1 low; omega),
      fun high => rounded.2 (by have := step.2 high; omega)⟩

end Number

end QueryAlgebra
