import QueryAlgebra.Number.Shortest
import QueryAlgebra.Proofs.Number.Digits
import Mathlib.Tactic.Linarith
import Mathlib.Tactic.Ring

/-!
# Rounding inverts the interval of a count

The interval of a 53-bit count of steps is what `Decimal.lower` and `Decimal.upper` say it is: every
quotient inside it rounds to the count.

* `Sparse.normal`: a positive count is a number below `2^53` of spacings, of at least `2^52` of them
  unless the spacing is one step.
* `nearest_eq`: a quotient inside the interval of a count rounds to it.
* `nearest_self`: a count rounds to itself.
* `ofDecimal_shift`: zeros at the end of the digits count as places of the exponent.
* `ofDecimal_of_readsBack`: a decimal that lies in the interval of a count is read as that count.
-/

namespace QueryAlgebra

open Decimal

theorem natPow (b n : Nat) : Nat.pow b n = b ^ n := rfl

/-- A positive count in units of its spacing. -/
theorem Sparse.normal {u : Nat} (h : Sparse u) (hu : 0 < u) :
    ∃ m k, u = m * 2 ^ k ∧ m < 2 ^ 53 ∧ (k = 0 ∨ 2 ^ 52 ≤ m) ∧ u.log2 - 52 = k := by
  obtain ⟨j, s, hj, rfl⟩ := h
  simp only [natPow] at *
  have hj0 : j ≠ 0 := by rintro rfl; simp at hu
  have hlog : (j * 2 ^ s).log2 = j.log2 + s := by
    refine (Nat.log2_eq_iff (by omega)).2 ⟨?_, ?_⟩
    · rw [Nat.pow_add]
      exact Nat.mul_le_mul_right _ (Nat.log2_self_le hj0)
    · rw [show j.log2 + s + 1 = j.log2 + 1 + s by omega, Nat.pow_add]
      exact Nat.mul_lt_mul_of_pos_right Nat.lt_log2_self (Nat.two_pow_pos _)
  have hjlog : j.log2 ≤ 52 := Nat.lt_succ_iff.1 ((Nat.log2_lt hj0).2 hj)
  rcases Nat.lt_or_ge (j.log2 + s) 52 with hsmall | hlarge
  · refine ⟨j * 2 ^ s, 0, by simp, ?_, Or.inl rfl, by omega⟩
    have := Nat.lt_log2_self (n := j * 2 ^ s)
    rw [hlog] at this
    exact Nat.lt_of_lt_of_le this (Nat.pow_le_pow_right (by decide) (by omega))
  · obtain ⟨d, hd⟩ : ∃ d, j.log2 + d = 52 := ⟨52 - j.log2, by omega⟩
    obtain ⟨k, rfl⟩ : ∃ k, s = d + k := ⟨s - d, by omega⟩
    refine ⟨j * 2 ^ d, k, by rw [Nat.mul_assoc, ← Nat.pow_add], ?_, Or.inr ?_, by omega⟩
    · rw [show 53 = j.log2 + 1 + d by omega, Nat.pow_add]
      exact Nat.mul_lt_mul_of_pos_right Nat.lt_log2_self (Nat.two_pow_pos _)
    · rw [← hd, Nat.pow_add]
      exact Nat.mul_le_mul_right _ (Nat.log2_self_le hj0)

/-! ### Rounding on a grid -/

/-- Rounding to a whole number of `D`s, as `nearest` does it: a tie goes to the even number. -/
theorem roundOn_eq {num D m : Nat} (hD : 0 < D) (low : 2 * (m * D) ≤ 2 * num + D)
    (high : 2 * num ≤ 2 * (m * D) + D)
    (odd : m % 2 = 1 → 2 * (m * D) < 2 * num + D ∧ 2 * num < 2 * (m * D) + D) :
    (if D < 2 * (num % D) ∨ (2 * (num % D) = D ∧ num / D % 2 = 1) then num / D + 1
      else num / D) = m := by
  have hsplit : num / D * D + num % D = num := Nat.div_add_mod' num D
  have hrest : num % D < D := Nat.mod_lt num hD
  generalize num / D = kept at *
  generalize num % D = rest at *
  have hle : kept ≤ m := by
    by_contra hlt
    have : (m + 1) * D ≤ kept * D := Nat.mul_le_mul_right D (by omega)
    rw [Nat.add_mul, Nat.one_mul] at this
    omega
  have hge : m ≤ kept + 1 := by
    by_contra hlt
    have : (kept + 2) * D ≤ m * D := Nat.mul_le_mul_right D (by omega)
    rw [Nat.add_mul] at this
    omega
  rcases Nat.lt_or_ge kept m with hlt | heq
  · obtain rfl : m = kept + 1 := by omega
    rw [Nat.add_mul, Nat.one_mul] at *
    split <;> omega
  · obtain rfl : kept = m := by omega
    split <;> omega

/-- Rounding on the grid that the size of the quotient asks for. -/
theorem nearest_of_grain {u num den m k : Nat} (hden : 0 < den) (hu : u = m * 2 ^ k)
    (hk : (num / den).log2 - 52 = k) (low : 2 * (m * (den * 2 ^ k)) ≤ 2 * num + den * 2 ^ k)
    (high : 2 * num ≤ 2 * (m * (den * 2 ^ k)) + den * 2 ^ k)
    (odd : m % 2 = 1 → 2 * (m * (den * 2 ^ k)) < 2 * num + den * 2 ^ k ∧
      2 * num < 2 * (m * (den * 2 ^ k)) + den * 2 ^ k) : nearest num den = u := by
  have hround := roundOn_eq (Nat.mul_pos hden (Nat.two_pow_pos k)) low high odd
  unfold nearest
  simp only [natPow, hk]
  rw [hu, ← hround]
  split <;> rfl

/-! ### The interval of a count -/

theorem spacing_normal {m k : Nat} (h : (m * 2 ^ k).log2 - 52 = k) :
    spacing (m * 2 ^ k) = 2 ^ k := by
  simp [spacing, h]

theorem log2_sub {q k : Nat} (low : 2 ^ (52 + k) ≤ q) (high : q < 2 ^ (52 + k + 1)) :
    q.log2 - 52 = k := by
  have hq : q ≠ 0 := by have := Nat.two_pow_pos (52 + k); omega
  rw [(Nat.log2_eq_iff hq).2 ⟨low, high⟩]
  omega

/-- The grid of a quotient inside the interval is that of the count, but for quotients below a
power of two. -/
theorem grain_of_interval {num den m k : Nat} (hden : 0 < den) (hm : m < 2 ^ 53)
    (hk : k = 0 ∨ 2 ^ 52 ≤ m) (high : 2 * num ≤ 2 * (m * (den * 2 ^ k)) + den * 2 ^ k)
    (below : k ≠ 0 → 2 ^ 52 * (den * 2 ^ k) ≤ num) : (num / den).log2 - 52 = k := by
  have ha : 0 < den * 2 ^ k := Nat.mul_pos hden (Nat.two_pow_pos k)
  have hma : m * (den * 2 ^ k) + den * 2 ^ k ≤ 2 ^ 53 * (den * 2 ^ k) := by
    have := Nat.mul_le_mul_right (den * 2 ^ k) (show m + 1 ≤ 2 ^ 53 by omega)
    rwa [Nat.add_mul, Nat.one_mul] at this
  have hlt : num / den < 2 ^ (52 + k + 1) := by
    refine (Nat.div_lt_iff_lt_mul hden).2 ?_
    have : 2 ^ (52 + k + 1) * den = 2 ^ 53 * (den * 2 ^ k) := by ring
    omega
  by_cases hk0 : k = 0
  · subst hk0
    by_cases hq : num / den = 0
    · simp [hq]
    · have := (Nat.log2_lt hq).2 hlt
      omega
  · refine log2_sub ((Nat.le_div_iff_mul_le hden).2 ?_) hlt
    have : 2 ^ (52 + k) * den = 2 ^ 52 * (den * 2 ^ k) := by ring
    have := below hk0
    omega

/-- **A quotient inside the interval of a count rounds to it.** The ends of the interval belong to
it when the last bit of the count is even. -/
theorem nearest_eq {u num den : Nat} (hs : Sparse u) (hu : 0 < u) (hden : 0 < den)
    (low : lower u * den ≤ 4 * num) (high : 4 * num ≤ upper u * den)
    (odd : u / spacing u % 2 ≠ 0 → lower u * den < 4 * num ∧ 4 * num < upper u * den) :
    nearest num den = u := by
  obtain ⟨m, k, rfl, hm, hk, hlog⟩ := hs.normal hu
  have hm0 : 0 < m := by by_contra h; simp [show m = 0 by omega] at hu
  have hquot : m * 2 ^ k / 2 ^ k = m := Nat.mul_div_cancel _ (Nat.two_pow_pos k)
  unfold lower upper at *
  simp only [spacing_normal hlog, hquot, natPow] at low high odd
  have ha : 0 < den * 2 ^ k := Nat.mul_pos hden (Nat.two_pow_pos k)
  have hma : den * 2 ^ k ≤ m * (den * 2 ^ k) := Nat.le_mul_of_pos_left _ hm0
  have hmul : 4 * (m * 2 ^ k) * den = 4 * (m * (den * 2 ^ k)) := by ring
  have htwo : 2 * 2 ^ k * den = 2 * (den * 2 ^ k) := by ring
  have hone : 2 ^ k * den = den * 2 ^ k := Nat.mul_comm _ _
  simp only [Nat.add_mul, hmul, htwo] at high odd
  by_cases hpower : m = 2 ^ 52 ∧ 1 < 2 ^ k ∧ num < 2 ^ 52 * (den * 2 ^ k)
  · -- Just below a power of two the grid is twice as fine.
    obtain ⟨rfl, hk1, hbelow⟩ := hpower
    obtain ⟨j, rfl⟩ : ∃ j, k = j + 1 := ⟨k - 1, by
      have : k ≠ 0 := by rintro rfl; simp at hk1
      omega⟩
    rw [if_pos ⟨rfl, hk1⟩, Nat.sub_mul, hmul, hone] at low
    have hj : den * 2 ^ (j + 1) = 2 * (den * 2 ^ j) := by ring
    rw [hj] at low high hbelow ha
    refine nearest_of_grain (m := 2 ^ 53) (k := j) hden (by ring) ?_ ?_ ?_ ?_
    · refine log2_sub ((Nat.le_div_iff_mul_le hden).2 ?_) ((Nat.div_lt_iff_lt_mul hden).2 ?_)
      · have : 2 ^ (52 + j) * den = 2 ^ 52 * (den * 2 ^ j) := by ring
        omega
      · have : 2 ^ (52 + j + 1) * den = 2 ^ 53 * (den * 2 ^ j) := by ring
        omega
    · omega
    · omega
    · intro h; omega
  · have hlow : 2 * (m * (den * 2 ^ k)) ≤ 2 * num + den * 2 ^ k ∧
        (m % 2 = 1 → 2 * (m * (den * 2 ^ k)) < 2 * num + den * 2 ^ k) := by
      split at low
      · rename_i h
        simp only [h, true_and, Nat.not_lt] at hpower
        exact ⟨by rw [h.1]; omega, fun hodd => by rw [h.1] at hodd; omega⟩
      · rename_i h
        rw [if_neg h] at odd
        rw [Nat.sub_mul, hmul, htwo] at low
        refine ⟨by omega, fun hodd => ?_⟩
        have := (odd (by omega)).1
        rw [Nat.sub_mul, hmul, htwo] at this
        omega
    have hhigh : 2 * num ≤ 2 * (m * (den * 2 ^ k)) + den * 2 ^ k := by omega
    refine nearest_of_grain hden rfl (grain_of_interval hden hm hk hhigh fun hk0 => ?_) hlow.1 hhigh
      fun hodd => ⟨hlow.2 hodd, by have := (odd (by omega)).2; omega⟩
    have hbig : 2 ^ 52 ≤ m := hk.resolve_left hk0
    have hk1 : 1 < 2 ^ k := Nat.one_lt_two_pow hk0
    rcases Nat.lt_or_ge (2 ^ 52) m with hlt | hle
    · have := Nat.mul_le_mul_right (den * 2 ^ k) (show 2 ^ 52 + 1 ≤ m by omega)
      rw [Nat.add_mul, Nat.one_mul] at this
      omega
    · have hmeq : m = 2 ^ 52 := by omega
      by_contra hbelow
      exact hpower ⟨hmeq, hk1, by omega⟩

theorem spacing_pos (u : Nat) : 0 < spacing u := Nat.two_pow_pos _

theorem spacing_le {u : Nat} (h : 0 < u) : spacing u ≤ u :=
  Nat.le_trans (Nat.pow_le_pow_right (by decide) (Nat.sub_le _ _))
    (Nat.log2_self_le (Nat.pos_iff_ne_zero.1 h))

theorem lower_lt {u : Nat} (h : 0 < u) : lower u < 4 * u := by
  have := spacing_pos u
  unfold lower; split <;> omega

theorem le_lower {u : Nat} (h : 0 < u) : 2 * u ≤ lower u := by
  have := spacing_le h
  unfold lower; split <;> omega

theorem lt_upper (u : Nat) : 4 * u < upper u := by
  have := spacing_pos u
  unfold upper; omega

theorem upper_le {u : Nat} (h : 0 < u) : upper u ≤ 6 * u := by
  have := spacing_le h
  unfold upper; omega

/-- A count rounds to itself. -/
theorem nearest_self {u den : Nat} (hs : Sparse u) (hden : 0 < den) : nearest (u * den) den = u := by
  rcases Nat.eq_zero_or_pos u with rfl | hu
  · simp [nearest]
  · have hlow := Nat.mul_lt_mul_of_pos_right (lower_lt hu) hden
    have hhigh := Nat.mul_lt_mul_of_pos_right (lt_upper u) hden
    rw [Nat.mul_assoc] at hlow hhigh
    exact nearest_eq hs hu hden hlow.le hhigh.le fun _ => ⟨hlow, hhigh⟩

/-- Rounding depends on the quotient alone. -/
theorem nearest_mul_right (num den : Nat) {c : Nat} (hc : 0 < c) :
    nearest (num * c) (den * c) = nearest num den := by
  have hquot : num * c / (den * c) = num / den := Nat.mul_div_mul_right _ _ hc
  unfold nearest
  rw [hquot]
  generalize Nat.pow 2 ((num / den).log2 - 52) = grain
  have hgrain : den * c * grain = den * grain * c := by ring
  have htwo : 2 * (num % (den * grain) * c) = 2 * (num % (den * grain)) * c := by ring
  simp only [hgrain, Nat.mul_div_mul_right _ _ hc, Nat.mul_mod_mul_right, htwo,
    Nat.mul_lt_mul_right hc, Nat.mul_left_inj (Nat.pos_iff_ne_zero.1 hc)]

namespace Number

theorem ofRatio_congr {num den num' den' : Nat} (negative : Bool)
    (h : nearest num den = nearest num' den') :
    ofRatio negative num den = ofRatio negative num' den' := by
  unfold ofRatio
  simp only [h]

theorem ofRatio_eq {num den : Nat} (negative : Bool) (m : Magnitude)
    (h : nearest num den = m.steps) : ofRatio negative num den = .finite negative m := by
  unfold ofRatio
  simp only [h, m.small, dite_true]

/-! ### Decimals -/

theorem length_digitsOf_mul_pow {d : Nat} (hd : 0 < d) (k : Nat) :
    (digitsOf (d * 10 ^ k)).length = (digitsOf d).length + k := by
  have hpos := length_digitsOf_pos d
  have hlow : ¬(digitsOf (d * 10 ^ k)).length ≤ (digitsOf d).length - 1 + k := by
    intro hle
    rcases Nat.eq_zero_or_pos ((digitsOf d).length - 1 + k) with h0 | h0
    · have := length_digitsOf_pos (d * 10 ^ k)
      omega
    · have hlt := (length_digitsOf_le h0).1 hle
      rw [Nat.pow_add] at hlt
      have := Nat.lt_of_mul_lt_mul_right hlt
      have := le_digitsOf hd
      omega
  have hhigh : (digitsOf (d * 10 ^ k)).length ≤ (digitsOf d).length + k := by
    refine (length_digitsOf_le (by omega)).2 ?_
    rw [Nat.pow_add]
    exact Nat.mul_lt_mul_of_pos_right (digitsOf_lt d) (Nat.pow_pos (by decide))
  omega

/-- Zeros at the end of the digits count as places of the exponent. -/
theorem ofDecimal_shift (negative : Bool) (d k : Nat) (e : Int) :
    ofDecimal negative (d * 10 ^ k) e = ofDecimal negative d (e + k) := by
  rcases Nat.eq_zero_or_pos d with rfl | hd
  · simp [ofDecimal]
  have hlen : ((Nat.toDigits 10 (d * 10 ^ k)).length : Int) + e
      = (Nat.toDigits 10 d).length + (e + k) := by
    have : (Nat.toDigits 10 (d * 10 ^ k)).length = (Nat.toDigits 10 d).length + k :=
      length_digitsOf_mul_pow hd k
    omega
  have hzero : d * 10 ^ k = 0 ↔ d = 0 := by simp
  obtain ⟨c, hc, hnum, hden⟩ : ∃ c, 0 < c ∧
      d * 10 ^ k * 10 ^ e.toNat = d * 10 ^ (e + k).toNat * c ∧
      10 ^ (-e).toNat = 10 ^ (-(e + k)).toNat * c := by
    refine ⟨10 ^ (k + e.toNat - (e + k).toNat), Nat.pow_pos (by decide), ?_, ?_⟩
    · rw [Nat.mul_assoc, Nat.mul_assoc, ← Nat.pow_add, ← Nat.pow_add]
      congr 2
      omega
    · rw [← Nat.pow_add]
      congr 1
      omega
  have hratio : nearest (d * 10 ^ k * 10 ^ e.toNat * stepsPerOne) (10 ^ (-e).toNat)
      = nearest (d * 10 ^ (e + k).toNat * stepsPerOne) (10 ^ (-(e + k)).toNat) := by
    rw [hnum, hden, Nat.mul_right_comm, nearest_mul_right _ _ hc]
  simp only [ofDecimal, natPow, hlen, hzero, ofRatio_congr negative hratio]

theorem limit_le : ∃ k, k ≤ 310 ∧ 6 * Nat.pow 2 1024 ≤ 4 * 10 ^ k :=
  ⟨310, by decide, by decide +kernel⟩

theorem steps_le : 4 * stepsPerOne ≤ 10 ^ 330 := by
  unfold stepsPerOne leastPower
  decide +kernel

theorem stepsPerOne_pos : 0 < stepsPerOne := by
  unfold stepsPerOne
  generalize leastPower = n
  exact Nat.two_pow_pos n

/-- The leading digit of a decimal that lies in the interval of a count stands at a place where no
number is settled by its place alone. -/
theorem places_of_readsBack {u : Nat} {d : Decimal} (hu : 0 < u) (small : u < stepsLimit)
    (hd : 0 < d.digits) (low : lower u * d.scale ≤ d.quarters)
    (high : d.quarters ≤ upper u * d.scale) :
    -400 ≤ ((digitsOf d.digits).length : Int) + d.exponent ∧
      ((digitsOf d.digits).length : Int) + d.exponent ≤ 400 := by
  have hS := stepsPerOne_pos
  have hsteps := steps_le
  obtain ⟨k, hk, hlimit⟩ := limit_le
  have hlen := length_digitsOf_pos d.digits
  simp only [stepsLimit] at small
  generalize Nat.pow 2 1024 = limit at *
  simp only [quarters, scale, natPow] at low high
  generalize stepsPerOne = S at *
  have hup : d.exponent.toNat - (-d.exponent).toNat = d.exponent := by omega
  generalize d.exponent.toNat = up at *
  generalize (-d.exponent).toNat = down at *
  have htop := le_digitsOf hd
  have hbot := digitsOf_lt d.digits
  generalize (digitsOf d.digits).length = l at *
  have hscale : 0 < 10 ^ down := Nat.pow_pos (by decide)
  constructor
  · -- A positive count is at least one step.
    have h1 : 10 ^ down ≤ d.digits * 10 ^ up * (4 * S) := by
      have := Nat.mul_le_mul_right (10 ^ down) (show 1 ≤ lower u by have := le_lower hu; omega)
      omega
    have h2 : d.digits * 10 ^ up * (4 * S) < 10 ^ (l + up + 330) := by
      calc d.digits * 10 ^ up * (4 * S)
          < 10 ^ l * 10 ^ up * (4 * S) := by
            refine Nat.mul_lt_mul_of_pos_right ?_ (by omega)
            exact Nat.mul_lt_mul_of_pos_right hbot (Nat.pow_pos (by decide))
        _ ≤ 10 ^ l * 10 ^ up * 10 ^ 330 := Nat.mul_le_mul_left _ hsteps
        _ = 10 ^ (l + up + 330) := by rw [← Nat.pow_add, ← Nat.pow_add]
    have := (Nat.pow_lt_pow_iff_right (by decide)).1 (Nat.lt_of_le_of_lt h1 h2)
    omega
  · -- A finite count is below the limit.
    generalize hmost : 10 ^ k = most at hlimit
    have h1 : d.digits * 10 ^ up * (4 * S) < most * 10 ^ down * (4 * S) := by
      calc d.digits * 10 ^ up * (4 * S)
          ≤ upper u * 10 ^ down := high
        _ ≤ 6 * u * 10 ^ down := Nat.mul_le_mul_right _ (upper_le hu)
        _ < 6 * (limit * S) * 10 ^ down := Nat.mul_lt_mul_of_pos_right (by omega) hscale
        _ = 6 * limit * S * 10 ^ down := by rw [← Nat.mul_assoc 6]
        _ ≤ 4 * most * S * 10 ^ down :=
            Nat.mul_le_mul_right _ (Nat.mul_le_mul_right _ hlimit)
        _ = most * 10 ^ down * (4 * S) := by ring
    have h2 : 10 ^ (l - 1 + up) < 10 ^ (k + down) := by
      have := Nat.lt_of_mul_lt_mul_right h1
      rw [← hmost, ← Nat.pow_add] at this
      rw [Nat.pow_add 10 (l - 1)]
      exact Nat.lt_of_le_of_lt (Nat.mul_le_mul_right _ htop) this
    have := (Nat.pow_lt_pow_iff_right (by decide)).1 h2
    omega

/-- **A decimal that lies in the interval of a count is read as that count.** -/
theorem ofDecimal_of_readsBack (negative : Bool) (m : Magnitude) (hm : 0 < m.steps) {d : Decimal}
    (h : readsBack m.steps d = true) :
    ofDecimal negative d.digits d.exponent = .finite negative m := by
  have hscale : 0 < d.scale := Nat.pow_pos (by decide)
  have hin : lower m.steps * d.scale ≤ d.quarters ∧ d.quarters ≤ upper m.steps * d.scale ∧
      (m.steps / spacing m.steps % 2 ≠ 0 →
        lower m.steps * d.scale < d.quarters ∧ d.quarters < upper m.steps * d.scale) := by
    unfold readsBack at h
    split at h <;> simp only [Bool.and_eq_true, decide_eq_true_eq] at h
    · exact ⟨h.1, h.2, fun hodd => absurd ‹_› hodd⟩
    · exact ⟨h.1.le, h.2.le, fun _ => h⟩
  obtain ⟨low, high, odd⟩ := hin
  have hd : 0 < d.digits := by
    rcases Nat.eq_zero_or_pos d.digits with h0 | h0
    · have hpos := Nat.mul_pos (show 0 < lower m.steps by have := le_lower hm; omega) hscale
      simp only [quarters, h0, Nat.zero_mul] at low
      omega
    · exact h0
  have hplaces := places_of_readsBack hm m.small hd low high
  have hquarters : d.quarters = 4 * (d.digits * Nat.pow 10 d.exponent.toNat * stepsPerOne) := by
    unfold quarters
    generalize stepsPerOne = S
    ring
  rw [hquarters] at low high odd
  have hround := nearest_eq m.sparse hm hscale low high odd
  have hin : ¬(d.digits = 0 ∨
      ((Nat.toDigits 10 d.digits).length : Int) + d.exponent < -400) := by
    simp only [digitsOf] at hplaces
    omega
  have hout : ¬(400 < ((Nat.toDigits 10 d.digits).length : Int) + d.exponent) := by
    simp only [digitsOf] at hplaces
    omega
  simp only [ofDecimal, if_neg hin, if_neg hout]
  exact ofRatio_eq negative m hround

end Number

end QueryAlgebra
