import QueryAlgebra.Number.Read
import QueryAlgebra.Number.Text
import QueryAlgebra.Instant.Read
import QueryAlgebra.Instant.Text
import Mathlib.Algebra.Group.Nat.Defs

/-!
# Decimal digits

* `decimalAmount_digitsOf`, `decimalAmount_padded`: the digits of a number are read back.
* `digitsOf_lt`, `le_digitsOf`: the number of digits of a number bounds it.
* `splitTrailingZeros_append`: digits are split from the zeros at their end.
* `takeDigits_padded`: a number in a field of fixed width is read back.
-/

namespace QueryAlgebra

theorem isDigit_of_mem_digitsOf {n : Nat} {c : Char} (h : c ∈ digitsOf n) : c.isDigit = true :=
  Nat.isDigit_of_mem_toDigits (by decide) (by decide) h

theorem digitsOf_ne_nil (n : Nat) : digitsOf n ≠ [] := Nat.toDigits_ne_nil

theorem decimalAmount_eq (cs : List Char) : decimalAmount cs = Nat.ofDigitChars 10 cs 0 := by
  simp [decimalAmount, Nat.ofDigitChars_eq_foldl, Nat.mul_comm]

/-- The digits of a number are read back. -/
@[simp]
theorem decimalAmount_digitsOf (n : Nat) : decimalAmount (digitsOf n) = n := by
  rw [decimalAmount_eq]; exact Nat.ofDigitChars_ten_toDigits

theorem decimalAmount_append (as bs : List Char) :
    decimalAmount (as ++ bs) = decimalAmount as * 10 ^ bs.length + decimalAmount bs := by
  rw [decimalAmount_eq, decimalAmount_eq, decimalAmount_eq, Nat.ofDigitChars_append,
    Nat.ofDigitChars_eq_ofDigitChars_zero, Nat.mul_comm]

@[simp]
theorem decimalAmount_replicate_zero (n : Nat) : decimalAmount (List.replicate n '0') = 0 := by
  rw [decimalAmount_eq, Nat.ofDigitChars_replicate_zero, Nat.mul_zero]

/-- A number with at most `k` digits lies below `10 ^ k`. -/
theorem length_digitsOf_le {n k : Nat} (hk : 0 < k) : (digitsOf n).length ≤ k ↔ n < 10 ^ k :=
  Nat.length_toDigits_le_iff (by decide) hk

theorem length_digitsOf_pos (n : Nat) : 0 < (digitsOf n).length := Nat.length_toDigits_pos

/-- A number lies below the power of ten of the number of its digits. -/
theorem digitsOf_lt (n : Nat) : n < 10 ^ (digitsOf n).length :=
  (length_digitsOf_le (length_digitsOf_pos n)).1 (Nat.le_refl _)

/-- A positive number reaches the power of ten of its leading digit. -/
theorem le_digitsOf {n : Nat} (h : 0 < n) : 10 ^ ((digitsOf n).length - 1) ≤ n := by
  by_cases hk : 0 < (digitsOf n).length - 1
  · refine Nat.le_of_not_lt fun hlt => ?_
    have := (length_digitsOf_le hk).2 hlt
    omega
  · have : (digitsOf n).length - 1 = 0 := by omega
    rw [this]; exact h

/-! ### Zeros at the end -/

/-- Digits are what is left of them without the zeros at their end, and those zeros. -/
theorem splitTrailingZeros_append (ds : List Char) :
    (splitTrailingZeros ds).1 ++ List.replicate (splitTrailingZeros ds).2 '0' = ds := by
  have hsplit := List.takeWhile_append_dropWhile (p := (· == '0')) (l := ds.reverse)
  have hzeros : ds.reverse.takeWhile (· == '0')
      = List.replicate (ds.reverse.takeWhile (· == '0')).length '0' :=
    List.eq_replicate_iff.2 ⟨rfl, fun c hc => by simpa using List.all_eq_true.1 List.all_takeWhile c hc⟩
  have hlen := congrArg List.length hsplit
  simp only [List.length_append, List.length_reverse] at hlen
  have hcount : ds.length - (ds.reverse.dropWhile (· == '0')).length
      = (ds.reverse.takeWhile (· == '0')).length := by omega
  have := congrArg List.reverse hsplit
  rw [hzeros] at this
  simpa [splitTrailingZeros, hcount] using this

theorem splitTrailingZeros_ne_nil {n : Nat} (h : 0 < n) :
    (splitTrailingZeros (digitsOf n)).1 ≠ [] := by
  intro hnil
  have := congrArg decimalAmount (splitTrailingZeros_append (digitsOf n))
  simp [hnil] at this
  omega

/-! ### Fields of fixed width -/

theorem length_padded {w n : Nat} (hw : 0 < w) (h : n < 10 ^ w) :
    (padded w n).length = w := by
  have := (length_digitsOf_le hw).2 h
  simp only [padded, List.length_append, List.length_replicate]
  omega

theorem isDigit_of_mem_padded {w n : Nat} {c : Char} (h : c ∈ padded w n) :
    c.isDigit = true := by
  rcases List.mem_append.1 h with h | h
  · rw [(List.mem_replicate.1 h).2]; rfl
  · exact isDigit_of_mem_digitsOf h

@[simp]
theorem decimalAmount_padded (width n : Nat) : decimalAmount (padded width n) = n := by
  simp [padded, decimalAmount_append]

namespace Instant

/-- A number in a field of fixed width is read back, whatever follows it. -/
theorem takeDigits_padded {w n : Nat} (hw : 0 < w) (h : n < 10 ^ w) (r : List Char) :
    takeDigits w (padded w n ++ r) = some (n, r) := by
  have hlen := length_padded hw h
  have htake : (padded w n ++ r).take w = padded w n :=
    List.take_left' hlen
  have hdrop : (padded w n ++ r).drop w = r := List.drop_left' hlen
  have hall : (padded w n).all Char.isDigit = true :=
    List.all_eq_true.2 fun c hc => isDigit_of_mem_padded hc
  simp [takeDigits, htake, hdrop, hlen, hall]

end Instant

end QueryAlgebra
