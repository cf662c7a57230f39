/-!
# Double-precision numbers

A finite number is a sign and a magnitude, and a magnitude is a whole number of least steps, each
`2^-1074`. Comparison is comparison of whole numbers, and every operation is the exact result
rounded once.

* `Magnitude`: a whole number of steps with at most 53 significant bits, below `2^1024`.
* `nearest`: the count of steps with at most 53 significant bits that is nearest to a quotient; of
  two equally near ones the one with an even last bit.
* `Number`: not-a-number, the two infinities and the signed magnitudes.
* `Number.compare?`: the order of two numbers, none when one of them is not a number.
* `nearest_sparse`: a rounded count has at most 53 significant bits.
-/

namespace QueryAlgebra

/-- The least step is `2 ^ -leastPower`. -/
def leastPower : Nat := 1074

/-- The number of least steps in one. -/
def stepsPerOne : Nat := Nat.pow 2 leastPower

/-- The number of least steps at which numbers become infinite. -/
def stepsLimit : Nat := Nat.pow 2 1024 * stepsPerOne

/-- A count of steps with at most 53 significant bits. -/
def Sparse (u : Nat) : Prop := ∃ k s, k < Nat.pow 2 53 ∧ u = k * Nat.pow 2 s

/-- The count of steps nearest to `num / den` that has at most 53 significant bits. A tie goes to
the even last bit. -/
def nearest (num den : Nat) : Nat :=
  let grain := Nat.pow 2 ((num / den).log2 - 52)
  let kept := num / (den * grain)
  let rest := num % (den * grain)
  if den * grain < 2 * rest ∨ (2 * rest = den * grain ∧ kept % 2 = 1) then (kept + 1) * grain
  else kept * grain

theorem sparse_of_le {k : Nat} (s : Nat) (h : k ≤ Nat.pow 2 53) : Sparse (k * Nat.pow 2 s) := by
  rcases Nat.lt_or_ge k (Nat.pow 2 53) with hk | hk
  · exact ⟨k, s, hk, rfl⟩
  · obtain rfl : k = Nat.pow 2 53 := Nat.le_antisymm h hk
    refine ⟨Nat.pow 2 52, s + 1, by decide, ?_⟩
    have half : Nat.pow 2 53 = Nat.pow 2 52 * 2 := rfl
    have next : Nat.pow 2 (s + 1) = Nat.pow 2 s * 2 := rfl
    rw [half, next, Nat.mul_assoc, Nat.mul_comm 2]

theorem nearest_kept_lt (num den : Nat) :
    num / (den * Nat.pow 2 ((num / den).log2 - 52)) < Nat.pow 2 53 := by
  change num / (den * 2 ^ ((num / den).log2 - 52)) < 2 ^ 53
  rw [← Nat.div_div_eq_div_mul]
  refine (Nat.div_lt_iff_lt_mul (Nat.two_pow_pos _)).2 ?_
  rw [← Nat.pow_add]
  exact Nat.lt_of_lt_of_le Nat.lt_log2_self (Nat.pow_le_pow_right (by decide) (by omega))

/-- A rounded count has at most 53 significant bits. -/
theorem nearest_sparse (num den : Nat) : Sparse (nearest num den) := by
  have h := nearest_kept_lt num den
  unfold nearest
  dsimp only
  split
  · exact sparse_of_le _ h
  · exact sparse_of_le _ (Nat.le_of_lt h)

/-- The size of a finite number, in least steps. -/
structure Magnitude where
  steps : Nat
  sparse : Sparse steps
  small : steps < stepsLimit
deriving DecidableEq

/-- A magnitude with a sign, in least steps. -/
def Magnitude.signed (m : Magnitude) (negative : Bool) : Int :=
  if negative then -m.steps else m.steps

/-- A double-precision number. -/
inductive Number where
  | nan
  | infinite (negative : Bool)
  | finite   (negative : Bool) (size : Magnitude)
deriving DecidableEq

namespace Number

/-- The number nearest to a signed quotient of steps, infinite when it is too large. -/
def ofRatio (negative : Bool) (num den : Nat) : Number :=
  if h : nearest num den < stepsLimit then .finite negative ⟨_, nearest_sparse num den, h⟩
  else .infinite negative

/-- The number nearest to an integer. -/
def ofInt (i : Int) : Number := ofRatio (i < 0) (i.natAbs * stepsPerOne) 1

/-- The number nearest to a natural number. -/
def ofNat (n : Nat) : Number := ofRatio false (n * stepsPerOne) 1

/-- Whether the sign bit is set; not-a-number has none. -/
def negative : Number → Bool
  | .nan        => false
  | .infinite n => n
  | .finite n _ => n

/-- A signed count of steps that orders the numbers; infinities lie beyond every finite one. -/
def position? : Number → Option Int
  | .nan        => none
  | .infinite n => some (if n then -stepsLimit else stepsLimit)
  | .finite n m => some (m.signed n)

/-- The order of two numbers, none when one of them is not a number. Both zeros are equal. -/
def compare? (a b : Number) : Option Ordering :=
  match a.position?, b.position? with
  | some x, some y => some (compare x y)
  | _, _           => none

/-- Whether a number is smaller than another; not-a-number is neither smaller nor larger. -/
def lt (a b : Number) : Bool := compare? a b == some .lt

/-- Whether two numbers are equal as amounts: not-a-number equals nothing, the zeros each other. -/
def same (a b : Number) : Bool := compare? a b == some .eq

def isZero : Number → Bool
  | .finite _ m => m.steps == 0
  | _           => false

def isFinite : Number → Bool
  | .finite _ _ => true
  | _           => false

/-- Whether the number is finite and whole. -/
def isWhole : Number → Bool
  | .finite _ m => m.steps % stepsPerOne == 0
  | _           => false

def neg : Number → Number
  | .nan        => .nan
  | .infinite n => .infinite !n
  | .finite n m => .finite (!n) m

def abs : Number → Number
  | .nan        => .nan
  | .infinite _ => .infinite false
  | .finite _ m => .finite false m

/-- The exact sum, rounded. A sum of zero is negative only when both parts are. -/
def add : Number → Number → Number
  | .nan, _ => .nan
  | _, .nan => .nan
  | .infinite a, .infinite b => if a = b then .infinite a else .nan
  | .infinite a, .finite _ _ => .infinite a
  | .finite _ _, .infinite b => .infinite b
  | .finite a m, .finite b n =>
    let total := m.signed a + n.signed b
    ofRatio (if total = 0 then a && b else total < 0) total.natAbs 1

/-- The exact difference, rounded. -/
def sub (a b : Number) : Number := add a b.neg

/-- The exact product, rounded. -/
def mul : Number → Number → Number
  | .nan, _ => .nan
  | _, .nan => .nan
  | .infinite a, .infinite b => .infinite (a != b)
  | .infinite a, .finite b n => if n.steps = 0 then .nan else .infinite (a != b)
  | .finite a m, .infinite b => if m.steps = 0 then .nan else .infinite (a != b)
  | .finite a m, .finite b n => ofRatio (a != b) (m.steps * n.steps) stepsPerOne

/-- The exact quotient, rounded. -/
def div : Number → Number → Number
  | .nan, _ => .nan
  | _, .nan => .nan
  | .infinite _, .infinite _ => .nan
  | .infinite a, .finite b _ => .infinite (a != b)
  | .finite a _, .infinite b => ofRatio (a != b) 0 1
  | .finite a m, .finite b n =>
    if n.steps = 0 then (if m.steps = 0 then .nan else .infinite (a != b))
    else ofRatio (a != b) (m.steps * stepsPerOne) n.steps

/-- The remainder of the quotient cut towards zero, with the sign of the dividend. -/
def rem : Number → Number → Number
  | .nan, _ => .nan
  | _, .nan => .nan
  | .infinite _, _ => .nan
  | .finite a m, .infinite _ => .finite a m
  | .finite a m, .finite _ n => if n.steps = 0 then .nan else ofRatio a (m.steps % n.steps) 1

/-- The whole part: the fraction is cut off and the sign kept. -/
def trunc : Number → Number
  | .finite a m => ofRatio a (m.steps / stepsPerOne * stepsPerOne) 1
  | x           => x

/-- The magnitude rounded up to a whole number, with the sign kept. -/
def awayFromZero : Number → Number
  | .finite a m => ofRatio a ((m.steps + stepsPerOne - 1) / stepsPerOne * stepsPerOne) 1
  | x           => x

/-- The greatest whole number that is not above. -/
def floor (x : Number) : Number := if x.negative then x.awayFromZero else x.trunc

/-- The least whole number that is not below. -/
def ceil (x : Number) : Number := if x.negative then x.trunc else x.awayFromZero

/-- The whole part of a finite number as an integer. -/
def toInt? : Number → Option Int
  | .finite a m =>
    let n : Int := (m.steps / stepsPerOne : Nat)
    some (if a then -n else n)
  | _           => none

/-- The number with a negative zero made positive. -/
def unsignedZero (x : Number) : Number := if x.isZero then x.abs else x

end Number

end QueryAlgebra
