import QueryAlgebra.Value.Text
import QueryAlgebra.Text.Units
import QueryAlgebra.Fault

/-!
# Comparing values

* `Comparison`: the outcome of comparing two values; some pairs have no order.
* `valueOrder`: the empty value comes first, values of one type in their natural order, all others
  by their keys.
* `rowKey`: the key of a tuple of values, which needs all its dates to be valid.
-/

namespace QueryAlgebra.Evaluation

/-- How two values compare. -/
inductive Comparison where
  | less | equal | greater
  /-- Neither is before the other, nor are they equal. -/
  | unordered
deriving DecidableEq

namespace Comparison

/-- The comparison of the same values the other way round. -/
def flip : Comparison → Comparison
  | .less    => .greater
  | .greater => .less
  | c        => c

def ofOrdering : Ordering → Comparison
  | .lt => .less
  | .eq => .equal
  | .gt => .greater

/-- A number with the sign of the comparison. -/
def sign : Comparison → Number
  | .less      => .ofInt (-1)
  | .equal     => .ofNat 0
  | .greater   => .ofNat 1
  | .unordered => .nan

/-- The comparison of a difference with zero. -/
def ofDifference (n : Number) : Comparison :=
  match n.compare? (.ofNat 0) with
  | some o => ofOrdering o
  | none   => .unordered

end Comparison

/-- The key of a tuple of values. -/
def rowKey (vs : List Value) : Except Fault String :=
  if vs.any Value.hasInvalidDate then .error .invalidDate else .ok (Value.tupleKey vs)

/-- A value as the text that it is compared by when it has no natural order with another one. -/
def comparedText : Value → Except Fault String
  | .text s => .ok s
  | v       => rowKey [v]

/-- The order of two texts by their units. -/
def compareTexts (a b : String) : Comparison :=
  if Text.before a b then .less else if Text.before b a then .greater else .equal

/-- How two values compare. -/
def valueOrder : Value → Value → Except Fault Comparison
  | .null, .null => .ok .equal
  | .null, _     => .ok .less
  | _,     .null => .ok .greater
  | .date a, .date b =>
    match a, b with
    | some s, some t => .ok (.ofOrdering (compare s.millis t.millis))
    | _,      _      => .ok .unordered
  | .number a, .number b => .ok (.ofDifference (a.sub b))
  | .bool a,   .bool b   => .ok (.ofOrdering (compare a.toNat b.toNat))
  | a, b => do return compareTexts (← comparedText a) (← comparedText b)

end QueryAlgebra.Evaluation
