import QueryAlgebra.Evaluation.Compare
import QueryAlgebra.Dataset
import QueryAlgebra.Tree.Basic

/-!
# Joins and set operations on data

* `product`: every row of one data set beside every row of another.
* `joinRows`: the pairs of rows for which a mask is true, then the rows of outer sides that matched
  nothing, beside empty values.
* `combineRows`: union, intersection and difference of rows, without repetitions.
-/

namespace QueryAlgebra.Evaluation

/-! ### Joins -/

/-- Every position of the left data set with every position of the right one. -/
def allPairs (n m : Nat) : List (Nat × Nat) :=
  (List.range n).flatMap fun i => (List.range m).map fun j => (i, j)

/-- Rows of two data sets side by side; a missing position stands for empty values. -/
def sideBySide (l r : Dataset) (pairs : List (Option Nat × Option Nat)) : Except Fault Dataset :=
  (l.take (pairs.map (·.1))).concat (r.take (pairs.map (·.2)))

/-- Two positions that are both there. -/
def bothRows (p : Nat × Nat) : Option Nat × Option Nat := (some p.1, some p.2)

/-- Every row of one data set beside every row of another. -/
def product (l r : Dataset) : Except Fault Dataset :=
  sideBySide l r ((allPairs l.length r.length).map bothRows)

/-- The pairs for which a mask is true. -/
def matchedPairs (pairs : List (Nat × Nat)) (mask : List Value) : List (Nat × Nat) :=
  ((pairs.zip mask).filter fun p => p.2.isBool true).map (·.1)

/-- Whether a join keeps left rows that match nothing. -/
def keepsLeft : JoinType → Bool
  | .left | .full => true
  | _             => false

/-- Whether a join keeps right rows that match nothing. -/
def keepsRight : JoinType → Bool
  | .right | .full => true
  | _              => false

/-- The positions below `n` that are not among some others. -/
def missingFrom (n : Nat) (seen : List Nat) : List Nat :=
  (List.range n).filter fun i => !seen.contains i

/-- The pairs of rows that a join consists of. -/
def joinPairs (n m : Nat) (mask : List Value) (kind : JoinType) : List (Option Nat × Option Nat) :=
  let hits := matchedPairs (allPairs n m) mask
  hits.map bothRows
    ++ (if keepsLeft kind then (missingFrom n (hits.map (·.1))).map fun i => (some i, none) else [])
    ++ (if keepsRight kind then (missingFrom m (hits.map (·.2))).map fun j => (none, some j)
        else [])

/-- The rows of a join whose condition has the given values on the product. -/
def joinRows (l r : Dataset) (mask : List Value) (kind : JoinType) : Except Fault Dataset :=
  sideBySide l r (joinPairs l.length r.length mask kind)

/-! ### Set operations -/

/-- Whether a row of the left side stays, given whether the right side has it. -/
def keepsRow : SetOp → Bool → Bool
  | .union,        _     => true
  | .intersection, there => there
  | .difference,   there => !there

/-- The first row of each key that is not yet seen and passes a test of its key. -/
def distinctRows (keep : String → Bool) :
    List (String × List Value) → List String → List (List Value)
  | [],            _    => []
  | (k, row) :: r, seen =>
    if seen.contains k || !keep k then distinctRows keep r seen
    else row :: distinctRows keep r (k :: seen)

/-- Rows with their keys. -/
def keyedRows (rows : List (List Value)) : Except Fault (List (String × List Value)) :=
  rows.mapM fun row => do return (← rowKey row, row)

/-- The rows of a set operation, in the order of their first appearance, under the left columns. -/
def combineRows (l r : Dataset) (kind : SetOp) : Except Fault Dataset := do
  let right ← keyedRows r.rows
  let left ← keyedRows l.rows
  let candidates := if kind = .union then left ++ right else left
  let keep (k : String) : Bool := keepsRow kind ((right.map (·.1)).contains k)
  return .ofRows l.refs (distinctRows keep candidates [])

end QueryAlgebra.Evaluation
