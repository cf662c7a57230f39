import QueryAlgebra.Evaluation.Compare
import QueryAlgebra.Dataset
import QueryAlgebra.Tree.Basic

/-!
# Arranging rows

Rows are arranged by key columns: sorted by them, or put into groups of rows with equal keys.

* `comparePositions`: the order of two rows under sorting keys, the earlier row first on a tie.
* `arrange`: rows in that order.
* `groupRows`: groups of rows with equal keys, in the order of their first rows.
-/

namespace QueryAlgebra.Evaluation

/-- A column to sort by. -/
abbrev SortKey := List Value × Direction

/-! ### Order -/

/-- How two rows compare under sorting keys. The first key on which they are not equal decides. -/
def comparePositions : List SortKey → Nat → Nat → Except Fault Comparison
  | [],             a, b => .ok (.ofOrdering (compare a b))
  | (values, d) :: r, a, b => do
    match ← valueOrder (Dataset.item values a) (Dataset.item values b) with
    | .equal => comparePositions r a b
    | c      => return if d = .ascending then c else c.flip

section

variable {α : Type} (cmp : α → α → Except Fault Comparison)

/-- Whether the first item must stand before the second. -/
def precedes (a b : α) : Except Fault Bool := do return (← cmp a b) = .less

/-- The items that continue a run after `last`, and the others. Each item of a falling run precedes
the one before it, and no item of a rising run does. -/
def spanRun (falling : Bool) (last : α) : List α → Except Fault (List α × List α)
  | []     => .ok ([], [])
  | a :: r => do
    if (← precedes cmp a last) = falling then
      let (run, rest) ← spanRun falling a r
      return (a :: run, rest)
    else return ([], a :: r)

/-- The run at the head of a list, rising, and the rest. A falling run is turned round. -/
def firstRun : List α → Except Fault (List α × List α)
  | a :: b :: r => do
    let falling ← precedes cmp b a
    let (run, rest) ← spanRun cmp falling b r
    return (if falling then (a :: b :: run).reverse else a :: b :: run, rest)
  | as => .ok (as, [])

/-- Inserts an item into a sorted list, after those it does not precede, by halving the list. The
fuel is the length of the list. -/
def insertHalving (a : α) : Nat → List α → Except Fault (List α)
  | 0,        bs => .ok (a :: bs)
  | fuel + 1, bs =>
    match bs.splitAt (bs.length / 2) with
    | (_, [])             => .ok [a]
    | (low, middle :: high) => do
      if ← precedes cmp a middle then return (← insertHalving a fuel low) ++ middle :: high
      else return low ++ middle :: (← insertHalving a fuel high)

/-- A list sorted by a comparison: the run at its head, with all other items inserted in turn. -/
def sortBy (as : List α) : Except Fault (List α) := do
  let (run, rest) ← firstRun cmp as
  rest.foldlM (fun sorted a => insertHalving cmp a sorted.length sorted) run

end

/-- Rows sorted by key columns. -/
def arrange (positions : List Nat) (keys : List SortKey) : Except Fault (List Nat) :=
  sortBy (comparePositions keys) positions

/-! ### Groups -/

/-- Puts a row into the group of its key. -/
def addToGroup (groups : List (String × List Nat)) (key : String) (i : Nat) :
    List (String × List Nat) :=
  Assoc.put (· == ·) key ((Assoc.find? (key == ·) groups).getD [] ++ [i]) groups

/-- The key of one row. -/
def keyAt (columns : List (List Value)) (i : Nat) : Except Fault String :=
  rowKey (columns.map fun c => Dataset.item c i)

/-- Groups of rows with equal keys. -/
def groupRows (count : Nat) (columns : List (List Value)) : Except Fault (List (List Nat)) := do
  let groups ← (List.range count).foldlM
    (fun acc i => do return addToGroup acc (← keyAt columns i) i) []
  return groups.map (·.2)

end QueryAlgebra.Evaluation
