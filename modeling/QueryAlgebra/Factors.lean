import QueryAlgebra.Feature.Build

/-!
# Factors of predicates

The factor of a predicate for a table is the part of it that speaks about that table alone. A scan
of the table can be filtered by it.

* `Factors`: predicates by table.
* `Factors.merge`: the factors of both sides; a table on both sides gets one combined predicate.
* `Feature.factors`: the factors of a predicate.
* `anyOf`, `disjunction`: some predicate among several holds; they are ordered by their texts.
-/

namespace QueryAlgebra

/-- Predicates by table. -/
abbrev Factors := KeyedMap Schema Feature

/-- Either of two predicates alone if they are the same, else both under an operator. -/
def unite (op : Operator) (a b : Feature) : Feature :=
  if a.key == b.key then a else .expression op [a, b] none

namespace Factors

/-- Gives a table a predicate, combined with the one it has. -/
def add (op : Operator) (acc : Factors) (t : Schema) (p : Feature) : Factors :=
  match acc.get? t with
  | none   => acc.set t p
  | some q => acc.set t (unite op q p)

/-- The predicates of both sides, combined for the tables on both. -/
def merge (op : Operator) (a b : Factors) : Factors :=
  b.toList.foldl (fun acc e => add op acc e.1 e.2) a

/-- Whether both give the same predicates to the same tables, in any order. -/
def same (a b : Factors) : Bool :=
  a.size == b.size && a.toList.all fun e =>
    match b.get? e.1 with
    | some p => p.key == e.2.key
    | none   => false

def text (a : Factors) : String :=
  "\x7b" ++ String.intercalate ", " (a.toList.map fun e => e.1.name ++ ": " ++ e.2.text) ++ "\x7d"

end Factors

/-- The tables whose columns lie inside a feature. -/
def tablesIn (f : Feature) : List Schema :=
  (KeyedSet.ofList ((columnsIn [f]).filterMap Feature.table?)).toList

namespace Feature

/-- The whole predicate as the factor of the only table it speaks about. -/
def ownFactor (f : Feature) : Factors :=
  match tablesIn f with
  | [t] => KeyedMap.empty.set t f
  | _   => KeyedMap.empty

/-- The factors of a predicate: a conjunction has those of both sides, and so has a disjunction over
several tables. Anything that is no predicate has none. -/
def factors : Feature → Factors
  | .aliased f _ => f.factors
  | .expression op [a, b] t =>
    let whole := Feature.expression op [a, b] t
    if !whole.kind.isBoolean then .empty
    else match op with
      | .and => Factors.merge .and a.factors b.factors
      | .or  =>
        match tablesIn whole with
        | [t] => KeyedMap.empty.set t whole
        | _   => Factors.merge .or a.factors b.factors
      | _    => whole.ownFactor
  | f => if f.kind.isBoolean then f.ownFactor else .empty

end Feature

/-- Inserts into a list ordered by `before`, after all items that do not come later. -/
def insertOrdered {α : Type} (before : α → α → Bool) (a : α) : List α → List α
  | []     => [a]
  | b :: r => if before a b then a :: b :: r else b :: insertOrdered before a r

/-- A list in the order given by `before`; items that neither precede keep their order. -/
def ordered {α : Type} (before : α → α → Bool) (as : List α) : List α :=
  as.foldl (fun acc a => insertOrdered before a acc) []

/-- Features ordered by their texts. -/
def orderedByText (fs : List Feature) : List Feature :=
  ordered (fun a b => Text.before a.text b.text) fs

/-- One of the predicates holds, ordered by their texts; none for no predicates. -/
def anyOf (ps : List Feature) : Option Feature :=
  match orderedByText ps with
  | []     => none
  | p :: r => some (r.foldl (fun acc q => .expression .or [acc, q] none) p)

/-- One of the features holds. Of several, all must be predicates. -/
def disjunction (fs : List Feature) : Except Fault (Option Feature) := do
  if 2 ≤ fs.length then
    (orderedByText fs).forM fun f => do let _ ← (Kind.primitive .boolean).ensure f.kind
  return anyOf fs

end QueryAlgebra
