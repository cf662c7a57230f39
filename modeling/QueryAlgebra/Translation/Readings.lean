import QueryAlgebra.Factors

/-!
# What a scope reads from its tables

While a statement is translated, every table it scans is given the columns that the statement reads
from it and the predicates that may be pushed down to it.

* `Reading`: the columns and factors of one table.
* `Readings`: what a scope reads, by table.
* `Readings.select`, `Readings.filter`: register features that are read, and row filters.
* `Reading.fields`, `Reading.predicate`: the columns by name, and the disjunction of all factors.
-/

namespace QueryAlgebra.Translation

/-- The columns read from a table and the predicates about it. -/
structure Reading where
  columns : KeyedSet Feature
  factors : KeyedSet Feature

namespace Reading

def empty : Reading := ⟨.empty, .empty⟩

/-- The columns, ordered by name. -/
def fields (s : Reading) : List Feature :=
  ordered (fun a b => Text.before (a.name?.getD "") (b.name?.getD "")) s.columns.toList

/-- The predicate that a scan of the table may apply: one of the factors holds. -/
def predicate (s : Reading) : Option Feature := anyOf s.factors.toList

end Reading

/-- What a scope reads from each of its tables. -/
abbrev Readings := KeyedMap Schema Reading

namespace Readings

/-- What is read from a table: nothing, as long as nothing is registered. -/
def reading (ts : Readings) (t : Schema) : Reading := (ts.get? t).getD .empty

/-- Makes sure that a table is known. -/
def touch (ts : Readings) (t : Schema) : Readings :=
  match ts.get? t with
  | some _ => ts
  | none   => ts.set t .empty

/-- Registers one column. -/
def addColumn (ts : Readings) (column : Feature) : Readings :=
  match column.table? with
  | none   => ts
  | some t =>
    let s := ts.reading t
    ts.set t { s with columns := s.columns.add column }

/-- Registers the columns inside features. -/
def select (ts : Readings) (fs : List Feature) : Readings := (columnsIn fs).foldl addColumn ts

/-- Registers one factor. -/
def addFactor (ts : Readings) (t : Schema) (factor : Feature) : Readings :=
  let s := ts.reading t
  ts.set t { s with factors := s.factors.add factor }

/-- Registers a row filter: its columns and its factors. -/
def filter (ts : Readings) (predicate : Feature) : Readings :=
  predicate.factors.toList.foldl (fun acc e => acc.addFactor e.1 e.2) (ts.select [predicate])

end Readings

end QueryAlgebra.Translation
