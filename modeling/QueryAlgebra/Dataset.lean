import QueryAlgebra.Fault
import QueryAlgebra.Value.Record

/-!
# Data sets

Rows are kept column by column. A column has a name and, once its data is attributed to a table or a
reference, a qualifier, so that columns of one name but of different origins are told apart.

* `Dataset`: columns of equal length; `Dataset.ofColumns`, `Dataset.ofRecord`, `Dataset.ofRows`.
* `Dataset.find?`, `Dataset.column`: a column by name and qualifier; an unqualified column serves
  where no column has the qualifier.
* `Dataset.take`, `Dataset.filter`, `Dataset.concat`, `Dataset.qualify`: choosing rows, putting data
  side by side, attributing it to an origin.
* `Dataset.rows`, `Dataset.records`: the rows as tuples and as records.
-/

namespace QueryAlgebra

/-- The name of a column and the origin it is attributed to. -/
structure ColumnId where
  name      : String
  qualifier : Option String
deriving DecidableEq

def ColumnId.text (r : ColumnId) : String :=
  match r.qualifier with
  | some q => q ++ "." ++ r.name
  | none   => r.name

/-- Columns of equal length. -/
structure Dataset where
  refs    : List ColumnId
  columns : List (List Value)
  length  : Nat

namespace Dataset

instance : Inhabited Dataset := ⟨⟨[], [], 0⟩⟩

/-- The item at a position of a column; nothing where the column has none. -/
def item (column : List Value) (i : Nat) : Value := column.getD i .absent

/-- Refuses a column whose length is not the expected one. -/
def checkColumn (length : Nat) (column : ColumnId × List Value) : Except Fault Unit :=
  if column.2.length = length then .ok ()
  else .error (.columnLength column.1.text column.2.length length)

/-- A data set of columns, as long as said or else as its first column. -/
def ofColumns (refs : List ColumnId) (columns : List (List Value)) (length? : Option Nat) :
    Except Fault Dataset := do
  unless refs.length = columns.length do throw (.columnCount refs.length columns.length)
  let length := length?.getD ((columns.head?.map List.length).getD 0)
  (refs.zip columns).forM (checkColumn length)
  return ⟨refs, columns, length⟩

/-- A data set of unqualified columns, in the order of a record. -/
def ofRecord (columns : List (String × List Value)) : Except Fault Dataset :=
  let fields := Record.ofList columns
  ofColumns (fields.map fun c => ⟨c.1, none⟩) (fields.map (·.2)) none

/-- A data set of rows. -/
def ofRows (refs : List ColumnId) (rows : List (List Value)) : Dataset :=
  ⟨refs, (List.range refs.length).map fun i => rows.map fun row => item row i, rows.length⟩

def names (d : Dataset) : List String := d.refs.map ColumnId.name

/-- The position of a column: one with the very qualifier, or else one without any. -/
def find? (d : Dataset) (name : String) (qualifier : Option String) : Option Nat :=
  (d.refs.findIdx? fun r => r = ⟨name, qualifier⟩).or (d.refs.findIdx? fun r => r = ⟨name, none⟩)

/-- A column by name and qualifier. -/
def column (d : Dataset) (name : String) (qualifier : Option String) :
    Except Fault (List Value) :=
  match d.find? name qualifier with
  | some i => .ok (d.columns.getD i [])
  | none   => .error (.unknownColumn (ColumnId.text ⟨name, qualifier⟩))

/-- The same data, with all columns attributed to one origin. -/
def qualify (d : Dataset) (qualifier : String) : Dataset :=
  { d with refs := d.refs.map fun r => ⟨r.name, some qualifier⟩ }

/-- The value of a column for a chosen row; a row that is not there has empty values. -/
def chosen (column : List Value) : Option Nat → Value
  | some i => item column i
  | none   => .null

/-- The rows at the given positions. -/
def take (d : Dataset) (positions : List (Option Nat)) : Dataset :=
  ⟨d.refs, d.columns.map fun c => positions.map (chosen c), positions.length⟩

/-- The positions at which a mask is true. -/
def truePositions (mask : List Value) : List Nat :=
  (List.range mask.length).filter fun i => (item mask i).isBool true

/-- The rows for which a mask is true. -/
def filter (d : Dataset) (mask : List Value) : Dataset := d.take ((truePositions mask).map some)

/-- The columns of two equally long data sets side by side. -/
def concat (d e : Dataset) : Except Fault Dataset :=
  if d.length = e.length then .ok ⟨d.refs ++ e.refs, d.columns ++ e.columns, d.length⟩
  else .error (.rowCounts d.length e.length)

def row (d : Dataset) (i : Nat) : List Value := d.columns.map fun c => item c i

def rows (d : Dataset) : List (List Value) := (List.range d.length).map d.row

/-- One row as a record; of columns with one name the first counts. -/
def recordOf (d : Dataset) (row : List Value) : Value :=
  .record ((d.names.zip row).foldl (fun acc c =>
    if Record.inherited.contains c.1 || Assoc.has (c.1 == ·) acc then acc
    else Record.assign acc c.1 c.2) [])

def records (d : Dataset) : List Value := d.rows.map d.recordOf

end Dataset

end QueryAlgebra
