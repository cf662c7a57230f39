import QueryAlgebra.Evaluation.Apply
import QueryAlgebra.Evaluation.Combine
import QueryAlgebra.Evaluation.Window
import QueryAlgebra.Translation.Trees

/-!
# Plans

Sources become functions from a catalog to data, and features become functions from a batch of rows
to a column.

* `Catalog`, `SourcePlan`: data by table name, and what a source becomes.
* `Batch`, `FeaturePlan`: rows, possibly in groups, and what a feature becomes.
* `SourcePlan.scan`, `SourcePlan.join`, `SourcePlan.set`, `SourcePlan.query`: the plans of sources.
* `FeaturePlan.constant`, `FeaturePlan.element`, `FeaturePlan.expression`, `FeaturePlan.window`: the
  plans of features.
* `backend`: the backend that makes plans.
-/

namespace QueryAlgebra.Evaluation

open Translation

/-- Data by table name. -/
abbrev Catalog := List (String × Dataset)

/-- What a source becomes. -/
abbrev SourcePlan := Catalog → Except Fault Dataset

/-- Rows that features are evaluated on. In groups, a column has a value for each group. -/
structure Batch where
  data   : Dataset
  groups : Option (List (List Nat))

namespace Batch

def ofData (d : Dataset) : Batch := ⟨d, none⟩

/-- The number of values of a column. -/
def size (b : Batch) : Nat :=
  match b.groups with
  | some gs => gs.length
  | none    => b.data.length

end Batch

/-- What a feature becomes: its column, whether it aggregates rows, and the name of the column. -/
structure FeaturePlan where
  values    : Batch → Except Fault (List Value)
  aggregate : Bool
  label     : Option String

namespace FeaturePlan

/-- A value for every row or group. -/
def constant (v : Value) (aggregate : Bool) (label : Option String) : FeaturePlan where
  values b  := .ok (List.replicate b.size v)
  aggregate := aggregate
  label     := label

/-- The column of an element: the first row stands for its group, and a group without rows has an
empty value. -/
def element (origin : Source) (name : String) : FeaturePlan where
  values b := do
    let column ← b.data.column name (some origin.label)
    match b.groups with
    | none    => return column
    | some gs => return gs.map fun g => Dataset.chosen column g.head?
  aggregate := false
  label     := some name

def aliased (f : FeaturePlan) (name : String) : FeaturePlan := { f with label := some name }

/-- An aggregate: one value for each group, or for all rows. -/
def aggregateOf (op : Operator) (argument : Option FeaturePlan) : FeaturePlan where
  values b := do
    let column ← match argument with
      | some a => some <$> a.values (.ofData b.data)
      | none   => pure none
    (b.groups.getD [List.range b.data.length]).mapM fun g =>
      summarize op (column.map fun c => g.map (Dataset.item c)) g.length
  aggregate := true
  label     := none

/-- A row-wise operator. -/
def rowWise (op : Operator) (args : List FeaturePlan) (kind : Kind) : FeaturePlan where
  values b := do
    let columns ← args.mapM fun a => a.values b
    (List.range b.size).mapM fun i =>
      applyOperator op (columns.map fun c => Dataset.item c i) kind
  aggregate := args.any FeaturePlan.aggregate
  label     := none

def expression (op : Operator) (args : List FeaturePlan) (kind : Kind) : FeaturePlan :=
  if op.aggregates then aggregateOf op args.head? else rowWise op args kind

/-- Columns to sort by. -/
def sortKeys (ordering : List (OrderSymbol FeaturePlan)) (b : Batch) :
    Except Fault (List SortKey) :=
  ordering.mapM fun o => do return (← o.1.values b, o.2)

/-- The values of a window for the rows of one partition. -/
def partitionValues (fn : FeaturePlan) (keys : List SortKey) (frame : Option Frame)
    (data : Dataset) (members : List Nat) : Except Fault (List (Nat × Value)) := do
  let sorted ← arrange members keys
  (sorted.zip (List.range sorted.length)).mapM fun p => do
    let rows ← frameAt keys frame sorted p.2
    return (p.1, Dataset.item (← fn.values ⟨data, some [rows]⟩) 0)

/-- An aggregate over the frame of each row. -/
def windowValues (fn : FeaturePlan) (partition : List FeaturePlan)
    (ordering : List (OrderSymbol FeaturePlan)) (frame : Option Frame) (b : Batch) :
    Except Fault (List Value) := do
  if b.groups.isSome then throw .windowOverGroups
  let keys ← sortKeys ordering b
  let columns ← partition.mapM fun p => p.values b
  let partitions ← groupRows b.data.length columns
  let values ← partitions.mapM (partitionValues fn keys frame b.data)
  let byRow := values.flatMap id
  return (List.range b.data.length).map fun i => (Assoc.find? (i == ·) byRow).getD .null

/-- A window; only frames that count rows can be evaluated. -/
def window (fn : FeaturePlan) (partition : List FeaturePlan)
    (ordering : List (OrderSymbol FeaturePlan)) (frame : Option Frame) :
    Except Fault FeaturePlan :=
  match frame with
  | some f =>
    if f.mode = .rows then .ok ⟨windowValues fn partition ordering frame, false, none⟩
    else .error (.frameMode f.mode.name)
  | none   => .ok ⟨windowValues fn partition ordering frame, false, none⟩

end FeaturePlan

namespace SourcePlan

/-- The data of the catalog under a name. -/
def scan (name : String) : SourcePlan := fun catalog =>
  match Assoc.find? (name == ·) catalog with
  | some d => .ok d
  | none   => .error (.unknownTable name)

/-- Fixed data. -/
def ofData (d : Dataset) : SourcePlan := fun _ => .ok d

/-- The data of a source, attributed to an origin. -/
def qualified (s : SourcePlan) (origin : String) : SourcePlan := fun catalog => do
  return (← s catalog).qualify origin

def join (left right : SourcePlan) (condition : Option FeaturePlan) (kind : JoinType) :
    SourcePlan := fun catalog => do
  let l ← left catalog
  let r ← right catalog
  let all ← product l r
  match condition with
  | none   => return all
  | some c => joinRows l r (← c.values (.ofData all)) kind

def set (left right : SourcePlan) (kind : SetOp) : SourcePlan := fun catalog => do
  let l ← left catalog
  let r ← right catalog
  combineRows l r kind

/-- The groups of a statement that a group filter leaves. Without keys all rows are one group. -/
def groupsOf (groupby : List FeaturePlan) (having : Option FeaturePlan) (data : Dataset) :
    Except Fault (List (List Nat)) := do
  let groups ←
    if groupby.isEmpty then pure [List.range data.length]
    else do groupRows data.length (← groupby.mapM fun g => g.values (.ofData data))
  match having with
  | none   => return groups
  | some h => do
    let mask ← h.values ⟨data, some groups⟩
    return ((groups.zip (List.range groups.length)).filter fun g =>
      (Dataset.item mask g.2).isBool true).map (·.1)

/-- Whether a statement is evaluated on groups. -/
def isGrouped (features groupby : List FeaturePlan) (having : Option FeaturePlan)
    (orderby : List (OrderSymbol FeaturePlan)) : Bool :=
  !groupby.isEmpty || having.isSome || features.any FeaturePlan.aggregate
    || orderby.any fun o => o.1.aggregate

/-- The output columns of a statement: labels, or names by position. -/
def outputRefs (features : List FeaturePlan) : List ColumnId :=
  (features.zip (List.range features.length)).map fun f =>
    ⟨f.1.label.getD (positional f.2), none⟩

/-- The positions that a row limit leaves. -/
def limited (rows : Option RowRange) (positions : List Nat) : List Nat :=
  match rows with
  | some r => (positions.drop r.offset).take r.count
  | none   => positions

/-- A statement: filter, group, filter groups, order, limit and project. -/
def query (source : SourcePlan) (features : List FeaturePlan) (filter : Option FeaturePlan)
    (groupby : List FeaturePlan) (having : Option FeaturePlan)
    (orderby : List (OrderSymbol FeaturePlan)) (rows : Option RowRange) : SourcePlan :=
    fun catalog => do
  let all ← source catalog
  let data ← match filter with
    | none   => pure all
    | some f => do pure (all.filter (← f.values (.ofData all)))
  let batch ←
    if isGrouped features groupby having orderby then do
      pure ⟨data, some (← groupsOf groupby having data)⟩
    else pure (Batch.ofData data)
  let keys ← FeaturePlan.sortKeys orderby batch
  let positions := limited rows (← arrange (List.range batch.size) keys)
  let columns ← features.mapM fun f => do
    let values ← f.values batch
    return positions.map (Dataset.item values)
  Dataset.ofColumns (outputRefs features) columns (some positions.length)

end SourcePlan

/-- The backend that makes plans. A table without data of its own is read from the catalog. -/
def backend (sources : KeyedMap Source SourcePlan) (features : KeyedMap Feature FeaturePlan) :
    Backend SourcePlan FeaturePlan where
  sources    := sources
  features   := features
  table t p  := .ok (SourcePlan.qualified (p.getD (SourcePlan.scan t.name)) t.name)
  scan origin _ _ := origin
  reference s n := (s.qualified n, s.qualified n)
  join       := SourcePlan.join
  set        := SourcePlan.set
  query      := SourcePlan.query
  element _ origin name := FeaturePlan.element origin name
  aliased    := FeaturePlan.aliased
  literal v _ := .ok (FeaturePlan.constant v false none)
  expression op args kind := .ok (FeaturePlan.expression op args kind)
  window     := FeaturePlan.window

end QueryAlgebra.Evaluation
