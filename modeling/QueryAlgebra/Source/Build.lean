import QueryAlgebra.Feature.Build

/-!
# Building sources

Every source is checked when it is built, so a query that makes no sense never exists.

* `Source.ref`, `Source.joined`, `Source.combined`: references, joins and set operations.
* `Clauses`, `Source.queryOf`: a statement from its clauses.
* `Source.statement`: a source as a statement.
* `Source.select`, `Source.filter`, `Source.having`, `Source.groupby`, `Source.orderby`,
  `Source.limit`: a statement with one clause changed. Filters are added to those that are there.
-/

namespace QueryAlgebra

namespace Source

/-- A source under a name. A reference to a reference refers to what that one refers to. -/
def ref (s : Source) (name : String) : Source := .reference s.unwrapped name

/-- A name of letters, one for each number that was picked. -/
def generatedName (picks : List Nat) : String :=
  String.ofList (picks.map fun n => Char.ofNat (97 + n % 26))

/-- A join of two sources. Without a kind it is an inner join if it has a condition and a cross join
if it has none; only cross joins go without. -/
def joined (left right : Source) (condition? : Option Operand) (kind? : Option JoinType) :
    Except Fault Source := do
  let kind := kind?.getD (if condition?.isNone then .cross else .inner)
  match condition? with
  | none =>
    if kind ≠ .cross then throw (.joinCondition kind.name)
    return .join left right kind none
  | some operand =>
    if kind = .cross then throw (.joinCondition kind.name)
    let predicate ← (← operand.whole).asPredicate
    predicate.refuseCollective
    predicate.requireWithin (elementsIn (left.features ++ right.features))
      (left.text ++ " and " ++ right.text)
    return .join left right kind (some predicate)

end Source

/-! ### Statements -/

/-- A row limit as it is asked for. -/
structure Limit where
  count  : Value
  offset : Value

/-- The clauses of a statement as they are asked for. -/
structure Clauses where
  selection  : List Operand
  prefilter  : Option Operand
  grouping   : List Operand
  postfilter : Option Operand
  ordering   : List OrderSpec
  rows       : Option Limit

namespace Clauses

def empty : Clauses := ⟨[], none, [], none, [], none⟩

end Clauses

/-- The row limit that is asked for: both numbers are whole and not negative. -/
def Limit.toRange (l : Limit) (owner : String) : Except Fault RowRange :=
  match l.count.natural?, l.offset.natural? with
  | some count, some offset => .ok ⟨count, offset⟩
  | _,          _           => .error (.rowLimit l.offset.plain l.count.plain owner)

/-- The row limit, as it would be asked for. -/
def RowRange.toLimit (r : RowRange) : Limit := ⟨.number (.ofNat r.count), .number (.ofNat r.offset)⟩

/-- Refuses an output feature that is neither a grouping key nor aggregated. Features without
elements are constant and need not be either. -/
def ensureGrouped (keys : List Feature) (outputs : List Feature) : Except Fault Unit :=
  let grouped := KeyedSet.ofList keys
  (outputs.filter fun f => 0 < (elementsIn [f]).size).forM fun f =>
    if grouped.has f.bare || f.hasAggregate then .ok () else .error (.ungrouped f.text)

/-- A filter that is a predicate, passes `check` and stays within the features of a source. -/
def filterOf (check : Feature → Except Fault Unit) (superset : KeyedSet Feature) (owner : String) :
    Option Operand → Except Fault (Option Feature)
  | none         => .ok none
  | some operand => do
    let predicate ← (← operand.whole).asPredicate
    check predicate
    predicate.requireWithin superset owner
    return some predicate

namespace Source

/-- A statement over a source. -/
def queryOf (source : Source) (clauses : Clauses) : Except Fault Source := do
  let superset := elementsIn source.features
  let owner := source.text
  let selection ← clauses.selection.mapM Operand.whole
  selection.forM (Feature.requireWithin superset owner)
  let prefilter ← filterOf Feature.refuseCollective superset owner clauses.prefilter
  let grouping ← clauses.grouping.mapM Operand.bare
  grouping.forM Feature.refuseCollective
  grouping.forM (Feature.requireWithin superset owner)
  unless grouping.isEmpty do
    ensureGrouped grouping (if selection.isEmpty then source.features else selection)
  let postfilter ← filterOf Feature.refuseWindow superset owner clauses.postfilter
  let ordering ← OrderTerm.make clauses.ordering
  (ordering.map OrderTerm.feature).forM (Feature.requireWithin superset owner)
  let rows ← match clauses.rows with
    | some l => some <$> l.toRange owner
    | none   => pure none
  return .query source selection prefilter grouping postfilter ordering rows

/-- A source as a statement; a statement is one already. -/
def statement (s : Source) : Except Fault Source :=
  match s with
  | .query .. => .ok s
  | s         => s.queryOf .empty

/-- A set operation on two sources as statements, whose fields must agree. -/
def combined (left right : Source) (kind : SetOp) : Except Fault Source := do
  let left ← left.statement
  let right ← right.statement
  unless left.schema.same right.schema do
    throw (.incompatibleOperands left.text right.text kind.name)
  return .set left right kind

/-- The clauses of a statement, and the source it is over. Any other source has no clauses. -/
def clauses : Source → Source × Clauses
  | .query s sel pre grp post ord rows =>
    (s, ⟨sel.map .feature, pre.map .feature, grp.map .feature, post.map .feature, ord.map .term,
      rows.map RowRange.toLimit⟩)
  | s => (s, .empty)

/-- A statement with its clauses changed. -/
def revise (s : Source) (change : Clauses → Except Fault Clauses) : Except Fault Source := do
  let q ← s.statement
  let (source, clauses) := q.clauses
  source.queryOf (← change clauses)

/-- A condition added to a filter. -/
def conjoin (filter : Option Operand) (condition : Operand) : Except Fault (Option Operand) := do
  let predicate ← condition.bare
  match filter with
  | none   => return some (.feature predicate)
  | some f => return some (.feature (← Feature.expr .and [f, .feature predicate] none))

def select (s : Source) (features : List Operand) : Except Fault Source :=
  s.revise fun c => .ok { c with selection := features }

/-- Adds a condition on rows. -/
def filter (s : Source) (condition : Operand) : Except Fault Source :=
  s.revise fun c => do return { c with prefilter := ← conjoin c.prefilter condition }

/-- Adds a condition on groups. -/
def having (s : Source) (condition : Operand) : Except Fault Source :=
  s.revise fun c => do return { c with postfilter := ← conjoin c.postfilter condition }

def groupby (s : Source) (features : List Operand) : Except Fault Source :=
  s.revise fun c => .ok { c with grouping := features }

def orderby (s : Source) (specs : List OrderSpec) : Except Fault Source :=
  s.revise fun c => .ok { c with ordering := specs }

/-- Limits the rows; without an offset none are skipped. -/
def limit (s : Source) (count offset : Value) : Except Fault Source :=
  let offset := match offset with
    | .absent => .number (.ofNat 0)
    | v       => v
  s.revise fun c => .ok { c with rows := some ⟨count, offset⟩ }

end Source

end QueryAlgebra
