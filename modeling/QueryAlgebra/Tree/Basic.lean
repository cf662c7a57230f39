import QueryAlgebra.Operator
import QueryAlgebra.Schema

/-!
# Features and sources

Features are the column-level expressions of a query, sources its relations. Elements tie the two
together: an element is a field of a source.

* `Feature`, `OrderTerm`, `Source`: the trees.
* `Frame`, `FrameEnd`: the rows around a row that a window looks at.
* `RowRange`: a row limit.
* `Feature.bare`: a feature without its alias; `Feature.children`: its direct parts.
* `Feature.kind`: the kind of a feature.
-/

namespace QueryAlgebra

/-- The direction of an ordering. A token is looked up in a record, which also knows what all records
know: what is found so is neither of the two directions. -/
inductive Direction where
  | ascending | descending
  | inherited (member : Record.Member)
deriving DecidableEq

inductive FrameUnit where
  | rows | groups | range
deriving DecidableEq

/-- An end of a window frame: as far as the partition goes, the current row, or a distance from it,
negative for preceding rows. -/
inductive FrameEnd where
  | unbounded
  | current
  | offset (distance : Number)
deriving DecidableEq

structure Frame where
  mode  : FrameUnit
  start : FrameEnd
  stop  : FrameEnd
deriving DecidableEq

inductive JoinType where
  | inner | left | right | full | cross
deriving DecidableEq

inductive SetOp where
  | union | intersection | difference
deriving DecidableEq

/-- A row limit: `count` rows after the first `offset`. -/
structure RowRange where
  count  : Nat
  offset : Nat
deriving DecidableEq

mutual

/-- A column-level expression. -/
inductive Feature where
  /-- A feature under a name. -/
  | aliased    (bare : Feature) (name : String)
  /-- A constant of a kind. -/
  | literal    (value : Value) (kind : Kind)
  /-- A field of a source. -/
  | element    (origin : Source) (name : String) (kind : Kind)
  /-- An operator applied to arguments; casts name their target. -/
  | expression (op : Operator) (args : List Feature) (target : Option Kind)
  /-- An aggregate over a partition of rows instead of a group. -/
  | window     (fn : Feature) (partition : List Feature) (ordering : List OrderTerm)
               (frame : Option Frame)

/-- A feature to order by. -/
inductive OrderTerm where
  | by (feature : Feature) (direction : Direction)

/-- A relation. -/
inductive Source where
  /-- A table with its schema. -/
  | table     (schema : Schema)
  /-- Another source under a name; its elements belong to the reference. -/
  | reference (wrapped : Source) (name : String)
  | join      (left right : Source) (kind : JoinType) (condition : Option Feature)
  /-- A set operation on two statements. -/
  | set       (left right : Source) (kind : SetOp)
  /-- A statement over a source. Without a selection all its features are selected. -/
  | query     (source : Source) (selection : List Feature) (prefilter : Option Feature)
              (grouping : List Feature) (postfilter : Option Feature) (ordering : List OrderTerm)
              (rows : Option RowRange)

end

instance : Inhabited Feature := ⟨.literal .absent default⟩

instance : Inhabited Source := ⟨.table default⟩

namespace OrderTerm

def feature : OrderTerm → Feature
  | .by f _ => f

def direction : OrderTerm → Direction
  | .by _ d => d

end OrderTerm

namespace Feature

/-- The feature without its alias. -/
def bare : Feature → Feature
  | .aliased f _ => f
  | f            => f

/-- The direct parts of a feature. -/
def children : Feature → List Feature
  | .aliased f _         => [f]
  | .expression _ args _ => args
  | .window fn ps os _   => fn :: ps ++ os.map OrderTerm.feature
  | _                    => []

/-- The explicit name of a feature. -/
def name? : Feature → Option String
  | .aliased _ n   => some n
  | .element _ n _ => some n
  | _              => none

mutual

/-- The kind of a feature. -/
def kind : Feature → Kind
  | .aliased f _               => f.kind
  | .literal _ k               => k
  | .element _ _ k             => k
  | .expression op args target => op.resultKind (kinds args) target
  | .window fn _ _ _           => fn.kind

def kinds : List Feature → List Kind
  | []     => []
  | f :: r => f.kind :: kinds r

end

theorem kinds_eq_map (fs : List Feature) : kinds fs = fs.map kind := by
  induction fs with
  | nil => rfl
  | cons f r ih => simp [kinds, ih]

end Feature

namespace Source

/-- What a reference refers to; any other source is its own instance. -/
def unwrapped : Source → Source
  | .reference s _ => s
  | s              => s

/-- The sort of a source. -/
def type : Source → String
  | .table _     => "Table"
  | .reference .. => "Reference"
  | .join ..     => "Join"
  | .set ..      => "Set"
  | .query ..    => "Query"

end Source

/-- The sort of a feature. -/
def Feature.type : Feature → String
  | .aliased ..    => "Aliased"
  | .literal ..    => "Literal"
  | .element ..    => "Element"
  | .expression .. => "Expression"
  | .window ..     => "Window"

namespace Direction

def name : Direction → String
  | .ascending   => "ascending"
  | .descending  => "descending"
  | .inherited m => m.text

/-- One of the two directions. -/
def Proper (d : Direction) : Prop := d = .ascending ∨ d = .descending

instance (d : Direction) : Decidable d.Proper := inferInstanceAs (Decidable (_ ∨ _))

end Direction

namespace FrameUnit

def name : FrameUnit → String
  | .rows   => "rows"
  | .groups => "groups"
  | .range  => "range"

end FrameUnit

namespace JoinType

def name : JoinType → String
  | .inner => "inner"
  | .left  => "left"
  | .right => "right"
  | .full  => "full"
  | .cross => "cross"

end JoinType

namespace SetOp

def name : SetOp → String
  | .union        => "union"
  | .intersection => "intersection"
  | .difference   => "difference"

end SetOp

end QueryAlgebra
