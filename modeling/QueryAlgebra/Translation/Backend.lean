import QueryAlgebra.Translation.Scope

/-!
# Backends

A backend says what the nodes of a query become: which symbols stand for sources and for features.
It is handed symbols of the parts that are already translated.

* `Hooks`: all that a translation asks for, of whoever works with a state of its own and may refuse.
* `Backend`: the meanings of all nodes, and the symbols that replace the results for given nodes.
* `Backend.noTable`: the refusal of tables without a symbol of their own.
* `Backend.hooks`: what a backend answers when a translation asks.
-/

namespace QueryAlgebra.Translation

/-- A feature to order by, translated. -/
abbrev OrderSymbol (F : Type) := F × Direction

/-- What a translation asks for while it works. The answers are computations of `m`, which may keep a
state of their own, and everything may be refused. -/
structure Hooks (m : Type → Type) (S F : Type) where
  /-- Looks up the symbol of a source, if one is provided. -/
  lookupSource  : Source → ExceptT Fault m (Option S)
  /-- Looks up the symbol of a feature, if one is provided. -/
  lookupFeature : Feature → ExceptT Fault m (Option F)
  /-- The symbol by which a table is addressed. -/
  table         : Schema → ExceptT Fault m S
  /-- The symbol of the source that an element belongs to, given those visited in the scope. -/
  origin        : KeyedMap Source S → Source → ExceptT Fault m S
  /-- A scan of a table that reads fields and may apply a predicate. -/
  scan          : S → List F → Option F → ExceptT Fault m S
  /-- A source under a name, and the symbol to which its elements belong. -/
  reference     : S → String → ExceptT Fault m (S × S)
  join          : S → S → Option F → JoinType → ExceptT Fault m S
  set           : S → S → SetOp → ExceptT Fault m S
  /-- A statement: source, features, row filter, grouping keys, group filter, ordering and limit. -/
  query         : S → List F → Option F → List F → Option F → List (OrderSymbol F) →
    Option RowRange → ExceptT Fault m S
  /-- An element of an origin, given the symbol of the origin. -/
  element       : S → Source → String → ExceptT Fault m F
  aliased       : F → String → ExceptT Fault m F
  literal       : Value → Kind → ExceptT Fault m F
  expression    : Operator → List F → Kind → ExceptT Fault m F
  window        : F → List F → List (OrderSymbol F) → Option Frame → ExceptT Fault m F

/-- What the nodes of a query become. -/
structure Backend (S F : Type) where
  /-- Symbols provided for whole sources. -/
  sources    : KeyedMap Source S
  /-- Symbols provided for features. -/
  features   : KeyedMap Feature F
  /-- The symbol by which a table is addressed, given the symbol provided for it. -/
  table      : Schema → Option S → Except Fault S
  /-- A scan of a table that reads fields and may apply a predicate. -/
  scan       : S → List F → Option F → S
  /-- A source under a name, and the symbol to which its elements belong. -/
  reference  : S → String → S × S
  join       : S → S → Option F → JoinType → S
  set        : S → S → SetOp → S
  /-- A statement: source, features, row filter, grouping keys, group filter, ordering and limit. -/
  query      : S → List F → Option F → List F → Option F → List (OrderSymbol F) →
    Option RowRange → S
  /-- An element of an origin, given the symbol of the origin. -/
  element    : S → Source → String → F
  aliased    : F → String → F
  literal    : Value → Kind → Except Fault F
  expression : Operator → List F → Kind → Except Fault F
  window     : F → List F → List (OrderSymbol F) → Option Frame → Except Fault F

namespace Backend

variable {S F : Type}

/-- Tables are addressed only by symbols that are provided for them. -/
def noTable (t : Schema) (provided : Option S) : Except Fault S :=
  match provided with
  | some s => .ok s
  | none   => .error (.unknownMapping t.name)

/-- The symbol of the source that an element belongs to: the one that was visited in the scope, or
else one that holds everywhere. -/
def origin (b : Backend S F) (visited : KeyedMap Source S) (s : Source) : Except Fault S :=
  match visited.get? s with
  | some x => .ok x
  | none   =>
    match s with
    | .table t => b.table t (b.sources.get? (.table t))
    | s        =>
      match b.sources.get? s with
      | some x => .ok x
      | none   => .error (.unknownMapping s.text)

/-- What a backend answers. It keeps no state of its own. -/
def hooks (b : Backend S F) : Hooks Id S F where
  lookupSource s  := .ok (b.sources.get? s)
  lookupFeature f := .ok (b.features.get? f)
  table t         := b.table t (b.sources.get? (.table t))
  origin visited s := b.origin visited s
  scan origin fields predicate := .ok (b.scan origin fields predicate)
  reference wrapped name := .ok (b.reference wrapped name)
  join left right condition kind := .ok (b.join left right condition kind)
  set left right kind := .ok (b.set left right kind)
  query source features filter groupby having orderby rows :=
    .ok (b.query source features filter groupby having orderby rows)
  element origin s name := .ok (b.element origin s name)
  aliased f n     := .ok (b.aliased f n)
  literal v k     := b.literal v k
  expression op args kind := b.expression op args kind
  window fn partition ordering frame := b.window fn partition ordering frame

end Backend

end QueryAlgebra.Translation
