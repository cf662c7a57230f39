import QueryAlgebra.Tree.Basic
import QueryAlgebra.Number.Text

/-!
# Fields of sources

Every source offers features. As fields they are told apart by name: a feature keeps its own name
when no earlier one has taken it, and is named by its position otherwise.

* `nameFields`: features as fields under distinct names.
* `Source.features`, `Source.fields`: the features that a source offers, and its fields.
-/

namespace QueryAlgebra

/-- The name of an anonymous or repeated field at a position. -/
def positional (i : Nat) : String := "_" ++ String.ofList (digitsOf i)

/-- A name that is not taken: underscores are put in front until it is free. The fuel is the number
of names that can be taken. -/
def freshen (taken : List String) : Nat → String → String
  | 0,        name => name
  | fuel + 1, name => if taken.contains name then freshen taken fuel ("_" ++ name) else name

/-- The name of a field among names that are taken: its own if it has one that is free, else one by
its position. -/
def fieldName (taken : List String) (i : Nat) (name? : Option String) : String :=
  let own := name?.getD (positional i)
  freshen taken (taken.length + 1) (if taken.contains own then positional i else own)

/-- Features as fields under distinct names, from position `i` on. -/
def nameFields (taken : List String) (i : Nat) : List Feature → List NamedField
  | []     => []
  | f :: r =>
    let name := fieldName taken i f.name?
    ⟨f.kind, name⟩ :: nameFields (name :: taken) (i + 1) r

namespace Schema

/-- The field that an element of a table with this schema and a given name is bound to. -/
def resolve (s : Schema) (f : NamedField) : NamedField := (s.get? f.name).getD f

end Schema

namespace Source

/-- The fields that elements of a source are bound to. -/
def resolve (s : Source) (f : NamedField) : NamedField :=
  match s.unwrapped with
  | .table schema => schema.resolve f
  | _             => f

mutual

/-- The features that a source offers. -/
def features : Source → List Feature
  | .table schema      =>
    (schema.fields.map schema.resolve).map fun f => .element (.table schema) f.name f.kind
  | .reference s n     =>
    (s.fields.map s.resolve).map fun f => .element (.reference s n) f.name f.kind
  | .join l r _ _      => l.features ++ r.features
  | .set l _ _         => l.features
  | .query s sel _ _ _ _ _ => if sel.isEmpty then s.features else sel

/-- The fields of a source, under distinct names. -/
def fields : Source → List NamedField
  | .table schema      => schema.fields
  | .reference s _     => s.fields
  | .join l r _ _      => nameFields [] 0 (l.features ++ r.features)
  | .set l _ _         => l.fields
  | .query s sel _ _ _ _ _ => nameFields [] 0 (if sel.isEmpty then s.features else sel)

end

end Source

end QueryAlgebra
