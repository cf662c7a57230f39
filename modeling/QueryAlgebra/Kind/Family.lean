import QueryAlgebra.Kind.Basic

/-!
# Families of kinds

* `Family`: the abstract sorts of kind that operators ask for.
* `Family.has`: whether a kind belongs to a family.
* `Family.ensure`: passes on a kind that belongs to a family and refuses any other.
-/

namespace QueryAlgebra

/-- A sort of kind. -/
inductive Family where
  | any | primitive | numeric | temporal | compound | array | map | struct
deriving DecidableEq

namespace Family

def all : List Family :=
  [.any, .primitive, .numeric, .temporal, .compound, .array, .map, .struct]

def name : Family → String
  | .any       => "Any"
  | .primitive => "Primitive"
  | .numeric   => "Numeric"
  | .temporal  => "Temporal"
  | .compound  => "Compound"
  | .array     => "Array"
  | .map       => "Map"
  | .struct    => "Struct"

/-- Whether a kind belongs to a family. -/
def has : Family → Kind → Bool
  | .any,       _            => true
  | .primitive, .primitive _ => true
  | .numeric,   .primitive p => p.isNumeric
  | .temporal,  .primitive p => p.isTemporal
  | .compound,  .primitive _ => false
  | .compound,  _            => true
  | .array,     .array _     => true
  | .map,       .map _ _     => true
  | .struct,    .struct _    => true
  | _,          _            => false

/-- Passes a kind on if it belongs to the family. -/
def ensure (f : Family) (k : Kind) : Except Fault Kind :=
  if f.has k then .ok k else .error (.notOfFamily k.text f.name)

end Family

end QueryAlgebra
