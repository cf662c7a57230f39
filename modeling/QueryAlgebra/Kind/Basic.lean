import QueryAlgebra.Fault

/-!
# Kinds

The types of the query language: seven primitive kinds, ranked for widening, and arrays, maps and
structs over them.

* `Kind.key`: a text that encodes a kind; kinds with one key are equal.
* `Kind.text`: a kind for readers.
* `Kind.sameFamily`: whether two kinds are the same primitive or the same sort of compound.
* `Kind.structOf`: a struct of elements with distinct names.
* `widest`: the first kind of the highest rank.
-/

namespace QueryAlgebra

/-- The primitive kinds. -/
inductive Primitive where
  | boolean | integer | float | decimal | string | date | timestamp
deriving DecidableEq

namespace Primitive

def all : List Primitive := [.boolean, .integer, .float, .decimal, .string, .date, .timestamp]

def name : Primitive → String
  | .boolean   => "Boolean"
  | .integer   => "Integer"
  | .float     => "Float"
  | .decimal   => "Decimal"
  | .string    => "String"
  | .date      => "Date"
  | .timestamp => "Timestamp"

/-- Of two kinds of numbers the one of higher rank is the wider. -/
def rank : Primitive → Nat
  | .boolean   => 0
  | .integer   => 1
  | .float     => 2
  | .decimal   => 1
  | .string    => 1
  | .date      => 2
  | .timestamp => 1

def isNumeric : Primitive → Bool
  | .integer | .float | .decimal => true
  | _                            => false

def isTemporal : Primitive → Bool
  | .date | .timestamp => true
  | _                  => false

end Primitive

/-- A kind. -/
inductive Kind where
  | primitive (p : Primitive)
  | array     (element : Kind)
  | map       (key value : Kind)
  | struct    (elements : List (String × Kind))

namespace Kind

instance : Inhabited Kind := ⟨.primitive .boolean⟩

/-- The name of the family of a kind: its primitive, or the sort of compound. -/
def family : Kind → String
  | .primitive p => p.name
  | .array _     => "Array"
  | .map _ _     => "Map"
  | .struct _    => "Struct"

mutual

/-- A text that encodes a kind. -/
def key : Kind → String
  | .primitive p => p.name
  | .array e     => "Array<" ++ e.key ++ ">"
  | .map k v     => "Map<" ++ k.key ++ "," ++ v.key ++ ">"
  | .struct es   => "Struct<" ++ String.intercalate "," (elementKeys es) ++ ">"

def elementKeys : List (String × Kind) → List String
  | []          => []
  | (n, k) :: r => (n ++ ":" ++ k.key) :: elementKeys r

end

mutual

/-- A kind for readers. -/
def text : Kind → String
  | .primitive p => p.name
  | .array e     => "Array(" ++ e.text ++ ")"
  | .map k v     => "Map(" ++ k.text ++ ", " ++ v.text ++ ")"
  | .struct es   => "Struct(" ++ String.intercalate ", " (elementTexts es) ++ ")"

def elementTexts : List (String × Kind) → List String
  | []          => []
  | (n, k) :: r => (n ++ ": " ++ k.text) :: elementTexts r

end

/-- Whether two kinds have one key. -/
def same (a b : Kind) : Bool := a.key == b.key

/-- Whether two kinds are the same primitive or the same sort of compound. -/
def sameFamily (a b : Kind) : Bool := a.family == b.family

/-- Passes a kind on if it belongs to the family of another one. -/
def ensure (a b : Kind) : Except Fault Kind :=
  if a.sameFamily b then .ok b else .error (.notOfFamily b.text a.family)

def primitive? : Kind → Option Primitive
  | .primitive p => some p
  | _            => none

def isNumeric : Kind → Bool
  | .primitive p => p.isNumeric
  | _            => false

def isBoolean : Kind → Bool
  | .primitive .boolean => true
  | _                   => false

/-- The first name that an earlier element has. -/
def firstRepeated : List String → List String → Option String
  | _,    []     => none
  | seen, n :: r => if seen.contains n then some n else firstRepeated (n :: seen) r

/-- A struct of elements with distinct names. -/
def structOf (elements : List (String × Kind)) : Except Fault Kind :=
  match firstRepeated [] (elements.map (·.1)) with
  | some n => .error (.repeatedElement n)
  | none   => .ok (.struct elements)

end Kind

/-- The first primitive of the highest rank, after one that is known. -/
def widestFrom (best : Primitive) (ps : List Primitive) : Primitive :=
  ps.foldl (fun b p => if b.rank < p.rank then p else b) best

/-- The first primitive of the highest rank. -/
def widest : List Primitive → Except Fault Primitive
  | []     => .error .nothingToWiden
  | p :: r => .ok (widestFrom p r)

end QueryAlgebra
