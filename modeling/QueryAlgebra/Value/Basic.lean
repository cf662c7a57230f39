import QueryAlgebra.Number.Basic
import QueryAlgebra.Instant.Basic
import QueryAlgebra.Assoc

/-!
# Values

* `Value`: the values that literals, columns and casts work on. Dates may be invalid; dictionaries
  and records keep their entries in order.
* `Value.same`: when two keys of a dictionary are one key. Only scalars can be the same key.
* `Value.dictOf`: a dictionary from entries put one after the other.
-/

namespace QueryAlgebra

/-- A value. -/
inductive Value where
  /-- Nothing: not even an empty value, as read from a place that does not exist. -/
  | absent
  /-- The empty value. -/
  | null
  | bool   (b : Bool)
  | number (n : Number)
  | text   (s : String)
  /-- A date, invalid when it has no instant. -/
  | date   (t : Option Instant)
  | list   (items : List Value)
  | dict   (entries : List (Value × Value))
  | record (fields : List (String × Value))

namespace Value

instance : Inhabited Value := ⟨.absent⟩

/-- Whether two dictionary keys are the same. Not-a-number is the same as itself, and so are the
two zeros; lists, dates, dictionaries and records are never the same. -/
def same : Value → Value → Bool
  | .absent,   .absent   => true
  | .null,     .null     => true
  | .bool a,   .bool b   => a == b
  | .number a, .number b => a == b || a.same b
  | .text a,   .text b   => a == b
  | _,         _         => false

/-- A key as a dictionary keeps it: zero has no sign. -/
def asKey : Value → Value
  | .number n => .number n.unsignedZero
  | v         => v

/-- A dictionary of entries put one after the other. -/
def dictOf (es : List (Value × Value)) : Value :=
  .dict (Assoc.ofList same (es.map fun e => (e.1.asKey, e.2)))

/-- Whether the value is exactly the empty value. -/
def isNull : Value → Bool
  | .null => true
  | _     => false

/-- Whether the value is exactly a given truth value. -/
def isBool (b : Bool) : Value → Bool
  | .bool a => a == b
  | _       => false

end Value

end QueryAlgebra
