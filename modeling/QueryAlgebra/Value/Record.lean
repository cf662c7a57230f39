import QueryAlgebra.Value.Basic

/-!
# Records

The fields of a record stand in a fixed order: first the names that spell an index, by their amount,
then all other names in the order in which they were first assigned.

* `Record.index?`: the index that a name spells.
* `Record.assign`: a field assigned; a field that is there keeps its place.
* `Record.ofList`: fields assigned one after the other.
* `Record.inherited`, `Record.Member`: what every record knows without holding it as a field.
-/

namespace QueryAlgebra.Record

variable {β : Type}

/-- The index a name spells: digits without a leading zero, below `2^32 - 1`. -/
def index? (name : String) : Option Nat :=
  match name.toList with
  | []  => none
  | ['0'] => some 0
  | c :: r =>
    if c = '0' ∨ ¬ (c :: r).all Char.isDigit ∨ 10 < (c :: r).length then none
    else
      let n := (c :: r).foldl (fun acc d => acc * 10 + (d.toNat - 48)) 0
      if n < 4294967295 then some n else none

/-- The name under which a record refers to its own ancestry. Assigning under it makes no field. -/
def ancestry : String := "__proto__"

/-- The names that every record knows without holding them as fields. -/
def inherited : List String :=
  [ancestry, "constructor", "hasOwnProperty", "isPrototypeOf", "propertyIsEnumerable", "toString",
   "toLocaleString", "valueOf", "__defineGetter__", "__defineSetter__", "__lookupGetter__",
   "__lookupSetter__"]

/-- What every record knows under a name in small letters: what makes records, and what all of them
descend from. -/
inductive Member where
  | maker | ancestor
deriving DecidableEq

namespace Member

def name : Member → String
  | .maker    => "constructor"
  | .ancestor => ancestry

/-- A member as a text. -/
def text : Member → String
  | .maker    => "function Object() \x7b [native code] \x7d"
  | .ancestor => "[object Object]"

/-- The member that every record knows under a name. -/
def ofName? (name : String) : Option Member :=
  [maker, ancestor].find? (Member.name · = name)

end Member

/-- Whether a new field of the first name stands before a field of the second. -/
def stands (new old : String) : Bool :=
  match index? new, index? old with
  | some a, some b => a < b
  | some _, none   => true
  | none,   _      => false

/-- Inserts a field with a new name at its place. -/
def insertNew (name : String) (v : β) : List (String × β) → List (String × β)
  | []     => [(name, v)]
  | e :: r => if stands name e.1 then (name, v) :: e :: r else e :: insertNew name v r

/-- Assigns a field. -/
def assign (fields : List (String × β)) (name : String) (v : β) : List (String × β) :=
  if name = ancestry then fields
  else if Assoc.has (name == ·) fields then Assoc.put (· == ·) name v fields
  else insertNew name v fields

/-- A record of fields assigned one after the other. A record that is read from a text, or made with
computed names, can hold a field under the name of its ancestry, but a copy by assignments loses it. That
is a slip, and such records are left out. -/
def ofList (es : List (String × β)) : List (String × β) :=
  es.foldl (fun acc e => assign acc e.1 e.2) []

end QueryAlgebra.Record
