import QueryAlgebra.Kind.Basic
import QueryAlgebra.Value.Coerce
import QueryAlgebra.Value.Record

/-!
# Casting values to kinds

* `Value.shown`: a value as the message of a failed cast mentions it.
* `Primitive.cast?`: the value of a primitive kind that a value turns into, if there is one.
* `Kind.cast`: a value cast to a kind, item by item for compounds. An array asks for a list, maps
  and structs for a dictionary or a record.
-/

namespace QueryAlgebra

/-- A value as messages mention it; an invalid date has no text. -/
def Value.shown : Value → Except Fault String
  | .date (some t) => .ok t.iso
  | .date none     => .error .invalidDate
  | .text s        => .ok ("'" ++ s ++ "'")
  | .list _        => .ok "array"
  | .dict _        => .ok "Map"
  | .record _      => .ok "Object"
  | v              => .ok v.plain

/-- The entries of a dictionary or a record. -/
def Value.entries? : Value → Option (List (Value × Value))
  | .dict es   => some es
  | .record fs => some (fs.map fun f => (.text f.1, f.2))
  | _          => none

/-- A number that is one, in the form a primitive asks for. -/
def Number.checked (accept : Number → Bool) (n : Number) : Option Number :=
  if accept n then some n else none

/-- The value of a primitive kind that a value turns into. Integers and decimals are finite,
floats may be infinite; integers lose their fraction and dates their time of day. -/
def Primitive.cast? : Primitive → Value → Option Value
  | .boolean,   v => some (.bool v.truth)
  | .integer,   v => (v.amount.checked Number.isFinite).map fun n => .number n.trunc
  | .float,     v => (v.amount.checked (· != .nan)).map .number
  | .decimal,   v => (v.amount.checked Number.isFinite).map .number
  | .string,    v => some (.text v.plain)
  | .date,      v => v.instant?.map fun t => .date t.midnight
  | .timestamp, v => v.instant?.map fun t => .date (some t)

namespace Kind

/-- The fault of a value that does not fit a kind. -/
def refuse {α : Type} (k : Kind) (v : Value) : Except Fault α := do
  throw (.castFailed (← v.shown) k.text k.key v)

/-- The value of the last entry whose key is a text. -/
def lookup (name : String) (es : List (Value × Value)) : Option Value :=
  (es.reverse.find? fun e => e.1.same (.text name)).map (·.2)

mutual

/-- A value cast to a kind. -/
def cast : Kind → Value → Except Fault Value
  | .primitive p, v =>
    match p.cast? v with
    | some w => .ok w
    | none   => refuse (.primitive p) v
  | .array e, v =>
    match v with
    | .list items => do return .list (← items.mapM fun item => cast e item)
    | _           => refuse (.array e) v
  | .map k e, v =>
    match v.entries? with
    | some es => do
      return .dictOf (← es.mapM fun x => do return (← cast k x.1, ← cast e x.2))
    | none    => refuse (.map k e) v
  | .struct es, v =>
    match v.entries? with
    | some fields => do return .record (← castElements (.struct es) v fields es [])
    | none        => refuse (.struct es) v

/-- The elements of a struct cast one after the other and assigned to a record. -/
def castElements (whole : Kind) (v : Value) (fields : List (Value × Value)) :
    List (String × Kind) → List (String × Value) → Except Fault (List (String × Value))
  | [],          acc => .ok acc
  | (n, k) :: r, acc =>
    match lookup n fields with
    | none   => .error (.elementMissing n whole.text whole.key v)
    | some x => do castElements whole v fields r (Record.assign acc n (← cast k x))

end

end Kind

end QueryAlgebra
