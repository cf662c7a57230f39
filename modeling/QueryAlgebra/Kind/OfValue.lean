import QueryAlgebra.Kind.Cast

/-!
# The kind of a value

* `Primitive.ofValue?`: the primitive kind of a scalar. Whole numbers are integers and all other
  numbers floats; valid or not, a date is a timestamp.
* `Value.kindOf`: the kind of a value. A list has the kind of its first item; a mapping whose keys
  are of one kind and whose values are of one kind is a map, any other with text keys a struct.
-/

namespace QueryAlgebra

/-- The primitive kind of a scalar. -/
def Primitive.ofValue? : Value → Option Primitive
  | .bool _   => some .boolean
  | .number n => some (if n.isWhole then .integer else .float)
  | .text _   => some .string
  | .date _   => some .timestamp
  | _         => none

/-- Whether all kinds are equal to the first. -/
def Kind.allSame : List Kind → Bool
  | []     => true
  | k :: r => r.all fun x => x.same k

/-- The kind of a mapping with the given keys, kinds of keys and kinds of values. -/
def Kind.ofMapping (whole : Value) (keys : List Value) (ks vs : List Kind) :
    Except Fault Kind :=
  match ks, vs with
  | k :: _, v :: _ =>
    if Kind.allSame ks && Kind.allSame vs then .ok (.map k v)
    else if ks.all fun x => x.same (.primitive .string) then
      Kind.structOf ((keys.map Value.plain).zip vs)
    else do throw (.mixedMapping (← whole.shown))
  | _, _ => .error .emptyMapping

namespace Value

mutual

/-- The kind of a value. -/
def kindOf : Value → Except Fault Kind
  | .list []         => .error .emptySequence
  | .list (v :: _)   => do return .array (← kindOf v)
  | .dict es         => do
    let ks ← kindsOfKeys es
    let vs ← kindsOfValues es
    Kind.ofMapping (.dict es) (es.map (·.1)) ks vs
  | .record fs       => do
    let vs ← kindsOfFields fs
    Kind.ofMapping (.record fs) (fs.map fun f => .text f.1)
      (fs.map fun _ => .primitive .string) vs
  | v                =>
    match Primitive.ofValue? v with
    | some p => .ok (.primitive p)
    | none   => do throw (.noKind (← v.shown))

def kindsOfKeys : List (Value × Value) → Except Fault (List Kind)
  | []          => .ok []
  | (k, _) :: r => do return (← kindOf k) :: (← kindsOfKeys r)

def kindsOfValues : List (Value × Value) → Except Fault (List Kind)
  | []          => .ok []
  | (_, v) :: r => do return (← kindOf v) :: (← kindsOfValues r)

def kindsOfFields : List (String × Value) → Except Fault (List Kind)
  | []          => .ok []
  | (_, v) :: r => do return (← kindOf v) :: (← kindsOfFields r)

end

end Value

end QueryAlgebra
