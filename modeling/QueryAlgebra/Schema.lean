import QueryAlgebra.Kind.Basic
import QueryAlgebra.Keyed
import QueryAlgebra.Text.Quoted
import QueryAlgebra.Text.Units
import QueryAlgebra.Value.Record

/-!
# Fields and schemas

A schema is an ordered list of named fields. A field is found under the attribute it was declared
with or under its final name. Two schemas with the same fields are equal whatever their names.

* `Field`: a kind with an optional name; `NamedField`: a kind with its name.
* `Schema.ofEntries`: a schema of entries whose fields have distinct names.
* `Schema.declare`: a schema with base schemas, whose fields come first; an attribute that is
  declared again is replaced where it stands.
* `Schema.get`: the field of an attribute, or else the field of a name.
* `Kind.ofRecord`: the struct whose elements are the fields of a record.
-/

namespace QueryAlgebra

/-- The struct of a record of kinds. -/
def Kind.ofRecord (elements : List (String × Kind)) : Except Fault Kind :=
  Kind.structOf (Record.ofList elements)

/-- A declared field. -/
structure Field where
  kind  : Kind
  name? : Option String

namespace Field

/-- A text that encodes a field. -/
def key (f : Field) : String :=
  f.kind.key ++ ":" ++ (match f.name? with | some n => Text.json n | none => "")

def text (f : Field) : String :=
  match f.name? with
  | some n => "Field(" ++ f.kind.text ++ ", '" ++ n ++ "')"
  | none   => "Field(" ++ f.kind.text ++ ")"

def renamed (f : Field) (name : String) : Field := { f with name? := some name }

end Field

/-- A field with its final name. -/
structure NamedField where
  kind : Kind
  name : String

namespace NamedField

def toField (f : NamedField) : Field := ⟨f.kind, some f.name⟩

def key (f : NamedField) : String := f.toField.key

end NamedField

/-- A named list of fields, each under the attribute it was declared with. -/
structure Schema where
  name    : String
  entries : List (String × NamedField)

namespace Schema

instance : Inhabited Schema := ⟨⟨"", []⟩⟩

def fields (s : Schema) : List NamedField := s.entries.map (·.2)

def size (s : Schema) : Nat := s.entries.length

/-- A text that encodes the fields of a schema. -/
def key (s : Schema) : String := "(" ++ String.intercalate ", " (s.fields.map NamedField.key) ++ ")"

/-- Schemas are told apart by their fields. -/
instance : Keyed Schema := ⟨key⟩

/-- The hashes of all fields xored. -/
def hash (s : Schema) : UInt32 := s.fields.foldl (fun h f => h ^^^ Text.hash32 f.key) 0

/-- Whether two schemas have the same fields in the same order. -/
def same (s t : Schema) : Bool := s.fields.map NamedField.key == t.fields.map NamedField.key

/-- The field that was last declared under an attribute. -/
def declared? (s : Schema) (attr : String) : Option NamedField :=
  (s.entries.reverse.find? fun e => e.1 == attr).map (·.2)

def called? (s : Schema) (name : String) : Option NamedField :=
  s.fields.find? fun f => f.name == name

/-- The field declared under an attribute, or else the field of that name. -/
def get? (s : Schema) (reference : String) : Option NamedField :=
  (s.declared? reference).or (s.called? reference)

def get (s : Schema) (reference : String) : Except Fault NamedField :=
  match s.get? reference with
  | some f => .ok f
  | none   => .error (.unknownField reference s.name)

def has (s : Schema) (reference : String) : Bool := (s.get? reference).isSome

/-- A schema of entries, whose fields must have distinct names. -/
def ofEntries (name : String) (entries : List (String × NamedField)) : Except Fault Schema :=
  match Kind.firstRepeated [] (entries.map (·.2.name)) with
  | some n => .error (.fieldNameTaken n name)
  | none   => .ok ⟨name, entries⟩

/-- One inherited entry: it is appended, or agrees with the entry of its attribute. -/
def inherit (name : String) (acc : List (String × NamedField)) (e : String × NamedField) :
    Except Fault (List (String × NamedField)) :=
  match Assoc.find? (e.1 == ·) acc with
  | none   => .ok (acc ++ [e])
  | some f => if f.key == e.2.key then .ok acc else .error (.basesCollide name)

/-- A declared field under its attribute, which names it when it has no name of its own. -/
def named (attr : String) (f : Field) : NamedField := ⟨f.kind, f.name?.getD attr⟩

/-- A schema of declared fields over base schemas. -/
def declare (name : String) (fields : List (String × Field)) (bases : List Schema) :
    Except Fault Schema := do
  let inherited ← (bases.flatMap entries).foldlM (inherit name) []
  let all := (Record.ofList fields).foldl
    (fun acc e => Assoc.put (· == ·) e.1 (named e.1 e.2) acc) inherited
  ofEntries name all

end Schema

end QueryAlgebra
