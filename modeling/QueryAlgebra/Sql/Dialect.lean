import QueryAlgebra.Fault
import QueryAlgebra.Text.Units

/-!
# Dialects

* `Dialect`: how identifiers are quoted, and which spellings outer joins and inequality have.
* `Dialect.ofOptions`: a dialect from options; each has a default, and no others are known.
* `Dialect.toOptions`: the options that spell a dialect out.
-/

namespace QueryAlgebra.Sql

/-- The spelling of SQL. -/
structure Dialect where
  quote      : Char
  /-- Whether outer joins say so. -/
  outer      : Bool
  /-- Whether inequality is spelled with angle brackets. -/
  angle      : Bool
deriving DecidableEq

namespace Dialect

/-- The dialect of a query without options. -/
def standard : Dialect := ⟨'"', false, false⟩

def joins (d : Dialect) : String := if d.outer then "outer" else "plain"

def inequality (d : Dialect) : String := if d.angle then "<>" else "!="

/-- A dialect as options. -/
def toOptions (d : Dialect) : Value :=
  .record [("quote", .text (String.singleton d.quote)), ("joins", .text d.joins),
    ("inequality", .text d.inequality)]

/-- The name of a value's type, as the refusal of an option mentions it. -/
def typeName : Value → String
  | .absent   => "undefined"
  | .null     => "null"
  | .bool _   => "boolean"
  | .number n => if n = .nan then "nan" else "number"
  | .text _   => "string"
  | .date _   => "date"
  | .list _   => "array"
  | .dict _   => "map"
  | .record _ => "object"

/-- The refusal of an option. -/
def refuse {α : Type} (path issue : String) : Except Fault α :=
  .error (.option "dialect" path issue)

/-- The path of an issue that concerns the options as a whole. -/
def wholePath : String := "(root)"

/-- An option that is one character. -/
def quoteOption : Option Value → Except Fault Char
  | none | some .absent => .ok standard.quote
  | some (.text s)      =>
    match s.toList with
    | [c] =>
      if Text.length16 s = 1 then .ok c
      else refuse "quote" "String must contain exactly 1 character(s)"
    | _   => refuse "quote" "String must contain exactly 1 character(s)"
  | some v              => refuse "quote" ("Expected string, received " ++ typeName v)

/-- An option with two spellings: whether the second one is chosen. -/
def choiceOption (path first second : String) : Option Value → Except Fault Bool
  | none | some .absent => .ok false
  | some (.text s)      =>
    if s = first then .ok false
    else if s = second then .ok true
    else refuse path ("Invalid enum value. Expected '" ++ first ++ "' | '" ++ second
      ++ "', received '" ++ s ++ "'")
  | some v              =>
    refuse path ("Expected '" ++ first ++ "' | '" ++ second ++ "', received " ++ typeName v)

/-- The names of the options. -/
def optionNames : List String := ["quote", "joins", "inequality"]

/-- A dialect from options. The first option that is wrong is refused, unknown ones last. -/
def ofOptions : Value → Except Fault Dialect
  | .record fs => do
    let given (name : String) : Option Value := Assoc.find? (name == ·) fs
    let quote ← quoteOption (given "quote")
    let outer ← choiceOption "joins" "plain" "outer" (given "joins")
    let angle ← choiceOption "inequality" "!=" "<>" (given "inequality")
    match (fs.map (·.1)).filter fun n => !optionNames.contains n with
    | []    => return ⟨quote, outer, angle⟩
    | names => refuse wholePath ("Unrecognized key(s) in object: "
        ++ String.intercalate ", " (names.map fun n => "'" ++ n ++ "'"))
  | .null | .absent => .ok standard
  | v               => refuse wholePath ("Expected object, received " ++ typeName v)

end Dialect

end QueryAlgebra.Sql
