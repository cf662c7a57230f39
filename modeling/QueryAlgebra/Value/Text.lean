import QueryAlgebra.Value.Basic
import QueryAlgebra.Instant.Text
import QueryAlgebra.Number.Text
import QueryAlgebra.Text.Quoted

/-!
# Texts of values

* `Value.key`: a text that encodes type and content.
* `Value.display`: a text for readers.
* `Value.plain`: the text that a value turns into when text is asked for.
* `Value.hasInvalidDate`: whether an invalid date, which has no text, lies somewhere in a value.
* `Value.tupleKey`: the key of a tuple of values.
-/

namespace QueryAlgebra

namespace Value

/-- An instant as text; an invalid date shows as such. -/
def dateText : Option Instant → String
  | some t => t.iso
  | none   => "Invalid Date"

def boolText (b : Bool) : String := if b then "true" else "false"

mutual

/-- A text that encodes the type and content of a value. -/
def key : Value → String
  | .absent    => "undefined:undefined"
  | .null      => "null"
  | .bool b    => "boolean:" ++ boolText b
  | .number n  => "number:" ++ n.text
  | .text s    => Text.json s
  | .date t    => "date:" ++ dateText t
  | .list vs   => "[" ++ String.intercalate "," (keys vs) ++ "]"
  | .dict es   => "map\x7b" ++ String.intercalate "," (entryKeys es) ++ "\x7d"
  | .record fs => "\x7b" ++ String.intercalate "," (fieldKeys fs) ++ "\x7d"

def keys : List Value → List String
  | []     => []
  | v :: r => v.key :: keys r

def entryKeys : List (Value × Value) → List String
  | []          => []
  | (k, v) :: r => (k.key ++ "=>" ++ v.key) :: entryKeys r

def fieldKeys : List (String × Value) → List String
  | []          => []
  | (n, v) :: r => (Text.json n ++ ":" ++ v.key) :: fieldKeys r

end

mutual

/-- A text of a value for readers. -/
def display : Value → String
  | .absent    => "undefined"
  | .null      => "null"
  | .bool b    => boolText b
  | .number n  => n.text
  | .text s    => "'" ++ s ++ "'"
  | .date t    => dateText t
  | .list vs   => "[" ++ String.intercalate ", " (displays vs) ++ "]"
  | .dict es   => "\x7b" ++ String.intercalate ", " (entryDisplays es) ++ "\x7d"
  | .record fs => "\x7b" ++ String.intercalate ", " (fieldDisplays fs) ++ "\x7d"

def displays : List Value → List String
  | []     => []
  | v :: r => v.display :: displays r

def entryDisplays : List (Value × Value) → List String
  | []          => []
  | (k, v) :: r => (k.display ++ ": " ++ v.display) :: entryDisplays r

def fieldDisplays : List (String × Value) → List String
  | []          => []
  | (n, v) :: r => (n ++ ": " ++ v.display) :: fieldDisplays r

end

mutual

/-- The text that a value turns into. -/
def plain : Value → String
  | .absent          => "undefined"
  | .null            => "null"
  | .bool b          => boolText b
  | .number n        => n.text
  | .text s          => s
  | .date (some t)   => t.long
  | .date none       => "Invalid Date"
  | .list vs         => String.intercalate "," (plains vs)
  | .dict _          => "[object Map]"
  | .record _        => "[object Object]"

/-- The texts of the items of a list; empty and absent items have none. -/
def plains : List Value → List String
  | []           => []
  | .null :: r   => "" :: plains r
  | .absent :: r => "" :: plains r
  | v :: r       => v.plain :: plains r

end

mutual

/-- Whether an invalid date lies somewhere in the value. -/
def hasInvalidDate : Value → Bool
  | .date t    => t.isNone
  | .list vs   => anyInvalid vs
  | .dict es   => anyEntryInvalid es
  | .record fs => anyFieldInvalid fs
  | _          => false

def anyInvalid : List Value → Bool
  | []     => false
  | v :: r => v.hasInvalidDate || anyInvalid r

def anyEntryInvalid : List (Value × Value) → Bool
  | []          => false
  | (k, v) :: r => k.hasInvalidDate || v.hasInvalidDate || anyEntryInvalid r

def anyFieldInvalid : List (String × Value) → Bool
  | []          => false
  | (_, v) :: r => v.hasInvalidDate || anyFieldInvalid r

end

/-- The key of a tuple of values. -/
def tupleKey (vs : List Value) : String := String.intercalate "|" (vs.map key)

end Value

end QueryAlgebra
