import QueryAlgebra.Number.Read
import QueryAlgebra.Value.Record
import QueryAlgebra.Value.Text

/-!
# Values as JSON

* `Value.jsonText`: a value as JSON text.
* `Value.ofJson?`: the value of a JSON text. The members of an object are assigned in turn.
-/

namespace QueryAlgebra

namespace Value

mutual

/-- A value as JSON text; numbers that JSON cannot write are null. -/
def jsonText : Value → String
  | .bool b    => boolText b
  | .number n  => if n.isFinite then n.text else "null"
  | .text s    => Text.json s
  | .date t    => (t.map fun i => Text.json i.iso).getD "null"
  | .list vs   => "[" ++ String.intercalate "," (jsonTexts vs) ++ "]"
  | .record fs => "\x7b" ++ String.intercalate "," (jsonFields fs) ++ "\x7d"
  | .dict _    => "\x7b\x7d"
  | _          => "null"

def jsonTexts : List Value → List String
  | []     => []
  | v :: r => v.jsonText :: jsonTexts r

/-- The members of a record; absent values are left out. -/
def jsonFields : List (String × Value) → List String
  | []                => []
  | (_, .absent) :: r => jsonFields r
  | (n, v) :: r       => (Text.json n ++ ":" ++ v.jsonText) :: jsonFields r

end

/-! ### Reading -/

/-- A text without the blanks at its head. -/
def skipBlanks (cs : List Char) : List Char :=
  cs.dropWhile fun c => c = ' ' ∨ c = '\t' ∨ c = '\n' ∨ c = '\r'

/-- The character behind a backslash, if one letter tells which. -/
def escaped? : Char → Option Char
  | '"'  => some '"'
  | '\\' => some '\\'
  | '/'  => some '/'
  | 'n'  => some '\n'
  | 't'  => some '\t'
  | 'r'  => some '\r'
  | 'b'  => some '\x08'
  | 'f'  => some '\x0c'
  | _    => none

/-- The character of two UTF-16 units. -/
def joinUnits (high low : Nat) : Char :=
  Char.ofNat (0x10000 + (high - 0xD800) * 0x400 + (low - 0xDC00))

/-- The rest of a string behind its opening quote, and what follows it. A unit of a pair waits for
the other one. -/
def readString (waiting : Option Nat) : List Char → Option (List Char × List Char)
  | '"' :: r => some ([], r)
  | '\\' :: 'u' :: a :: b :: c :: d :: r => do
    let unit ← amount? 16 [a, b, c, d]
    match waiting with
    | some high => do
      let (cs, r) ← readString none r
      return (joinUnits high unit :: cs, r)
    | none =>
      if 0xD800 ≤ unit ∧ unit < 0xDC00 then readString (some unit) r
      else do
        let (cs, r) ← readString none r
        return (Char.ofNat unit :: cs, r)
  | '\\' :: c :: r => do
    let c ← escaped? c
    let (cs, r) ← readString none r
    return (c :: cs, r)
  | c :: r => do
    let (cs, r) ← readString none r
    return (c :: cs, r)
  | [] => none

/-- Whether a character may stand in a number. -/
def isNumeral (c : Char) : Bool :=
  c.isDigit || c == '-' || c == '+' || c == '.' || c == 'e' || c == 'E'

mutual

/-- The value at the head of a text, and what follows it. Every step spends fuel. -/
def readValue : Nat → List Char → Option (Value × List Char)
  | 0,        _  => none
  | fuel + 1, cs =>
    match skipBlanks cs with
    | '\x7b' :: r =>
      match skipBlanks r with
      | '\x7d' :: r => some (.record [], r)
      | r           => (readMembers fuel r).map fun (ms, r) => (.record (Record.ofList ms), r)
    | '[' :: r =>
      match skipBlanks r with
      | ']' :: r => some (.list [], r)
      | r        => (readItems fuel r).map fun (vs, r) => (.list vs, r)
    | '"' :: r => (readString none r).map fun (s, r) => (.text (String.ofList s), r)
    | 't' :: 'r' :: 'u' :: 'e' :: r        => some (.bool true, r)
    | 'f' :: 'a' :: 'l' :: 's' :: 'e' :: r => some (.bool false, r)
    | 'n' :: 'u' :: 'l' :: 'l' :: r        => some (.null, r)
    | cs =>
      let (numeral, r) := cs.span isNumeral
      if numeral.isEmpty then none
      else some (.number (.ofText (String.ofList numeral)), r)

/-- The items of a list up to its closing bracket, and what follows it. -/
def readItems : Nat → List Char → Option (List Value × List Char)
  | 0,        _  => none
  | fuel + 1, cs => do
    let (v, r) ← readValue fuel cs
    match skipBlanks r with
    | ']' :: r => return ([v], r)
    | ',' :: r => do
      let (vs, r) ← readItems fuel r
      return (v :: vs, r)
    | _ => none

/-- The members of an object up to its closing brace, and what follows it. -/
def readMembers : Nat → List Char → Option (List (String × Value) × List Char)
  | 0,        _  => none
  | fuel + 1, cs => do
    let (.text name, r) ← readValue fuel cs | none
    let ':' :: r := skipBlanks r | none
    let (v, r) ← readValue fuel r
    match skipBlanks r with
    | '\x7d' :: r => return ([(name, v)], r)
    | ',' :: r    => do
      let (ms, r) ← readMembers fuel r
      return ((name, v) :: ms, r)
    | _ => none

end

/-- The value that a JSON text spells. -/
def ofJson? (text : String) : Option Value := do
  let cs := text.toList
  let (v, r) ← readValue (2 * cs.length + 2) cs
  if (skipBlanks r).isEmpty then some v else none

end Value

end QueryAlgebra
