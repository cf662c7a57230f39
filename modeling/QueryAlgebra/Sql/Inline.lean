import QueryAlgebra.Sql.Token
import QueryAlgebra.Sql.Dialect
import QueryAlgebra.Sql.Keyword
import QueryAlgebra.Translation.Trees

/-!
# SQL with literals in the text

Sources and features become SQL text. A text that is more than one token stands in parentheses where
it is an operand.

* `Dialect.quoted`: an identifier between quotes.
* `Dialect.standsAlone`: whether a text can be an operand as it stands.
* `literalText`: literals of primitive kinds and of arrays of them.
* `Dialect.backend`: the backend that writes text.
-/

namespace QueryAlgebra.Sql

open Translation

/-- Whether a text begins, after blanks, with the word of a statement. -/
def isStatement (text : String) : Bool :=
  match (text.toList.dropWhile Text.isBlank).splitAt 6 with
  | (word, next) =>
    word == "SELECT".toList && (match next with
      | []     => true
      | c :: _ => !(c.isAlphanum || c == '_'))

/-- A text in parentheses. -/
def parens (text : String) : String := "(" ++ text ++ ")"

/-- A statement in parentheses, any other text as it stands. -/
def subquery (text : String) : String := if isStatement text then parens text else text

/-- Texts with commas between them. -/
def listed (texts : List String) : String := String.intercalate ", " texts

/-- The terms of an ordering. -/
def orderText (os : List (OrderSymbol String)) : String :=
  listed (os.map fun o => o.1 ++ " " ++ orderKeyword "undefined" o.2)

namespace Dialect

/-- An identifier between quotes. -/
def quoted (d : Dialect) (identifier : String) : String := Text.doubled d.quote identifier

/-- The quotes that texts of the dialect are read with. -/
def quotes (d : Dialect) : List Char := ['\'', d.quote]

/-- A single token, or a literal that names its type. -/
def standsAlone (d : Dialect) (text : String) : Bool :=
  match outerTokens d.quotes text with
  | [_]    => true
  | [t, l] => (t == "DATE" || t == "TIMESTAMP") && l.startsWith "'"
  | _      => false

/-- An operand of an operator. -/
def operand (d : Dialect) (text : String) : String :=
  if d.standsAlone text then text else parens text

/-- The right side of a join: single tokens and references stand as they are. -/
def joinSide (d : Dialect) (text : String) : String :=
  if isStatement text then parens text
  else match outerTokens d.quotes text with
    | [_]       => text
    | [_, w, _] => if w == "AS" then text else parens text
    | _         => parens text

end Dialect

/-! ### Literals -/

/-- A literal of a kind. -/
def literalText : Kind → Value → Except Fault String
  | .primitive .boolean, v => .ok (if v.isBool true then "TRUE" else "FALSE")
  | .primitive .integer, v => .ok v.plain
  | .primitive .float,   v => .ok v.plain
  | .primitive .decimal, v => .ok v.plain
  | .primitive .string,  v => .ok (Text.doubled '\'' v.plain)
  | .primitive .date, v =>
    match v with
    | .date (some t) => .ok ("DATE '" ++ t.dateText ++ "'")
    | _              => .error (.literalKind (Kind.primitive .date).text)
  | .primitive .timestamp, v =>
    match v with
    | .date (some t) => .ok ("TIMESTAMP '" ++ t.timestampText ++ "'")
    | _              => .error (.literalKind (Kind.primitive .timestamp).text)
  | .array e, v =>
    match v with
    | .list items => do
      return "ARRAY[" ++ listed (← items.mapM fun item => literalText e item) ++ "]"
    | _           => .error (.literalKind (Kind.array e).text)
  | k, _ => .error (.literalKind k.text)

namespace Dialect

/-! ### Features -/

/-- An expression from the texts of its arguments. -/
def expressionText (d : Dialect) (op : Operator) (args : List String) (kind : Kind) :
    Except Fault String :=
  let operands := args.map d.operand
  let between (symbol : String) := String.intercalate (" " ++ symbol ++ " ") operands
  match op with
  | .eq    => .ok (between "=")
  | .ne    => .ok (between d.inequality)
  | .cast  =>
    match typeName? kind with
    | some t => .ok ("CAST(" ++ String.intercalate "" args ++ " AS " ++ t ++ ")")
    | none   => .error (.castTarget kind.text)
  | .count => .ok ("count(" ++ (if args.isEmpty then "*" else String.intercalate "" args) ++ ")")
  | _      =>
    match op.fixity with
    | .between => .ok (between op.symbol)
    | .front   => .ok (op.symbol ++ " " ++ String.intercalate "" operands)
    | .behind  => .ok (String.intercalate "" operands ++ " " ++ op.symbol)
    | .call    => .ok (op.symbol ++ "(" ++ listed args ++ ")")

/-- A window from the texts of its parts. -/
def windowText (fn : String) (partition : List String) (ordering : List (OrderSymbol String))
    (frame : Option Frame) : String :=
  fn ++ " OVER (" ++ String.intercalate " "
    ((if partition.isEmpty then [] else ["PARTITION BY " ++ listed partition])
      ++ (if ordering.isEmpty then [] else ["ORDER BY " ++ orderText ordering])
      ++ (match frame with | some f => [frameText f] | none => [])) ++ ")"

/-! ### Sources -/

/-- A source under a name, and the name. -/
def referenceText (d : Dialect) (wrapped name : String) : String × String :=
  (d.operand wrapped ++ " AS " ++ d.quoted name, d.quoted name)

def joinText (d : Dialect) (left right : String) (condition : Option String) (kind : JoinType) :
    String :=
  subquery left ++ " " ++ joinKeyword d.outer kind ++ " " ++ d.joinSide right
    ++ (match condition with | some c => " ON " ++ c | none => "")

def setText (left right : String) (kind : SetOp) : String :=
  left ++ " " ++ setKeyword kind ++ " " ++ right

/-- A clause that stands only when there is something to say. -/
def clause (keyword : String) : Option String → List String
  | some t => [keyword ++ " " ++ t]
  | none   => []

/-- A clause of a list that stands only when the list is not empty. -/
def listClause (keyword : String) (texts : List String) : List String :=
  if texts.isEmpty then [] else [keyword ++ " " ++ listed texts]

/-- A statement from the texts of its clauses. -/
def queryText (source : String) (features : List String) (filter : Option String)
    (groupby : List String) (having : Option String) (orderby : List (OrderSymbol String))
    (rows : Option RowRange) : String :=
  String.intercalate " "
    (["SELECT " ++ listed features, "FROM " ++ subquery source]
      ++ clause "WHERE" filter
      ++ listClause "GROUP BY" groupby
      ++ clause "HAVING" having
      ++ (if orderby.isEmpty then [] else ["ORDER BY " ++ orderText orderby])
      ++ clause "LIMIT" (rows.map limitText))

/-- The backend that writes text. A table without a symbol of its own is addressed by its name. -/
def backend (d : Dialect) (sources : KeyedMap Source String) (features : KeyedMap Feature String) :
    Backend String String where
  sources    := sources
  features   := features
  table t p  := .ok (p.getD (d.quoted t.name))
  scan origin _ _ := origin
  reference  := d.referenceText
  join       := d.joinText
  set        := setText
  query      := queryText
  element origin _ name := origin ++ "." ++ d.quoted name
  aliased f n := f ++ " AS " ++ d.quoted n
  literal v k := literalText k v
  expression := d.expressionText
  window fn ps os fr := .ok (windowText fn ps os fr)

end Dialect

end QueryAlgebra.Sql
