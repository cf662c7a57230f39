import QueryAlgebra.Sql.Keyword
import QueryAlgebra.Translation.Trees

/-!
# SQL with bound parameters

Sources and features become fragments: text with a placeholder for each parameter. A fragment knows
what it stands for, and that decides where it needs parentheses.

* `Fragment`: text, parameters and form; `Fragment.cat` puts fragments one after the other.
* `Fragment.identifier`: an identifier in double quotes, as it is.
* `Fragment.backend`: the backend that binds literals.
-/

namespace QueryAlgebra.Sql

open Translation

/-- What a fragment stands for. -/
inductive Form where
  | plain
  /-- An operator's expression, which needs parentheses as an operand. -/
  | compound
  /-- A statement or a set operation. -/
  | statement
  | join
deriving DecidableEq

/-- Text with placeholders, and the parameters in their order. -/
structure Fragment where
  text   : String
  params : List Value
  form   : Form

namespace Fragment

/-- Text without parameters. -/
def raw (text : String) : Fragment := ⟨text, [], .plain⟩

/-- A placeholder for a parameter. -/
def param (v : Value) : Fragment := ⟨"?", [v], .plain⟩

/-- An identifier in double quotes. Quotes inside it are not escaped. -/
def identifier (name : String) : Fragment := raw ("\"" ++ name ++ "\"")

/-- Fragments one after the other. -/
def cat (fs : List Fragment) : Fragment :=
  ⟨String.intercalate "" (fs.map text), fs.flatMap params, .plain⟩

/-- Fragments with a text between them. -/
def sep (between : String) (fs : List Fragment) : Fragment :=
  ⟨String.intercalate between (fs.map text), fs.flatMap params, .plain⟩

/-- Fragments with commas between them. -/
def listed (fs : List Fragment) : Fragment := sep ", " fs

def ofForm (form : Form) (f : Fragment) : Fragment := { f with form := form }

def parens (f : Fragment) : Fragment := cat [raw "(", f, raw ")"]

/-- A fragment in parentheses if it has one of the forms. -/
def parensIf (forms : List Form) (f : Fragment) : Fragment :=
  if forms.contains f.form then f.parens else f

def operand (f : Fragment) : Fragment := f.parensIf [.compound]

def subquery (f : Fragment) : Fragment := f.parensIf [.statement]

/-- A keyword and a fragment. -/
def clause (keyword : String) (f : Fragment) : Fragment := cat [raw keyword, raw " ", f]

/-- A clause of a list that stands only when the list is not empty. -/
def listClause (keyword : String) (fs : List Fragment) : List Fragment :=
  if fs.isEmpty then [] else [clause keyword (listed fs)]

/-- The terms of an ordering. -/
def orderTerms (os : List (OrderSymbol Fragment)) : List Fragment :=
  os.map fun o => cat [o.1, raw " ", raw (orderKeyword "" o.2)]

/-! ### Features -/

/-- A literal: primitive values are bound, arrays item by item. -/
def literal : Kind → Value → Except Fault Fragment
  | .array e, v =>
    match v with
    | .list items => do
      return cat [raw "ARRAY[", listed (← items.mapM fun item => literal e item), raw "]"]
    | _           => .error (.literalKind (Kind.array e).text)
  | .primitive _, v => .ok (param v)
  | k, _ => .error (.literalKind k.text)

/-- An expression from the fragments of its arguments. -/
def expression (op : Operator) (args : List Fragment) (kind : Kind) : Except Fault Fragment :=
  let operands := args.map operand
  let between (symbol : String) := (sep (" " ++ symbol ++ " ") operands).ofForm .compound
  match op with
  | .eq    => .ok (between "=")
  | .cast  =>
    match typeName? kind with
    | some t => .ok (cat ([raw "CAST("] ++ args ++ [raw " AS ", raw t, raw ")"]))
    | none   => .error (.castTarget kind.text)
  | .count => .ok (cat ([raw "count("] ++ (if args.isEmpty then [raw "*"] else args) ++ [raw ")"]))
  | _      =>
    match op.fixity with
    | .between => .ok (between op.symbol)
    | .front   => .ok ((cat (raw op.symbol :: raw " " :: operands)).ofForm .compound)
    | .behind  => .ok ((cat (operands ++ [raw " ", raw op.symbol])).ofForm .compound)
    | .call    => .ok (cat [raw op.symbol, raw "(", listed args, raw ")"])

/-- A window from the fragments of its parts. -/
def window (fn : Fragment) (partition : List Fragment) (ordering : List (OrderSymbol Fragment))
    (frame : Option Frame) : Fragment :=
  (cat [fn, raw " OVER (", sep " "
    (listClause "PARTITION BY" partition ++ listClause "ORDER BY" (orderTerms ordering)
      ++ (match frame with | some f => [raw (frameText f)] | none => [])),
    raw ")"]).ofForm .compound

/-! ### Sources -/

/-- A source under a name, and the name. -/
def reference (wrapped : Fragment) (name : String) : Fragment × Fragment :=
  (cat [wrapped.parensIf [.statement, .join], raw " AS ", identifier name], identifier name)

def join (left right : Fragment) (condition : Option Fragment) (kind : JoinType) : Fragment :=
  (cat ([left.subquery, raw " ", raw (joinKeyword false kind), raw " ",
      right.parensIf [.statement, .join]]
    ++ (match condition with | some c => [raw " ON ", c] | none => []))).ofForm .join

def set (left right : Fragment) (kind : SetOp) : Fragment :=
  (cat [left, raw " ", raw (setKeyword kind), raw " ", right]).ofForm .statement

/-- A statement from the fragments of its clauses. -/
def query (source : Fragment) (features : List Fragment) (filter : Option Fragment)
    (groupby : List Fragment) (having : Option Fragment) (orderby : List (OrderSymbol Fragment))
    (rows : Option RowRange) : Fragment :=
  let optional (keyword : String) (f : Option Fragment) := f.toList.map (clause keyword)
  (sep " "
    ([clause "SELECT" (listed features), clause "FROM" source.subquery]
      ++ optional "WHERE" filter
      ++ listClause "GROUP BY" groupby
      ++ optional "HAVING" having
      ++ listClause "ORDER BY" (orderTerms orderby)
      ++ optional "LIMIT" (rows.map fun r => raw (limitText r)))).ofForm .statement

/-- The backend that binds literals. A table without a symbol of its own goes by its name. -/
def backend (sources : KeyedMap Source Fragment) (features : KeyedMap Feature Fragment) :
    Backend Fragment Fragment where
  sources    := sources
  features   := features
  table t p  := .ok (p.getD (identifier t.name))
  scan origin _ _ := origin
  reference  := reference
  join       := join
  set        := set
  query      := query
  element origin _ name := cat [origin, raw ".", identifier name]
  aliased f n := cat [f, raw " AS ", identifier n]
  literal v k := literal k v
  expression := expression
  window fn ps os fr := .ok (window fn ps os fr)

end Fragment

end QueryAlgebra.Sql
