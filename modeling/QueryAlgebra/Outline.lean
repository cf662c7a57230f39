import QueryAlgebra.Translation.Trees

/-!
# Outlines

A backend that writes down what every node of a query was made of: its sort and the outlines of its
parts. Tables must be given symbols.

* `Outline.backend`: the backend.
-/

namespace QueryAlgebra.Outline

open Translation

/-- Outlines with commas between them. -/
def listed (texts : List String) : String := String.intercalate "," texts

/-- An outline, or a dash where there is none. -/
def orDash (text : Option String) : String := text.getD "-"

/-- A sort with its parts. -/
def node (sort : String) (parts : List String) : String :=
  sort ++ "(" ++ String.intercalate ";" parts ++ ")"

/-- The terms of an ordering. -/
def terms (os : List (OrderSymbol String)) : String :=
  listed (os.map fun o => o.1 ++ " " ++ o.2.name)

/-- The backend that writes outlines. -/
def backend (sources : KeyedMap Source String) (features : KeyedMap Feature String) :
    Backend String String where
  sources    := sources
  features   := features
  table      := Backend.noTable
  scan origin fields predicate := node "table" [origin, listed fields, orDash predicate]
  reference wrapped name := (node "ref" [wrapped, name], "@" ++ name)
  join left right condition kind := node "join" [kind.name, left, right, orDash condition]
  set left right kind := node "set" [kind.name, left, right]
  query source features filter groupby having orderby rows :=
    node "query" [source, listed features, orDash filter, listed groupby, orDash having,
      terms orderby, orDash (rows.map RowRange.key)]
  element origin _ name := origin ++ "." ++ name
  aliased f n := node "alias" [f, n]
  literal v k := .ok (node "lit" [v.display, k.text])
  expression op args kind := .ok (op.name ++ "(" ++ listed (args ++ [kind.text]) ++ ")")
  window fn ps os fr :=
    .ok (node "window" [fn, listed ps, terms os, orDash (fr.map Frame.key)])

end QueryAlgebra.Outline
