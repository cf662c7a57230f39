import QueryAlgebra.Tree.Key

/-!
# Keywords

The words that SQL has for the parts of a query, whether literals stand in the text or are bound.

* `joinKeyword`, `setKeyword`, `orderKeyword`, `typeName?`: the words for joins, set operations,
  directions and cast targets.
* `limitText`, `frameText`: row limits and window frames.
-/

namespace QueryAlgebra.Sql

/-- The keyword of a join; `outer` says whether outer joins say so. -/
def joinKeyword (outer : Bool) : JoinType → String
  | .inner => "JOIN"
  | .left  => if outer then "LEFT OUTER JOIN" else "LEFT JOIN"
  | .right => if outer then "RIGHT OUTER JOIN" else "RIGHT JOIN"
  | .full  => if outer then "FULL OUTER JOIN" else "FULL JOIN"
  | .cross => "CROSS JOIN"

def setKeyword : SetOp → String
  | .union        => "UNION"
  | .intersection => "INTERSECT"
  | .difference   => "EXCEPT"

/-- The keyword of a direction; `missing` stands where there is none. -/
def orderKeyword (missing : String) : Direction → String
  | .ascending   => "ASC"
  | .descending  => "DESC"
  | .inherited _ => missing

/-- The type that a cast names; only primitive kinds have one. -/
def typeName? : Kind → Option String
  | .primitive .boolean   => some "BOOLEAN"
  | .primitive .integer   => some "BIGINT"
  | .primitive .float     => some "DOUBLE"
  | .primitive .decimal   => some "DECIMAL"
  | .primitive .string    => some "VARCHAR"
  | .primitive .date      => some "DATE"
  | .primitive .timestamp => some "TIMESTAMP"
  | _                     => none

/-- The numbers of a row limit; an offset of zero is left out. -/
def limitText (r : RowRange) : String :=
  if r.offset = 0 then r.countText else r.offsetText ++ ", " ++ r.countText

/-- An end of a window frame; `side` is where an unbounded one lies. -/
def boundText (side : String) : FrameEnd → String
  | .unbounded => "UNBOUNDED " ++ side
  | .current   => "CURRENT ROW"
  | .offset n  =>
    if n.isZero then "CURRENT ROW"
    else if n.lt (.ofNat 0) then n.neg.text ++ " PRECEDING"
    else n.text ++ " FOLLOWING"

/-- A window frame. -/
def frameText (f : Frame) : String :=
  f.mode.name.toUpper ++ " BETWEEN " ++ boundText "PRECEDING" f.start
    ++ " AND " ++ boundText "FOLLOWING" f.stop

end QueryAlgebra.Sql
