import QueryAlgebra.Kind.Family

/-!
# Operators

* `Operator`: the operators and functions of the query language.
* `Operator.group`, `Operator.fixity`, `Operator.symbol`, `Operator.arity`: their registry.
* `Operator.resultKind`: the kind of an operator's result, from the kinds of its arguments.
* `Operator.check`: refuses arguments whose kinds do not fit.
-/

namespace QueryAlgebra

/-- The operators. -/
inductive Operator where
  | add | sub | mul | div | mod
  | eq | ne | lt | le | gt | ge
  | and | or | not
  | isNull | notNull
  | count | avg | min | max | sum
  | abs | ceil | floor
  | year
  | cast
deriving DecidableEq

/-- The groups of operators. -/
inductive OperatorGroup where
  | arithmetic | comparison | logical | nullity | aggregate | math | temporal | cast
deriving DecidableEq

/-- Where an operator's symbol stands. -/
inductive Fixity where
  /-- Between two operands. -/
  | between
  /-- In front of one operand. -/
  | front
  /-- Behind one operand. -/
  | behind
  /-- In front of arguments in parentheses. -/
  | call
deriving DecidableEq

def OperatorGroup.name : OperatorGroup → String
  | .arithmetic => "arithmetic"
  | .comparison => "comparison"
  | .logical    => "logical"
  | .nullity    => "nullity"
  | .aggregate  => "aggregate"
  | .math       => "math"
  | .temporal   => "temporal"
  | .cast       => "cast"

def Fixity.name : Fixity → String
  | .between => "infix"
  | .front   => "prefix"
  | .behind  => "postfix"
  | .call    => "function"

namespace Operator

/-- All operators. -/
def all : List Operator :=
  [.add, .sub, .mul, .div, .mod, .eq, .ne, .lt, .le, .gt, .ge, .and, .or, .not, .isNull, .notNull,
   .count, .avg, .min, .max, .sum, .abs, .ceil, .floor, .year, .cast]

def name : Operator → String
  | .add     => "add"
  | .sub     => "sub"
  | .mul     => "mul"
  | .div     => "div"
  | .mod     => "mod"
  | .eq      => "eq"
  | .ne      => "ne"
  | .lt      => "lt"
  | .le      => "le"
  | .gt      => "gt"
  | .ge      => "ge"
  | .and     => "and"
  | .or      => "or"
  | .not     => "not"
  | .isNull  => "isNull"
  | .notNull => "notNull"
  | .count   => "count"
  | .avg     => "avg"
  | .min     => "min"
  | .max     => "max"
  | .sum     => "sum"
  | .abs     => "abs"
  | .ceil    => "ceil"
  | .floor   => "floor"
  | .year    => "year"
  | .cast    => "cast"

/-- The operator of a name. -/
def ofName? (name : String) : Option Operator := all.find? fun op => op.name == name

def group : Operator → OperatorGroup
  | .add | .sub | .mul | .div | .mod     => .arithmetic
  | .eq | .ne | .lt | .le | .gt | .ge    => .comparison
  | .and | .or | .not                    => .logical
  | .isNull | .notNull                   => .nullity
  | .count | .avg | .min | .max | .sum   => .aggregate
  | .abs | .ceil | .floor                => .math
  | .year                                => .temporal
  | .cast                                => .cast

def fixity : Operator → Fixity
  | .not              => .front
  | .isNull | .notNull => .behind
  | .and | .or        => .between
  | op                =>
    match op.group with
    | .arithmetic | .comparison => .between
    | _                         => .call

/-- The symbol of an operator for readers. -/
def symbol : Operator → String
  | .add     => "+"
  | .sub     => "-"
  | .mul     => "*"
  | .div     => "/"
  | .mod     => "%"
  | .eq      => "=="
  | .ne      => "!="
  | .lt      => "<"
  | .le      => "<="
  | .gt      => ">"
  | .ge      => ">="
  | .and     => "AND"
  | .or      => "OR"
  | .not     => "NOT"
  | .isNull  => "IS NULL"
  | .notNull => "IS NOT NULL"
  | op       => op.name

/-- The least and the greatest number of arguments. -/
def arity (op : Operator) : Nat × Nat :=
  match op with
  | .count => (0, 1)
  | _      =>
    match op.fixity with
    | .between => (2, 2)
    | _        => (1, 1)

def aggregates (op : Operator) : Bool := op.group == .aggregate

/-- The first of the widest primitives among kinds. -/
def widestKind (kinds : List Kind) : Kind :=
  match kinds.filterMap Kind.primitive? with
  | []     => .primitive .integer
  | p :: r => .primitive (widestFrom p r)

/-- The kind of the result: numbers widen, tests are boolean, counts, rounding and years are
integers, and a cast has the kind it casts to. -/
def resultKind (op : Operator) (kinds : List Kind) (target : Option Kind) : Kind :=
  match op.group with
  | .arithmetic => widestKind kinds
  | .comparison | .logical | .nullity => .primitive .boolean
  | .aggregate  => if op = .count then .primitive .integer else widestKind kinds
  | .math       => if op = .abs then widestKind kinds else .primitive .integer
  | .temporal   => .primitive .integer
  | .cast       => target.getD (.primitive .integer)

/-- Refuses the first kind outside a family. -/
def ensureAll (f : Family) (kinds : List Kind) : Except Fault Unit :=
  kinds.forM fun k => do let _ ← f.ensure k

/-- Whether operands of these kinds can be compared: all are numbers, or all are of one kind. -/
def comparable (kinds : List Kind) : Bool :=
  kinds.all Kind.isNumeric || (match kinds with | [] => true | k :: r => r.all fun x => x.same k)

/-- Refuses arguments whose kinds do not fit; `repr` is the expression as text. -/
def check (op : Operator) (kinds : List Kind) (target : Option Kind) (repr : String) :
    Except Fault Unit :=
  match op.group with
  | .arithmetic | .math => ensureAll .numeric kinds
  | .comparison =>
    if comparable kinds then .ok ()
    else .error (.operandKinds (String.intercalate ", " (kinds.map Kind.text)) repr)
  | .logical    => kinds.forM fun k => do let _ ← (Kind.primitive .boolean).ensure k
  | .nullity    => .ok ()
  | .aggregate  => if op = .count then .ok () else ensureAll .numeric kinds
  | .temporal   => ensureAll .temporal kinds
  | .cast       => if target.isSome then .ok () else .error (.noCastTarget repr)

end Operator

end QueryAlgebra
