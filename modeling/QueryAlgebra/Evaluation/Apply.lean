import QueryAlgebra.Evaluation.Compare
import QueryAlgebra.Operator
import QueryAlgebra.Kind.Cast

/-!
# Operators on values

* `conjunction`, `disjunctionOf`: the three-valued connectives, in which the empty value is unknown.
* `applyOperator`: a row-wise operator on the values of one row; an empty argument makes the result
  empty, except for connectives and tests for emptiness.
* `summarize`: an aggregate over the values of a group, which ignores empty ones.
-/

namespace QueryAlgebra.Evaluation

/-! ### Row-wise operators -/

/-- All arguments hold: false if one is false, else unknown if one is unknown. -/
def conjunction (args : List Value) : Value :=
  if args.any (Value.isBool false) then .bool false
  else if args.any Value.isNull then .null else .bool true

/-- Some argument holds: true if one is true, else unknown if one is unknown. -/
def disjunctionOf (args : List Value) : Value :=
  if args.any (Value.isBool true) then .bool true
  else if args.any Value.isNull then .null else .bool false

/-- The number that an operand must be. -/
def amountOf (op : Operator) : Value → Except Fault Number
  | .number n => .ok n
  | _         => .error (.notNumeric op.name)

/-- Arithmetic. Division by zero has no value; division of integers cuts the fraction off. -/
def calculate (op : Operator) (a b : Number) (kind : Kind) : Except Fault Value :=
  match op with
  | .add => .ok (.number (a.add b))
  | .sub => .ok (.number (a.sub b))
  | .mul => .ok (.number (a.mul b))
  | .div =>
    if b.isZero then .ok .null
    else .ok (.number (match kind with
      | .primitive .integer => (a.div b).trunc
      | _                   => a.div b))
  | .mod => if b.isZero then .ok .null else .ok (.number (a.rem b))
  | _    => .error (.noRowMeaning op.name)

/-- The outcome of a comparison operator. Values without an order are unequal, and nothing else. -/
def outcome (op : Operator) (c : Comparison) : Except Fault Value :=
  match op with
  | .eq => .ok (.bool (c == .equal))
  | .ne => .ok (.bool (c != .equal))
  | .lt => .ok (.bool (c == .less))
  | .le => .ok (.bool (c == .less || c == .equal))
  | .gt => .ok (.bool (c == .greater))
  | .ge => .ok (.bool (c == .greater || c == .equal))
  | _   => .error (.noRowMeaning op.name)

/-- The year of a date; an invalid date has no number. -/
def yearOf (op : Operator) : Value → Except Fault Value
  | .date (some t) => .ok (.number (.ofInt t.day.year))
  | .date none     => .ok (.number .nan)
  | _              => .error (.notTemporal op.name)

/-- A row-wise operator on arguments none of which is empty. -/
def applyPresent (op : Operator) (args : List Value) (kind : Kind) : Except Fault Value := do
  let first := args.getD 0 .absent
  let second := args.getD 1 .absent
  match op.group with
  | .arithmetic =>
    let a ← amountOf op first
    let b ← amountOf op second
    calculate op a b kind
  | .comparison => do outcome op (← valueOrder first second)
  | .temporal   => yearOf op first
  | .cast       => kind.cast first
  | _           =>
    match op with
    | .not   => return .bool !first.truth
    | .abs   => return .number (← amountOf op first).abs
    | .ceil  => return .number (← amountOf op first).ceil
    | .floor => return .number (← amountOf op first).floor
    | _      => throw (.noRowMeaning op.name)

/-- A row-wise operator on the values of one row. -/
def applyOperator (op : Operator) (args : List Value) (kind : Kind) : Except Fault Value :=
  match op with
  | .and     => .ok (conjunction args)
  | .or      => .ok (disjunctionOf args)
  | .isNull  => .ok (.bool (args.getD 0 .absent).isNull)
  | .notNull => .ok (.bool !(args.getD 0 .absent).isNull)
  | _        => if args.any Value.isNull then .ok .null else applyPresent op args kind

/-! ### Aggregates -/

/-- The first of the values for which none later compares as `wanted` with it. -/
def extremum (wanted : Comparison) : Value → List Value → Except Fault Value
  | best, []     => .ok best
  | best, v :: r => do
    if (← valueOrder v best) = wanted then extremum wanted v r else extremum wanted best r

/-- The sum of numbers, from the first to the last. -/
def total (op : Operator) (vs : List Value) : Except Fault Number :=
  vs.foldlM (fun acc v => do return acc.add (← amountOf op v)) (.ofNat 0)

/-- An aggregate over a group of a given size. Without an argument rows are counted. -/
def summarize (op : Operator) (values? : Option (List Value)) (size : Nat) : Except Fault Value :=
  let present := (values?.getD []).filter fun v => !v.isNull
  match op with
  | .count => .ok (.number (.ofNat (match values? with
      | none   => size
      | some _ => present.length)))
  | _      =>
    match present with
    | []     => .ok .null
    | v :: r =>
      match op with
      | .min => extremum .less v r
      | .max => extremum .greater v r
      | .sum => do return .number (← total op present)
      | .avg => do return .number ((← total op present).div (.ofNat present.length))
      | _    => .error (.noRowMeaning op.name)

end QueryAlgebra.Evaluation
