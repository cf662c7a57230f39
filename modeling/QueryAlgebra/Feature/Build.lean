import QueryAlgebra.Feature.Parts
import QueryAlgebra.Kind.OfValue

/-!
# Building features

Values stand for literals wherever a feature is expected. Arguments are checked when an expression
is built, so that every expression has a kind.

* `Operand`: a feature, or a value that stands for a literal.
* `Feature.literalOf`, `Feature.expr`, `Feature.windowOf`: literals, expressions and windows.
* `OrderSpec`, `OrderTerm.make`: what orderings are written with, and how it is read.
-/

namespace QueryAlgebra

/-- A feature, or a value that stands for a literal. -/
inductive Operand where
  | feature (f : Feature)
  | value   (v : Value)

namespace Feature

/-- The literal of a value. Without a kind the kind of the value itself is taken. -/
def literalOf (v : Value) (kind? : Option Kind) : Except Fault Feature := do
  let kind ← match kind? with
    | some k => pure k
    | none   => v.kindOf
  return .literal (← kind.cast v) kind

end Feature

namespace Operand

/-- The operand without its alias, values as literals. -/
def bare : Operand → Except Fault Feature
  | .feature f => .ok f.bare
  | .value v  => Feature.literalOf v none

/-- The operand with its alias, values as literals. -/
def whole : Operand → Except Fault Feature
  | .feature f => .ok f
  | .value v  => Feature.literalOf v none

end Operand

namespace Feature

/-- An operator applied to arguments. -/
def expr (op : Operator) (args : List Operand) (target : Option Kind) : Except Fault Feature := do
  let args ← args.mapM Operand.bare
  if args.length < op.arity.1 ∨ op.arity.2 < args.length then
    throw (.argumentCount op.name args.length)
  let built := Feature.expression op args target
  op.check (args.map kind) target built.text
  return built

/-- An operand under a name. -/
def aliasOf (operand : Operand) (name : String) : Except Fault Feature := do
  return .aliased (← operand.bare) name

end Feature

/-! ### Orderings -/

/-- A token of a direction, in any case. It is looked up in a record, which also knows names that no
field has. -/
def Direction.ofToken (token : String) : Except Fault Direction :=
  match token.toLower with
  | "asc" | "ascending"   => .ok .ascending
  | "desc" | "descending" => .ok .descending
  | name                  =>
    match Record.Member.ofName? name with
    | some m => .ok (.inherited m)
    | none   => .error (.unknownDirection token)

/-- What an ordering is written with. -/
inductive OrderSpec where
  | term    (o : OrderTerm)
  | feature (f : Feature)
  /-- A value; a text is a token of a direction. -/
  | value   (v : Value)
  /-- A list of operands; a feature and a token make a pair. -/
  | pair    (items : List Operand)

namespace Operand

/-- An operand as part of a list that is shown. -/
def itemText : Operand → String
  | .feature f       => f.text
  | .value .null    => ""
  | .value .absent  => ""
  | .value v        => v.plain

end Operand

namespace OrderSpec

/-- The text of a specification that makes no sense. -/
def shown : OrderSpec → String
  | .term o     => o.text
  | .feature f  => f.text
  | .value v   => v.plain
  | .pair items => String.intercalate "," (items.map Operand.itemText)

end OrderSpec

namespace OrderTerm

/-- Reads an ordering: terms, features, features followed by a token, and pairs of both. -/
def make : List OrderSpec → Except Fault (List OrderTerm)
  | [] => .ok []
  | .term o :: r => do return o :: (← make r)
  | .feature f :: .value (.text token) :: r => do
    let d ← Direction.ofToken token
    return .by f.bare d :: (← make r)
  | .feature f :: r => do return .by f.bare .ascending :: (← make r)
  | .pair [.feature f, .value (.text token)] :: r => do
    let d ← Direction.ofToken token
    return .by f.bare d :: (← make r)
  | spec :: _ => .error (.notAnOrdering spec.shown)

end OrderTerm

/-! ### Windows -/

/-- The place of a frame's end relative to the current row. -/
def FrameEnd.place (unbounded : Number) : FrameEnd → Number
  | .unbounded => unbounded
  | .current   => .ofNat 0
  | .offset n  => n

/-- Refuses a frame that starts after it ends. -/
def Frame.check (f : Frame) : Except Fault Unit :=
  if (f.stop.place (.infinite false)).lt (f.start.place (.infinite true)) then
    .error (.frameBounds f.key)
  else .ok ()

namespace Feature

/-- An aggregate over a partition of rows, ordered and cut to a frame. -/
def windowOf (fn : Feature) (partition : List Operand) (ordering : List OrderSpec)
    (frame : Option Frame) : Except Fault Feature := do
  unless fn.aggregates do throw (.notAWindowFunction fn.text)
  let partition ← partition.mapM Operand.bare
  let ordering ← OrderTerm.make ordering
  match frame with
  | some f => f.check
  | none   => pure ()
  return .window fn partition ordering frame

end Feature

end QueryAlgebra
