import QueryAlgebra.Value.Basic

/-!
# Faults

Everything that can be refused is a fault: its cause, with the texts that the cause mentions.

* `Fault`: the causes.
* `Fault.category`: the six sorts of fault.
* `Fault.message`: what is wrong, in words.
* `Fault.subject?`: the text of the node that is at fault.
* `Fault.failedCast?`: the kind and the value of a cast that failed.
-/

namespace QueryAlgebra

/-- The sorts of fault. -/
inductive Fault.Category where
  /-- A query that makes no sense. -/
  | grammar
  /-- A value that does not fit a kind. -/
  | cast
  /-- A node for which nothing is known. -/
  | unprovisioned
  /-- A node that a backend cannot express. -/
  | unsupported
  /-- A misuse of the stack of symbols. -/
  | container
  /-- An invalid date where a text is needed. -/
  | range
deriving DecidableEq

def Fault.Category.name : Fault.Category → String
  | .grammar       => "Grammar"
  | .cast          => "Cast"
  | .unprovisioned => "Unprovisioned"
  | .unsupported   => "Unsupported"
  | .container     => "Container"
  | .range         => "Range"

/-- The cause of a refusal. -/
inductive Fault where
  | notOfFamily          (kind family : String)
  | repeatedElement      (name : String)
  | nothingToWiden
  | emptySequence
  | emptyMapping
  | mixedMapping         (shown : String)
  | noKind               (shown : String)
  | castFailed           (shown target key : String) (value : Value)
  | elementMissing       (name target key : String) (value : Value)
  | invalidDate
  | fieldNameTaken       (field schema : String)
  | basesCollide         (schema : String)
  | unknownField         (field schema : String)
  | argumentCount        (operator : String) (count : Nat)
  | operandKinds         (kinds repr : String)
  | noCastTarget         (repr : String)
  | unknownDirection     (token : String)
  | notAnOrdering        (shown : String)
  | notAWindowFunction   (repr : String)
  | frameBounds          (frame : String)
  | notAPredicate        (repr : String)
  | collective           (repr : String)
  | windowed             (repr : String)
  | notASubset           (repr owner : String)
  | ungrouped            (repr : String)
  | joinCondition        (kind : String)
  | incompatibleOperands (left right kind : String)
  | rowLimit             (offset count owner : String)
  | option               (owner path issue : String)
  | columnCount          (expected actual : Nat)
  | columnLength         (column : String) (actual expected : Nat)
  | rowCounts            (left right : Nat)
  | unknownMapping       (source : String)
  | unknownTable         (name : String)
  | unknownColumn        (column : String)
  | literalKind          (kind : String)
  | castTarget           (kind : String)
  | notNumeric           (operator : String)
  | notTemporal          (operator : String)
  | noRowMeaning         (operator : String)
  | frameMode            (mode : String)
  | windowOverGroups
  | emptyScope
  | sourceExpected
  | featureExpected
  | unbalancedExit
  | symbolsLeft
  | prematureFetch

namespace Fault

def category : Fault → Category
  | .castFailed .. | .elementMissing .. => .cast
  | .invalidDate => .range
  | .unknownMapping .. | .unknownTable .. | .unknownColumn .. => .unprovisioned
  | .literalKind .. | .castTarget .. | .notNumeric .. | .notTemporal .. | .noRowMeaning ..
  | .frameMode .. | .windowOverGroups => .unsupported
  | .emptyScope | .sourceExpected | .featureExpected | .unbalancedExit | .symbolsLeft
  | .prematureFetch => .container
  | _ => .grammar

/-- A fault in words. -/
def message : Fault → String
  | .notOfFamily kind family        => s!"{kind} not an instance of a {family}"
  | .repeatedElement name           => s!"Duplicate struct element {name}"
  | .nothingToWiden                 => "No kinds to widen"
  | .emptySequence                  => "Cannot reflect an empty sequence"
  | .emptyMapping                   => "Cannot reflect an empty mapping"
  | .mixedMapping shown             => s!"Cannot reflect heterogeneous mapping {shown}"
  | .noKind shown                   => s!"Cannot reflect value {shown}"
  | .castFailed shown target _ _    => s!"Cannot cast {shown} to {target}"
  | .elementMissing name target _ _ => s!"Missing struct element {name} for {target}"
  | .invalidDate                    => "Invalid time value"
  | .fieldNameTaken field schema    => s!"Colliding field name {field} in schema {schema}"
  | .basesCollide schema            => s!"Colliding base classes in schema {schema}"
  | .unknownField field schema      => s!"Unknown field {field} in schema {schema}"
  | .argumentCount operator count   => s!"Invalid number of arguments for {operator}: {count}"
  | .operandKinds kinds repr        => s!"Incompatible operand kinds ({kinds}) in {repr}"
  | .noCastTarget repr              => s!"Missing target kind in {repr}"
  | .unknownDirection token         => s!"Invalid direction: {token}"
  | .notAnOrdering _                => "Expecting pair of feature and direction"
  | .notAWindowFunction repr        => s!"{repr} is not a window function"
  | .frameBounds frame              => s!"Invalid window frame {frame}"
  | .notAPredicate repr             => s!"{repr} is not a predicate"
  | .collective repr                => s!"{repr} contains an aggregate or window"
  | .windowed repr                  => s!"{repr} contains a window"
  | .notASubset repr owner          => s!"{repr} not a subset of {owner} features"
  | .ungrouped repr                 => s!"{repr} is neither grouped nor aggregated"
  | .joinCondition _                => "Illegal use of condition and join type"
  | .incompatibleOperands l r _     => s!"Incompatible sources: {l} vs {r}"
  | .rowLimit offset count _        => s!"Invalid rows {offset}:{count}"
  | .option owner path issue        => s!"Invalid {owner} option {path}: {issue}"
  | .columnCount expected actual    => s!"Expecting {expected} columns, got {actual}"
  | .columnLength column actual expected =>
    s!"Column {column} has {actual} values, expecting {expected}"
  | .rowCounts left right           => s!"Cannot combine {left} rows with {right} rows"
  | .unknownMapping source          => s!"Unknown mapping for {source}"
  | .unknownTable name              => s!"Unknown table {name}"
  | .unknownColumn column           => s!"Unknown column {column}"
  | .literalKind kind               => s!"Unsupported literal kind: {kind}"
  | .castTarget kind                => s!"Unsupported cast target: {kind}"
  | .notNumeric operator            => s!"Non-numeric operand for {operator}"
  | .notTemporal operator           => s!"Non-temporal operand for {operator}"
  | .noRowMeaning operator          => s!"Unsupported expression: {operator}"
  | .frameMode mode                 => s!"Unsupported window frame mode: {mode}"
  | .windowOverGroups               => "Window over grouped rows"
  | .emptyScope                     => "Empty context"
  | .sourceExpected                 => "Expecting a source symbol"
  | .featureExpected                => "Expecting a feature symbol"
  | .unbalancedExit                 => "Unbalanced context exit"
  | .symbolsLeft                    => "Context not fetched"
  | .prematureFetch                 => "Premature fetch"

/-- The text of the node at fault, where the fault names one. -/
def subject? : Fault → Option String
  | .notOfFamily kind _         => some kind
  | .fieldNameTaken _ schema    => some schema
  | .basesCollide schema        => some schema
  | .unknownField _ schema      => some schema
  | .argumentCount operator _   => some operator
  | .operandKinds _ repr        => some repr
  | .noCastTarget repr          => some repr
  | .unknownDirection token     => some token
  | .notAnOrdering shown        => some shown
  | .notAWindowFunction repr    => some repr
  | .frameBounds frame          => some frame
  | .notAPredicate repr         => some repr
  | .collective repr            => some repr
  | .windowed repr              => some repr
  | .notASubset repr _          => some repr
  | .ungrouped repr             => some repr
  | .joinCondition kind         => some kind
  | .incompatibleOperands _ _ k => some k
  | .rowLimit _ _ owner         => some owner
  | .option _ path _            => some path
  | .unknownMapping source      => some source
  | .unknownTable name          => some name
  | .unknownColumn column       => some column
  | .literalKind kind           => some kind
  | .castTarget kind            => some kind
  | .notNumeric operator        => some operator
  | .notTemporal operator       => some operator
  | .noRowMeaning operator      => some operator
  | .frameMode mode             => some mode
  | .windowOverGroups           => some "window"
  | _                           => none

/-- The key of the kind and the value of a failed cast. -/
def failedCast? : Fault → Option (String × Value)
  | .castFailed _ _ key value     => some (key, value)
  | .elementMissing _ _ key value => some (key, value)
  | _                             => none

end Fault

end QueryAlgebra
