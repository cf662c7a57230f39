import QueryAlgebra.Log.Entry

/-!
# Loggers

* `Logger`: where entries go, from which level on, and with which contexts.
* `Journal`: what loggers leave behind: entries that are kept and lines that are written.
* `Logger.log`: a message logged.
* `Journal.ofLevel`: the entries of one level.
-/

namespace QueryAlgebra.Log

/-- Where the entries of a logger go. -/
inductive Sink where
  /-- They are kept. -/
  | kept
  /-- They are written as lines. -/
  | written (format : Format)
  /-- They go to the listener alone. -/
  | listened
  /-- Nowhere. -/
  | nowhere
deriving DecidableEq

structure Logger where
  sink     : Sink
  least    : Level
  /-- Whether a listener is told of every entry; lines that are written take its place. -/
  listener : Bool
  /-- Contexts that go with every message, the innermost first. -/
  contexts : List Context

/-- Where a line was written. -/
inductive Channel where
  | out | err
  /-- The line is what a listener was told. -/
  | tee
deriving DecidableEq

namespace Channel

def name : Channel → String
  | .out => "out"
  | .err => "err"
  | .tee => "tee"

end Channel

/-- The entries kept and the lines written so far. -/
structure Journal where
  entries : List Entry
  lines   : List (Channel × String)

namespace Journal

def empty : Journal := ⟨[], []⟩

def keep (j : Journal) (e : Entry) : Journal := { j with entries := j.entries ++ [e] }

def write (j : Journal) (c : Channel) (line : String) : Journal :=
  { j with lines := j.lines ++ [(c, line)] }

/-- Drops the entries that are kept. -/
def clear (j : Journal) : Journal := { j with entries := [] }

def ofLevel (j : Journal) (l : Level) : List Entry := j.entries.filter fun e => e.level == l

end Journal

namespace Logger

/-- The context of a message among the fixed contexts: inner ones come first, and what is said later
overrides what was said before. -/
def contextOf (contexts : List Context) (own : Option Context) : Option Context :=
  match contexts with
  | []     => own
  | c :: r => some (mergeContext c ((contextOf r own).getD []))

/-- Hands an entry to the sink. -/
def deliver (l : Logger) (e : Entry) (j : Journal) : Except Fault Journal :=
  let told (j : Journal) := if l.listener then j.write .tee e.message else j
  match l.sink with
  | .kept           => .ok (told (j.keep e))
  | .written format => do
    return j.write (if e.level = .error then .err else .out) (← e.line format)
  | .listened       => .ok (told j)
  | .nowhere        => .ok j

/-- Logs a message unless its level is too low. -/
def log (l : Logger) (clock : Number) (level : Level) (message : String) (context : Option Context)
    (report : Option Report) (j : Journal) : Except Fault Journal :=
  if level.atLeast l.least then
    l.deliver ⟨level, message, clock, contextOf l.contexts context, report⟩ j
  else .ok j

end Logger

end QueryAlgebra.Log
