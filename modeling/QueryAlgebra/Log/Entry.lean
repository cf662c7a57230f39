import QueryAlgebra.Fault
import QueryAlgebra.Value.Json

/-!
# Log entries

* `Level`: the four levels, in order; `Level.atLeast`.
* `Entry`: a message with its time, its context and the error it reports.
* `Entry.line`: an entry as JSON, or for readers.
* `atLeast_refl`, `atLeast_trans`: levels are ordered.
-/

namespace QueryAlgebra

namespace Log

/-- How serious a message is. -/
inductive Level where
  | debug | info | warn | error
deriving DecidableEq

namespace Level

def all : List Level := [.debug, .info, .warn, .error]

def name : Level → String
  | .debug => "debug"
  | .info  => "info"
  | .warn  => "warn"
  | .error => "error"

def ofName? (name : String) : Option Level := all.find? fun l => l.name == name

def rank : Level → Nat
  | .debug => 0
  | .info  => 1
  | .warn  => 2
  | .error => 3

/-- Whether a level is as serious as another one. -/
def atLeast (level least : Level) : Bool := least.rank ≤ level.rank

theorem atLeast_refl (a : Level) : a.atLeast a = true := by simp [atLeast]

theorem atLeast_trans {a b c : Level} (h : a.atLeast b = true) (k : b.atLeast c = true) :
    a.atLeast c = true := by
  simp only [atLeast, decide_eq_true_eq] at *
  exact Nat.le_trans k h

end Level

/-- Named values that go with a message. -/
abbrev Context := List (String × Value)

/-- Members of one context over those of another: an overridden member keeps its place. -/
def mergeContext (fixed extra : Context) : Context :=
  extra.foldl (fun acc e => Record.assign acc e.1 e.2) fixed

/-- An error that an entry reports. -/
structure Report where
  name    : String
  message : String

structure Entry where
  level     : Level
  message   : String
  /-- Milliseconds since the start of 1970. -/
  timestamp : Number
  context   : Option Context
  report    : Option Report

/-- The two forms of a line. -/
inductive Format where
  | json | pretty
deriving DecidableEq

namespace Report

/-- An error as a JSON value. -/
def toValue (r : Report) : Value := .record [("name", .text r.name), ("message", .text r.message)]

/-- The error that a record describes; one without a name is just an error. -/
def ofValue? : Value → Option Report
  | .record fs =>
    let text? (name : String) : Option String :=
      match Assoc.find? (name == ·) fs with
      | some (.text s) => some s
      | _              => none
    some ⟨(text? "name").getD "Error", (text? "message").getD ""⟩
  | _ => none

end Report

namespace Entry

/-- An entry as a JSON value. -/
def toValue (e : Entry) : Value :=
  .record ([("level", .text e.level.name), ("message", .text e.message),
      ("timestamp", .number e.timestamp)]
    ++ (match e.context with | some c => [("context", .record c)] | none => [])
    ++ (match e.report with | some r => [("error", r.toValue)] | none => []))

/-- A text filled up with blanks to a width. -/
def padRight (width : Nat) (s : String) : String :=
  s ++ String.ofList (List.replicate (width - s.length) ' ')

/-- An entry for readers: time, level, message and context, and the error on a line by itself. -/
def pretty (e : Entry) (time : Instant) : String :=
  "[" ++ time.iso ++ "] " ++ padRight 5 e.level.name.toUpper ++ " " ++ e.message
    ++ (match e.context with | some c => " " ++ (Value.record c).jsonText | none => "")
    ++ (match e.report with | some r => "\n  " ++ r.name ++ ": " ++ r.message | none => "")

/-- The line of an entry. For readers the time must be a valid date. -/
def line (e : Entry) : Format → Except Fault String
  | .json   => .ok e.toValue.jsonText
  | .pretty =>
    match Instant.ofNumber? e.timestamp with
    | some t => .ok (e.pretty t)
    | none   => .error .invalidDate

end Entry

end Log

end QueryAlgebra
