import QueryAlgebra.Translation.Readings

/-!
# Scopes and their stacks of symbols

A translation leaves its results, called symbols, on the stack of the current scope. A scope must be
empty when it is left, and the state outlives a fault.

* `Symbol`, `Scope`, `State`: a result, a scope, and all that a translator remembers.
* `MachineT`, `Machine`: computations on the state that may end in a fault and keep the state they
  reached; `MachineT` on top of computations of another kind.
* `push`, `pop`, `takeSource`, `takeFeature`, `sole`: the stack of the current scope.
* `enter`, `exit`, `scope`: nested scopes; `scope` runs a body in one.
-/

namespace QueryAlgebra.Translation

/-- The result of translating a source or a feature. -/
inductive Symbol (S F : Type) where
  | source  (s : S)
  | feature (f : F)

/-- A scope: its symbols, the latest first, what it reads from tables, and the symbols of the tables
and references that were visited in it. -/
structure Scope (S F : Type) where
  symbols : List (Symbol S F)
  tables  : Readings
  origins : KeyedMap Source S

namespace Scope

variable {S F : Type}

def empty : Scope S F := ⟨[], .empty, .empty⟩

/-- Whether symbols are left. -/
def dirty (s : Scope S F) : Bool := !s.symbols.isEmpty

end Scope

/-- A scan that was asked for: the origin, the fields read and the predicate. -/
structure Scan (S F : Type) where
  origin    : S
  fields    : List F
  predicate : Option F

/-- A message about a node. -/
structure Note where
  message : String
  node    : String

/-- What a translator remembers: the current scope and those around it, the symbols of features by
key, the scans asked for and the notes taken. -/
structure State (S F : Type) where
  current : Scope S F
  outer   : List (Scope S F)
  memo    : List (String × F)
  scans   : List (Scan S F)
  notes   : List Note

namespace State

variable {S F : Type}

/-- A translator that has done nothing yet. -/
def fresh : State S F := ⟨.empty, [], [], [], []⟩

/-- The number of scopes. -/
def depth (st : State S F) : Nat := st.outer.length + 1

end State

/-- Computations that keep the state they reached when they end in a fault, with steps in `m`. -/
abbrev MachineT (m : Type → Type) (S F : Type) := ExceptT Fault (StateT (State S F) m)

/-- Such computations whose steps do nothing else. -/
abbrev Machine (S F : Type) := MachineT Id S F

variable {m : Type → Type} [Monad m] {S F α : Type}

/-- Changes the current scope. -/
def modifyScope (change : Scope S F → Scope S F) : MachineT m S F Unit :=
  modify fun st => { st with current := change st.current }

/-- Changes what the current scope reads from its tables. -/
def modifyTables (change : Readings → Readings) : MachineT m S F Unit :=
  modifyScope fun sc => { sc with tables := change sc.tables }

/-! ### The stack -/

def push (x : Symbol S F) : MachineT m S F Unit :=
  modifyScope fun sc => { sc with symbols := x :: sc.symbols }

def pop : MachineT m S F (Symbol S F) := do
  match (← get).current.symbols with
  | []     => throw .emptyScope
  | x :: r =>
    modifyScope fun sc => { sc with symbols := r }
    return x

/-- A symbol as that of a source. -/
def Symbol.asSource : Symbol S F → MachineT m S F S
  | .source s  => return s
  | .feature _ => throw .sourceExpected

/-- A symbol as that of a feature. -/
def Symbol.asFeature : Symbol S F → MachineT m S F F
  | .feature f => return f
  | .source _  => throw .featureExpected

def takeSource : MachineT m S F S := do (← pop).asSource

def takeFeature : MachineT m S F F := do (← pop).asFeature

/-- Takes the only symbol of the current scope. -/
def sole : MachineT m S F (Symbol S F) := do
  let x ← pop
  if (← get).current.dirty then throw .prematureFetch
  return x

def soleSource : MachineT m S F S := do (← sole).asSource

def soleFeature : MachineT m S F F := do (← sole).asFeature

/-! ### Nesting -/

/-- Opens a scope. -/
def enter : MachineT m S F Unit :=
  modify fun st => { st with current := .empty, outer := st.current :: st.outer }

/-- Drops the current scope; the outermost one stays. -/
def discard : MachineT m S F Unit :=
  modify fun st =>
    match st.outer with
    | []     => st
    | o :: r => { st with current := o, outer := r }

/-- Closes the current scope, which must be a nested one without symbols. -/
def exit : MachineT m S F Unit := do
  let st ← get
  if st.outer.isEmpty then throw .unbalancedExit
  if st.current.dirty then throw .symbolsLeft
  discard

/-- Runs a body in a scope of its own. When it fails, the scope is dropped with all it holds. -/
def scope (body : MachineT m S F α) : MachineT m S F α := do
  enter
  let result ← tryCatch body fun fault => do
    discard
    throw fault
  exit
  return result

end QueryAlgebra.Translation
