import QueryAlgebra.Translation.Backend

/-!
# Translating trees

Trees are translated from their leaves upwards. The result of a node is left on the stack of the
current scope, and every statement is translated in a scope of its own.

* `translateFeature`, `translateSource`: translate a tree and leave its symbol on the stack.
* `symbolOfFeature`, `symbolOfSource`: translate a tree and take its symbol. A feature that was
  translated before is not translated again.
* `finishSource`, `finishFeature`: translate a tree as the only content of the current scope.
-/

namespace QueryAlgebra.Translation

variable {m : Type → Type} [Monad m] {S F α : Type}

/-- Asks for something that may be refused. -/
def ask (answer : ExceptT Fault m α) : MachineT m S F α := fun st => do
  let r ← answer.run
  return (r, st)

/-- Takes a note about a node. -/
def takeNote (message node : String) : MachineT m S F Unit :=
  modify fun st => { st with notes := st.notes ++ [⟨message, node⟩] }

/-- Notes that the result for a node was replaced. -/
def noteReplaced (node : String) : MachineT m S F Unit :=
  takeNote ("Overriding result for " ++ node) node

/-- The symbol remembered under a key, or else the one that a translation leaves on the stack, which
is remembered from then on. -/
def remembered (key : String) (translate : MachineT m S F Unit) : MachineT m S F F := do
  match Assoc.find? (key == ·) (← get).memo with
  | some f => return f
  | none   =>
    translate
    let f ← takeFeature
    modify fun st => { st with memo := Assoc.put (· == ·) key f st.memo }
    return f

/-! ### Origins -/

/-- The symbol of the source that an element belongs to. -/
def originSymbol (h : Hooks m S F) (origin : Source) : MachineT m S F S := do
  ask (h.origin (← get).current.origins origin)

/-- Remembers the symbol of a source visited in the current scope. -/
def setOrigin (origin : Source) (s : S) : MachineT m S F Unit :=
  modifyScope fun sc => { sc with origins := sc.origins.set origin s }

/-! ### Features -/

/-- Replaces the symbol just left for a feature by the one provided for it, if there is one. When the
look-up is refused, the symbol that was left stays. -/
def replaceFeature (h : Hooks m S F) (f : Feature) : MachineT m S F Unit := do
  match (← ask (h.lookupFeature f)) with
  | none   => return ()
  | some x =>
    let _ ← takeFeature
    push (.feature x)
    noteReplaced f.text

/-- Leaves the symbol of an element on the stack. -/
def translateElement (h : Hooks m S F) (origin : Source) (name : String) (kind : Kind) :
    MachineT m S F Unit := do
  match (← ask (h.lookupFeature (.element origin name kind))) with
  | some x => push (.feature x)
  | none   => push (.feature (← ask (h.element (← originSymbol h origin) origin name)))

mutual

/-- Translates a feature and leaves its symbol on the stack. -/
def translateFeature (h : Hooks m S F) : Feature → MachineT m S F Unit
  | .aliased f n => do
    let x ← remembered f.key (translateFeature h f)
    push (.feature (← ask (h.aliased x n)))
  | .literal v k => do push (.feature (← ask (h.literal v k)))
  | .element s n k => translateElement h s n k
  | .expression op args t => do
    let xs ← symbolsOf h args
    push (.feature (← ask (h.expression op xs (Feature.expression op args t).kind)))
    replaceFeature h (.expression op args t)
  | .window fn ps os fr => do
    let x ← remembered fn.key (translateFeature h fn)
    let xs ← symbolsOf h ps
    let ys ← symbolsOfTerms h os
    push (.feature (← ask (h.window x xs ys fr)))
    replaceFeature h (.window fn ps os fr)

/-- Translates features one after the other and takes their symbols. -/
def symbolsOf (h : Hooks m S F) : List Feature → MachineT m S F (List F)
  | []     => return []
  | f :: r => do
    let x ← remembered f.key (translateFeature h f)
    return x :: (← symbolsOf h r)

/-- Translates features to order by one after the other. -/
def symbolsOfTerms (h : Hooks m S F) : List OrderTerm → MachineT m S F (List (OrderSymbol F))
  | []           => return []
  | .by f d :: r => do
    let x ← remembered f.key (translateFeature h f)
    return (x, d) :: (← symbolsOfTerms h r)

end

/-- Translates a feature and takes its symbol. -/
def symbolOfFeature (h : Hooks m S F) (f : Feature) : MachineT m S F F :=
  remembered f.key (translateFeature h f)

/-- Translates a feature that may be missing. -/
def symbolOfOption (h : Hooks m S F) : Option Feature → MachineT m S F (Option F)
  | none   => return none
  | some f => return some (← symbolOfFeature h f)

/-! ### Sources -/

/-- Replaces the symbol just left for a source by the one provided for it, if there is one. When the
look-up is refused, the symbol that was left stays. -/
def replaceSource (h : Hooks m S F) (s : Source) : MachineT m S F Unit := do
  match (← ask (h.lookupSource s)) with
  | none   => return ()
  | some x =>
    let _ ← takeSource
    push (.source x)
    noteReplaced s.text

/-- Leaves the scan of a table on the stack, with all that the current scope reads from it. -/
def translateTable (h : Hooks m S F) (t : Schema) : MachineT m S F Unit := do
  let origin ← ask (h.table t)
  setOrigin (.table t) origin
  modifyTables fun ts => ts.touch t
  let reading := (← get).current.tables.reading t
  let fields ← symbolsOf h reading.fields
  let predicate ← symbolOfOption h reading.predicate
  modify fun st => { st with scans := st.scans ++ [⟨origin, fields, predicate⟩] }
  push (.source (← ask (h.scan origin fields predicate)))

/-- What a statement reads from the tables of its scope. -/
def registerClauses (features : List Feature) (prefilter : Option Feature) (grouping : List Feature)
    (postfilter : Option Feature) (ordering : List OrderTerm) (ts : Readings) : Readings :=
  let ts := ts.select features
  let ts := match prefilter with | some p => ts.filter p | none => ts
  let ts := match postfilter with | some p => ts.select [p] | none => ts
  (ts.select grouping).select (ordering.map OrderTerm.feature)

/-- Translates a source and leaves its symbol on the stack. -/
def translateSource (h : Hooks m S F) : Source → MachineT m S F Unit
  | .table t => translateTable h t
  | .reference s n => do
    translateSource h s
    let wrapped ← takeSource
    let (origin, handle) ← ask (h.reference wrapped n)
    setOrigin (.reference s n) handle
    push (.source origin)
  | .join l r k c => do
    match c with
    | some p => modifyTables fun ts => ts.filter p
    | none   => pure ()
    translateSource h l
    let left ← takeSource
    translateSource h r
    let right ← takeSource
    let condition ← symbolOfOption h c
    push (.source (← ask (h.join left right condition k)))
    replaceSource h (.join l r k c)
  | .set l r k => do
    translateSource h l
    let left ← takeSource
    translateSource h r
    let right ← takeSource
    push (.source (← ask (h.set left right k)))
    replaceSource h (.set l r k)
  | .query s sel pre grp post ord rows => do
    let outputs := (Source.query s sel pre grp post ord rows).features
    let result ← scope do
      modifyTables (registerClauses outputs pre grp post ord)
      translateSource h s
      let source ← takeSource
      let features ← symbolsOf h outputs
      let filter ← symbolOfOption h pre
      let groupby ← symbolsOf h grp
      let having ← symbolOfOption h post
      let orderby ← symbolsOfTerms h ord
      ask (h.query source features filter groupby having orderby rows)
    push (.source result)
    replaceSource h (.query s sel pre grp post ord rows)

/-- Translates a source and takes its symbol. -/
def symbolOfSource (h : Hooks m S F) (s : Source) : MachineT m S F S := do
  translateSource h s
  takeSource

/-! ### Whole translations -/

/-- Translates a source as the only content of the current scope. -/
def finishSource (h : Hooks m S F) (s : Source) : MachineT m S F S := do
  translateSource h s
  let x ← soleSource
  takeNote "Compiled source" s.text
  return x

/-- Translates a feature as the only content of the current scope. -/
def finishFeature (h : Hooks m S F) (f : Feature) : MachineT m S F F := do
  translateFeature h f
  soleFeature

end QueryAlgebra.Translation
