import QueryAlgebra.Translation.Translator

/-!
# Translation without a stack

A translation leaves the stacks of symbols as it finds them and then puts its result on top. So it is
a computation that yields its result, on what a scope reads, has visited and what is remembered.

* `Bench`, `Direct`: what such computations read and change, and the computations.
* `directFeature`, `directFeatures`, `directTerms`, `directOption`, `directSource`: trees translated
  without a stack.
* `translateFeature_eq`, `symbolsOf_eq`, `translateSource_eq`: the translations with a stack put the
  results of these on it.
* `finish_eq`, `Translator.serve_finish`: so do whole translations, on an empty stack.
-/

namespace QueryAlgebra.Translation

variable {S F σ α β : Type}

/-! ### Computations on a state -/

/-- What a computation gives on a state, and the state it reaches. -/
def eval (m : ExceptT Fault (StateM σ) α) (s : σ) : Except Fault α × σ := m.run s

/-- Goes on with the result of a computation, or stops at its fault. -/
def andThen (p : Except Fault α × σ) (k : α → σ → Except Fault β × σ) : Except Fault β × σ :=
  match p with
  | (.ok a, s)    => k a s
  | (.error e, s) => (.error e, s)

theorem ext_eval {m n : ExceptT Fault (StateM σ) α} (h : ∀ s, eval m s = eval n s) : m = n :=
  funext h

@[simp]
theorem eval_pure (a : α) (s : σ) : eval (pure a : ExceptT Fault (StateM σ) α) s = (.ok a, s) := rfl

@[simp]
theorem eval_throw (e : Fault) (s : σ) :
    eval (throw e : ExceptT Fault (StateM σ) α) s = (.error e, s) := rfl

@[simp]
theorem eval_get (s : σ) : eval (get : ExceptT Fault (StateM σ) σ) s = (.ok s, s) := rfl

@[simp]
theorem eval_modify (f : σ → σ) (s : σ) :
    eval (modify f : ExceptT Fault (StateM σ) Unit) s = (.ok (), f s) := rfl

theorem eval_bind (m : ExceptT Fault (StateM σ) α) (k : α → ExceptT Fault (StateM σ) β) (s : σ) :
    eval (m >>= k) s = andThen (eval m s) fun a t => eval (k a) t := by
  simp only [eval, ExceptT.run, bind, ExceptT.bind, ExceptT.mk, ExceptT.bindCont, StateT.bind]
  rcases m s with ⟨_ | _, _⟩ <;> rfl

/-- A computation that goes on ends well if both parts do. -/
theorem eval_bind_eq_ok {m : ExceptT Fault (StateM σ) α} {k : α → ExceptT Fault (StateM σ) β}
    {s t : σ} {b : β} :
    eval (m >>= k) s = (.ok b, t) ↔ ∃ a u, eval m s = (.ok a, u) ∧ eval (k a) u = (.ok b, t) := by
  rw [eval_bind]
  rcases eval m s with ⟨e | a, u⟩
  · simp [andThen]
  · simp only [andThen]
    constructor
    · exact fun h => ⟨a, u, rfl, h⟩
    · rintro ⟨a', u', ⟨⟩, h⟩
      exact h

@[simp]
theorem andThen_ok (a : α) (s : σ) (k : α → σ → Except Fault β × σ) :
    andThen (.ok a, s) k = k a s := rfl

@[simp]
theorem andThen_error (e : Fault) (s : σ) (k : α → σ → Except Fault β × σ) :
    andThen (.error e, s) k = (.error e, s) := rfl

@[simp]
theorem eval_map (g : α → β) (m : ExceptT Fault (StateM σ) α) (s : σ) :
    eval (g <$> m) s = ((eval m s).1.map g, (eval m s).2) := by
  rw [map_eq_pure_bind, eval_bind]
  rcases eval m s with ⟨_ | _, _⟩ <;> rfl

/-! ### Benches -/

/-- What a translation reads and changes besides the stacks of symbols. -/
structure Bench (S F : Type) where
  tables  : Readings
  origins : KeyedMap Source S
  memo    : List (String × F)
  scans   : List (Scan S F)
  notes   : List Note

namespace Bench

/-- The bench of a translator that has done nothing yet. -/
def fresh : Bench S F := ⟨.empty, .empty, [], [], []⟩

/-- The bench of a new scope. -/
def inner (w : Bench S F) : Bench S F := { w with tables := .empty, origins := .empty }

/-- The bench back in a scope, after a nested one. -/
def leave (w outer : Bench S F) : Bench S F :=
  { w with tables := outer.tables, origins := outer.origins }

end Bench

namespace State

/-- All of a state but the stacks of symbols. -/
def bench (st : State S F) : Bench S F :=
  ⟨st.current.tables, st.current.origins, st.memo, st.scans, st.notes⟩

/-- The same stacks of symbols, with another bench. -/
def withBench (st : State S F) (w : Bench S F) : State S F where
  current := { st.current with tables := w.tables, origins := w.origins }
  outer   := st.outer
  memo    := w.memo
  scans   := w.scans
  notes   := w.notes

@[simp] theorem bench_withBench (st : State S F) (w : Bench S F) : (st.withBench w).bench = w := rfl

@[simp] theorem withBench_bench (st : State S F) : st.withBench st.bench = st := rfl

@[simp] theorem withBench_withBench (st : State S F) (v w : Bench S F) :
    (st.withBench v).withBench w = st.withBench w := rfl

end State

/-- Computations on a bench. They keep the bench they reached when they end in a fault. -/
abbrev Direct (S F : Type) := ExceptT Fault (StateM (Bench S F))

/-- A computation on a bench, on a state: the stacks stay. -/
def lift (d : Direct S F α) : Machine S F α := fun st =>
  ((eval d st.bench).1, st.withBench (eval d st.bench).2)

@[simp]
theorem eval_lift (d : Direct S F α) (st : State S F) :
    eval (lift d) st = ((eval d st.bench).1, st.withBench (eval d st.bench).2) := rfl

theorem lift_pure (a : α) : lift (pure a : Direct S F α) = pure a := rfl

theorem lift_get : lift (get : Direct S F (Bench S F)) = (do return (← get).bench) := rfl

theorem lift_bind (d : Direct S F α) (k : α → Direct S F β) :
    lift (d >>= k) = lift d >>= fun a => lift (k a) := by
  refine ext_eval fun st => ?_
  simp only [eval_lift, eval_bind]
  rcases eval d st.bench with ⟨_ | _, _⟩ <;> simp

/-! ### Parts of translations -/

/-- A refusal, as a computation on a bench. -/
def Direct.settle (r : Except Fault α) : Direct S F α :=
  match r with
  | .ok a    => return a
  | .error e => throw e

/-- The symbol remembered under a key, or else the one that a computation gives, which is remembered
from then on. -/
def Direct.recall (key : String) (d : Direct S F F) : Direct S F F := do
  match Assoc.find? (key == ·) (← get).memo with
  | some x => return x
  | none   =>
    let x ← d
    modify fun w => { w with memo := Assoc.put (· == ·) key x w.memo }
    return x

/-- Takes a note that the result for a node was replaced. -/
def Direct.noteReplaced (node : String) : Direct S F Unit :=
  modify fun w => { w with notes := w.notes ++ [⟨"Overriding result for " ++ node, node⟩] }

/-- Remembers the symbol of a source visited in the current scope. -/
def Direct.setOrigin (origin : Source) (s : S) : Direct S F Unit :=
  modify fun w => { w with origins := w.origins.set origin s }

/-- Changes what the current scope reads from its tables. -/
def Direct.modifyTables (change : Readings → Readings) : Direct S F Unit :=
  modify fun w => { w with tables := change w.tables }

/-- Runs a body in a scope of its own, which is dropped with all it holds. -/
def Direct.scope (d : Direct S F α) : Direct S F α := fun w =>
  ((eval d w.inner).1, (eval d w.inner).2.leave w)

/-- The symbol provided for a feature in place of its own one. -/
def directReplaced (b : Backend S F) (f : Feature) (x : F) : Direct S F F := do
  match b.features.get? f with
  | none   => return x
  | some y =>
    Direct.noteReplaced f.text
    return y

/-- The symbol provided for a source in place of its own one. -/
def directReplacedSource (b : Backend S F) (s : Source) (x : S) : Direct S F S := do
  match b.sources.get? s with
  | none   => return x
  | some y =>
    Direct.noteReplaced s.text
    return y

/-- The symbol of the source that an element belongs to. -/
def directOrigin (b : Backend S F) (origin : Source) : Direct S F S := do
  match (← get).origins.get? origin with
  | some s => return s
  | none   =>
    match origin with
    | .table t => Direct.settle (b.table t (b.sources.get? (.table t)))
    | _        =>
      match b.sources.get? origin with
      | some s => return s
      | none   => throw (.unknownMapping origin.text)

/-- The symbol of an element. -/
def directElement (b : Backend S F) (origin : Source) (name : String) (kind : Kind) :
    Direct S F F := do
  match b.features.get? (.element origin name kind) with
  | some x => return x
  | none   => return b.element (← directOrigin b origin) origin name

/-! ### Features -/

mutual

/-- The symbol of a feature, translated without a stack. -/
def directFeature (b : Backend S F) : Feature → Direct S F F
  | .aliased f n     => do return b.aliased (← Direct.recall f.key (directFeature b f)) n
  | .literal v k     => Direct.settle (b.literal v k)
  | .element s n k   => directElement b s n k
  | .expression op args t => do
    let xs ← directFeatures b args
    let y ← Direct.settle (b.expression op xs (Feature.expression op args t).kind)
    directReplaced b (.expression op args t) y
  | .window fn ps os fr => do
    let x ← Direct.recall fn.key (directFeature b fn)
    let xs ← directFeatures b ps
    let ys ← directTerms b os
    let z ← Direct.settle (b.window x xs ys fr)
    directReplaced b (.window fn ps os fr) z

/-- The symbols of features, each remembered. -/
def directFeatures (b : Backend S F) : List Feature → Direct S F (List F)
  | []     => return []
  | f :: r => do
    let x ← Direct.recall f.key (directFeature b f)
    return x :: (← directFeatures b r)

/-- The symbols of features to order by, each remembered. -/
def directTerms (b : Backend S F) : List OrderTerm → Direct S F (List (OrderSymbol F))
  | []           => return []
  | .by f d :: r => do
    let x ← Direct.recall f.key (directFeature b f)
    return (x, d) :: (← directTerms b r)

end

/-- The symbol of a feature that may be missing. -/
def directOption (b : Backend S F) : Option Feature → Direct S F (Option F)
  | none   => return none
  | some f => return some (← Direct.recall f.key (directFeature b f))

/-! ### Sources -/

/-- The scan of a table, with all that the current scope reads from it. -/
def directTable (b : Backend S F) (t : Schema) : Direct S F S := do
  let origin ← Direct.settle (b.table t (b.sources.get? (.table t)))
  Direct.setOrigin (.table t) origin
  Direct.modifyTables fun ts => ts.touch t
  let reading := (← get).tables.reading t
  let fields ← directFeatures b reading.fields
  let predicate ← directOption b reading.predicate
  modify fun w => { w with scans := w.scans ++ [⟨origin, fields, predicate⟩] }
  return b.scan origin fields predicate

/-- The symbol of a source, translated without a stack. -/
def directSource (b : Backend S F) : Source → Direct S F S
  | .table t       => directTable b t
  | .reference s n => do
    let wrapped ← directSource b s
    Direct.setOrigin (.reference s n) (b.reference wrapped n).2
    return (b.reference wrapped n).1
  | .join l r k c  => do
    match c with
    | some p => Direct.modifyTables fun ts => ts.filter p
    | none   => pure ()
    let left ← directSource b l
    let right ← directSource b r
    let condition ← directOption b c
    directReplacedSource b (.join l r k c) (b.join left right condition k)
  | .set l r k     => do
    let left ← directSource b l
    let right ← directSource b r
    directReplacedSource b (.set l r k) (b.set left right k)
  | .query s sel pre grp post ord rows => do
    let outputs := (Source.query s sel pre grp post ord rows).features
    let result ← Direct.scope do
      Direct.modifyTables (registerClauses outputs pre grp post ord)
      let source ← directSource b s
      let features ← directFeatures b outputs
      let filter ← directOption b pre
      let groupby ← directFeatures b grp
      let having ← directOption b post
      let orderby ← directTerms b ord
      return b.query source features filter groupby having orderby rows
    directReplacedSource b (.query s sel pre grp post ord rows) result

/-! ### The stack -/

/-- A symbol of a source that is put on the stack can be taken at once. -/
theorem push_takeSource (x : S) (k : S → Machine S F α) :
    (do push (.source x); let y ← takeSource; k y : Machine S F α) = k x := rfl


/-! ### The answers of a backend -/

theorem ask_eq (r : Except Fault α) :
    (ask (show ExceptT Fault Id α from r) : Machine S F α) = lift (Direct.settle r) := by
  cases r <;> rfl

section

variable (b : Backend S F)

theorem ask_lookupSource (s : Source) :
    (ask (b.hooks.lookupSource s) : Machine S F (Option S)) = pure (b.sources.get? s) := rfl

theorem ask_lookupFeature (f : Feature) :
    (ask (b.hooks.lookupFeature f) : Machine S F (Option F)) = pure (b.features.get? f) := rfl

theorem ask_table (t : Schema) :
    (ask (b.hooks.table t) : Machine S F S)
      = lift (Direct.settle (b.table t (b.sources.get? (.table t)))) := ask_eq _

theorem ask_scan (origin : S) (fields : List F) (predicate : Option F) :
    (ask (b.hooks.scan origin fields predicate) : Machine S F S)
      = pure (b.scan origin fields predicate) := rfl

theorem ask_reference (wrapped : S) (name : String) :
    (ask (b.hooks.reference wrapped name) : Machine S F (S × S))
      = pure (b.reference wrapped name) := rfl

theorem ask_join (left right : S) (condition : Option F) (kind : JoinType) :
    (ask (b.hooks.join left right condition kind) : Machine S F S)
      = pure (b.join left right condition kind) := rfl

theorem ask_set (left right : S) (kind : SetOp) :
    (ask (b.hooks.set left right kind) : Machine S F S) = pure (b.set left right kind) := rfl

theorem ask_query (source : S) (features : List F) (filter : Option F) (groupby : List F)
    (having : Option F) (orderby : List (OrderSymbol F)) (rows : Option RowRange) :
    (ask (b.hooks.query source features filter groupby having orderby rows) : Machine S F S)
      = pure (b.query source features filter groupby having orderby rows) := rfl

theorem ask_element (origin : S) (s : Source) (name : String) :
    (ask (b.hooks.element origin s name) : Machine S F F) = pure (b.element origin s name) := rfl

theorem ask_aliased (x : F) (name : String) :
    (ask (b.hooks.aliased x name) : Machine S F F) = pure (b.aliased x name) := rfl

theorem ask_literal (v : Value) (k : Kind) :
    (ask (b.hooks.literal v k) : Machine S F F) = lift (Direct.settle (b.literal v k)) := ask_eq _

theorem ask_expression (op : Operator) (args : List F) (kind : Kind) :
    (ask (b.hooks.expression op args kind) : Machine S F F)
      = lift (Direct.settle (b.expression op args kind)) := ask_eq _

theorem ask_window (fn : F) (partition : List F) (ordering : List (OrderSymbol F))
    (frame : Option Frame) :
    (ask (b.hooks.window fn partition ordering frame) : Machine S F F)
      = lift (Direct.settle (b.window fn partition ordering frame)) := ask_eq _

end

/-! ### Features on the stack -/

/-- What a translation leaves on the stack is taken and remembered. -/
theorem remembered_eq {key : String} {m : Machine S F Unit} {d : Direct S F F}
    (h : m = lift d >>= fun x => push (.feature x)) :
    remembered key m = lift (Direct.recall key d) := by
  subst h
  refine ext_eval fun st => ?_
  unfold remembered Direct.recall
  simp only [eval_bind, eval_get, eval_lift, andThen_ok]
  have memo : st.bench.memo = st.memo := rfl
  rw [memo]
  cases Assoc.find? (key == ·) st.memo with
  | some x => rfl
  | none =>
    simp only [eval_bind, eval_lift]
    rcases eval d st.bench with ⟨_ | x, v⟩ <;> rfl

theorem originSymbol_eq (b : Backend S F) (origin : Source) :
    originSymbol b.hooks origin = lift (directOrigin b origin) := by
  refine ext_eval fun st => ?_
  show eval (ask (show ExceptT Fault Id S from b.origin st.current.origins origin)) st = _
  unfold Backend.origin directOrigin
  simp only [eval_bind, eval_get, eval_lift, andThen_ok]
  have origins : st.bench.origins = st.current.origins := rfl
  rw [origins]
  cases st.current.origins.get? origin with
  | some x => rfl
  | none =>
    cases origin with
    | table t => exact congrArg (eval · st) (ask_eq (b.table t _))
    | _ =>
      dsimp only
      cases b.sources.get? _ <;> rfl

theorem translateElement_eq (b : Backend S F) (s : Source) (n : String) (k : Kind) :
    translateElement b.hooks s n k = lift (directElement b s n k) >>= fun x => push (.feature x) := by
  unfold translateElement directElement
  rw [ask_lookupFeature, pure_bind]
  cases b.features.get? (.element s n k) with
  | some x => rfl
  | none => simp only [originSymbol_eq, ask_element, lift_bind, lift_pure, bind_assoc, pure_bind]

theorem replaceFeature_eq (b : Backend S F) (f : Feature) (x : F) :
    (do push (.feature x); replaceFeature b.hooks f)
      = lift (directReplaced b f x) >>= fun y => push (.feature y) := by
  unfold replaceFeature directReplaced
  rw [ask_lookupFeature, pure_bind]
  cases b.features.get? f <;> rfl

theorem replaceSource_eq (b : Backend S F) (s : Source) (x : S) :
    (do push (.source x); replaceSource b.hooks s)
      = lift (directReplacedSource b s x) >>= fun y => push (.source y) := by
  unfold replaceSource directReplacedSource
  rw [ask_lookupSource, pure_bind]
  cases b.sources.get? s <;> rfl

mutual

/-- **A feature is translated to what it is without a stack**, which is put on top. -/
theorem translateFeature_eq (b : Backend S F) : ∀ f : Feature,
    translateFeature b.hooks f = lift (directFeature b f) >>= fun x => push (.feature x)
  | .aliased f n => by
    simp only [translateFeature, directFeature, remembered_eq (translateFeature_eq b f),
      ask_aliased, lift_bind, lift_pure, bind_assoc, pure_bind]
  | .literal v k => by simp only [translateFeature, directFeature, ask_literal]
  | .element s n k => by simp only [translateFeature, directFeature, translateElement_eq]
  | .expression op args t => by
    simp only [translateFeature, directFeature, symbolsOf_eq b args, ask_expression, lift_bind,
      bind_assoc, replaceFeature_eq]
  | .window fn ps os fr => by
    simp only [translateFeature, directFeature, remembered_eq (translateFeature_eq b fn),
      symbolsOf_eq b ps, symbolsOfTerms_eq b os, ask_window, lift_bind, bind_assoc,
      replaceFeature_eq]

theorem symbolsOf_eq (b : Backend S F) : ∀ fs : List Feature,
    symbolsOf b.hooks fs = lift (directFeatures b fs)
  | [] => by simp only [symbolsOf, directFeatures, lift_pure]
  | f :: r => by
    simp only [symbolsOf, directFeatures, remembered_eq (translateFeature_eq b f), symbolsOf_eq b r,
      lift_bind, lift_pure]

theorem symbolsOfTerms_eq (b : Backend S F) : ∀ os : List OrderTerm,
    symbolsOfTerms b.hooks os = lift (directTerms b os)
  | [] => by simp only [symbolsOfTerms, directTerms, lift_pure]
  | .by f d :: r => by
    simp only [symbolsOfTerms, directTerms, remembered_eq (translateFeature_eq b f),
      symbolsOfTerms_eq b r, lift_bind, lift_pure]

end

theorem symbolOfOption_eq (b : Backend S F) (o : Option Feature) :
    symbolOfOption b.hooks o = lift (directOption b o) := by
  cases o with
  | none => rfl
  | some f =>
    simp only [symbolOfOption, symbolOfFeature, directOption,
      remembered_eq (translateFeature_eq b f), lift_bind, lift_pure]

/-! ### Sources on the stack -/

theorem setOrigin_eq (s : Source) (x : S) :
    (setOrigin s x : Machine S F Unit) = lift (Direct.setOrigin s x) := rfl

theorem modifyTables_eq (change : Readings → Readings) :
    (modifyTables change : Machine S F Unit) = lift (Direct.modifyTables change) := rfl

theorem eval_tryCatch (m : ExceptT Fault (StateM σ) α) (h : Fault → ExceptT Fault (StateM σ) α)
    (s : σ) :
    eval (tryCatch m h) s = match eval m s with
      | (.ok a, t)    => (.ok a, t)
      | (.error e, t) => eval (h e) t := by
  show eval (ExceptT.tryCatch m h) s = _
  simp only [eval, ExceptT.tryCatch, ExceptT.run, ExceptT.mk, bind, StateT.bind]
  rcases m s with ⟨_ | _, _⟩ <;> rfl

/-- A scope whose body leaves the stack as it is drops what it has visited and read. -/
theorem scope_eq (d : Direct S F α) : (scope (lift d) : Machine S F α) = lift d.scope := by
  refine ext_eval fun st => ?_
  simp only [scope, enter, eval_bind, eval_modify, andThen_ok, eval_tryCatch, eval_lift]
  have entered : State.bench { st with current := .empty, outer := st.current :: st.outer }
      = st.bench.inner := rfl
  have left : eval d.scope st.bench
      = ((eval d st.bench.inner).1, (eval d st.bench.inner).2.leave st.bench) := rfl
  rw [entered, left]
  rcases eval d st.bench.inner with ⟨_ | a, w⟩ <;> rfl

theorem translateTable_eq (b : Backend S F) (t : Schema) :
    translateTable b.hooks t = lift (directTable b t) >>= fun x => push (.source x) := by
  have scans : ∀ x : Scan S F, (modify fun st => { st with scans := st.scans ++ [x] } :
      Machine S F Unit) = lift (modify fun w => { w with scans := w.scans ++ [x] }) := fun _ => rfl
  simp only [translateTable, directTable, ask_table, ask_scan, setOrigin_eq, modifyTables_eq,
    symbolsOf_eq, symbolOfOption_eq, scans, lift_bind, lift_pure, lift_get, bind_assoc, pure_bind]
  rfl

/-- **A source is translated to what it is without a stack**, which is put on top. -/
theorem translateSource_eq (b : Backend S F) : ∀ s : Source,
    translateSource b.hooks s = lift (directSource b s) >>= fun x => push (.source x)
  | .table t => by simp only [translateSource, directSource, translateTable_eq]
  | .reference s n => by
    simp only [translateSource, directSource, translateSource_eq b s, ask_reference, setOrigin_eq,
      lift_bind, lift_pure, bind_assoc, pure_bind, push_takeSource]
  | .join l r k c => by
    cases c <;> simp only [translateSource, directSource, translateSource_eq b l,
      translateSource_eq b r, modifyTables_eq, symbolOfOption_eq, ask_join, replaceSource_eq,
      lift_bind, bind_assoc, pure_bind, push_takeSource]
  | .set l r k => by
    simp only [translateSource, directSource, translateSource_eq b l, translateSource_eq b r,
      ask_set, replaceSource_eq, lift_bind, bind_assoc, pure_bind, push_takeSource]
  | .query s sel pre grp post ord rows => by
    simp only [translateSource, directSource, translateSource_eq b s, modifyTables_eq, symbolsOf_eq,
      symbolsOfTerms_eq, symbolOfOption_eq, ask_query, replaceSource_eq, bind_assoc, push_takeSource,
      ← lift_bind, ← lift_pure, scope_eq]
    rw [lift_bind, bind_assoc]

/-! ### Whole translations -/

namespace State

/-- No scope is open but the outermost one, and no symbol is left. -/
def Clean (st : State S F) : Prop := st.current.symbols = [] ∧ st.outer = []

theorem clean_fresh : (fresh : State S F).Clean := ⟨rfl, rfl⟩

end State

/-- What is done with a tree as the only content of a scope, without a stack. -/
def directFinish (b : Backend S F) : Tree → Direct S F (Symbol S F)
  | .source s  => do
    let x ← directSource b s
    modify fun w => { w with notes := w.notes ++ [⟨"Compiled source", s.text⟩] }
    return .source x
  | .feature f => do return .feature (← directFeature b f)

/-- A whole translation of a source gives what the translation gives, and takes a note. -/
theorem eval_directFinish_source (b : Backend S F) (s : Source) (w : Bench S F) :
    ∃ notes, eval (directFinish b (.source s)) w
      = ((eval (directSource b s) w).1.map .source,
        { (eval (directSource b s) w).2 with notes := notes }) := by
  simp only [directFinish, eval_bind]
  rcases eval (directSource b s) w with ⟨_ | x, v⟩
  · exact ⟨v.notes, rfl⟩
  · exact ⟨_, rfl⟩

theorem eval_directFinish_feature (b : Backend S F) (f : Feature) (w : Bench S F) :
    eval (directFinish b (.feature f)) w
      = ((eval (directFeature b f) w).1.map .feature, (eval (directFeature b f) w).2) := by
  simp only [directFinish, eval_bind]
  rcases eval (directFeature b f) w with ⟨_ | x, v⟩ <;> rfl

/-- **On an empty stack a whole translation gives what it gives without a stack**, and leaves the
stack empty, also after a fault. -/
theorem finish_eq (b : Backend S F) (t : Tree) {st : State S F} (h : st.Clean) :
    eval (finish b.hooks t) st = eval (lift (directFinish b t)) st := by
  obtain ⟨⟨symbols, tables, origins⟩, outer, memo, scans, notes⟩ := st
  obtain ⟨hs, ho⟩ := h
  simp only at hs ho
  subst hs ho
  cases t with
  | source s =>
    simp only [finish, finishSource, translateSource_eq, directFinish, bind_assoc, lift_bind,
      eval_bind]
    rw [eval_lift]
    rcases eval (directSource b s) _ with ⟨_ | x, w⟩ <;> rfl
  | feature f =>
    simp only [finish, finishFeature, translateFeature_eq, directFinish, bind_assoc, lift_bind,
      eval_bind]
    rw [eval_lift]
    rcases eval (directFeature b f) _ with ⟨_ | x, w⟩ <;> rfl

/-- **A translator with an empty stack** finishes a tree as without a stack, and ends with an empty
stack again. -/
theorem Translator.serve_finish (t : Translator S F) (h : t.state.Clean) (tree : Tree) :
    t.serve (.finish tree)
      = let p := eval (directFinish t.backend tree) t.cleared.state.bench
        (p.1.map some, { t with state := t.cleared.state.withBench p.2 }) := by
  have cleared : t.cleared.state.Clean := h
  have served : t.serve (.finish tree)
      = let p := eval (some <$> finish t.backend.hooks tree) t.cleared.state
        (p.1, { t with state := p.2 }) := rfl
  rw [served, eval_map, finish_eq _ _ cleared, eval_lift]

/-- **A translator asked for the symbol of a feature** recalls it as without a stack. -/
theorem Translator.serve_symbolOf_feature (t : Translator S F) (f : Feature) :
    t.serve (.symbolOf (.feature f))
      = let p := eval (Direct.recall f.key (directFeature t.backend f)) t.cleared.state.bench
        (p.1.map fun x => some (.feature x), { t with state := t.cleared.state.withBench p.2 }) := by
  have served : t.serve (.symbolOf (.feature f))
      = let p := eval (some <$> symbolOf t.backend.hooks (.feature f)) t.cleared.state
        (p.1, { t with state := p.2 }) := rfl
  rw [served, eval_map]
  simp only [symbolOf, symbolOfFeature, remembered_eq (translateFeature_eq t.backend f), eval_bind,
    eval_lift]
  rcases eval (Direct.recall f.key (directFeature t.backend f)) t.cleared.state.bench with ⟨_ | x, w⟩
    <;> rfl

end QueryAlgebra.Translation
