import QueryAlgebra.Proofs.Translation.Direct

/-!
# The stacks of symbols

Whoever a translation asks may keep a state of its own and may refuse at any point. A translation
leaves the stacks as it finds them, but for the one symbol that it puts on top when it ends well, and
with one exception: the symbol that is provided for a node is looked up when the symbol of the node is
already on the stack. When this look-up is refused, the symbol stays there.

* `Hooks.Raises`: the faults that come from what a translation asks for.
* `Hooks.Unreplaced`: those of them that come when a symbol is to be replaced.
* `Leaves`: what a computation leaves on the stack of the current scope, and that all else stays.
* `Leaves.bind`, `Leaves.thenSource`, `Leaves.thenFeature`: computations one after the other, and
  symbols that are taken as soon as they are there.
* `translateFeature_leaves`, `translateSource_leaves`: translations leave one symbol of their sort.
* `finish_root`, `finishAll_root`: what whole translations leave on the stack of the outermost scope.
* `translations_disciplined`: the stacks are misused after a symbol was not replaced, and never else.
-/

namespace QueryAlgebra.Translation

variable {σ S F α β : Type}

/-! ### Runs -/

/-- What a computation gives on a state and on the state of whoever is asked. -/
def exec (act : MachineT (StateM σ) S F α) (st : State S F) (own : σ) :
    (Except Fault α × State S F) × σ := act st own

theorem exec_bind (act : MachineT (StateM σ) S F α) (k : α → MachineT (StateM σ) S F β)
    (st : State S F) (own : σ) :
    exec (act >>= k) st own = match exec act st own with
      | ((.ok a, st'), own')    => exec (k a) st' own'
      | ((.error e, st'), own') => ((.error e, st'), own') := by
  simp only [exec, bind, ExceptT.bind, ExceptT.mk, ExceptT.bindCont, StateT.bind]
  rcases act st own with ⟨⟨_ | _, _⟩, _⟩ <;> rfl

theorem exec_tryCatch (act : MachineT (StateM σ) S F α) (h : Fault → MachineT (StateM σ) S F α)
    (st : State S F) (own : σ) :
    exec (tryCatch act h) st own = match exec act st own with
      | ((.ok a, st'), own')    => ((.ok a, st'), own')
      | ((.error e, st'), own') => exec (h e) st' own' := by
  show exec (ExceptT.tryCatch act h) st own = _
  simp only [exec, ExceptT.tryCatch, ExceptT.mk, bind, StateT.bind]
  rcases act st own with ⟨⟨_ | _, _⟩, _⟩ <;> rfl

/-- The stack of the current scope, and the scopes around it. -/
def State.stacks (st : State S F) : List (Symbol S F) × List (Scope S F) :=
  (st.current.symbols, st.outer)

/-! ### Faults of others -/

/-- A fault that some answer ends in. -/
def Refuses (answer : ExceptT Fault (StateM σ) α) (e : Fault) : Prop :=
  ∃ own, (answer.run own).1 = .error e

/-- The faults that come from what a translation asks for. -/
inductive Hooks.Raises (h : Hooks (StateM σ) S F) (e : Fault) : Prop where
  | lookupSource (s : Source) : Refuses (h.lookupSource s) e → h.Raises e
  | lookupFeature (f : Feature) : Refuses (h.lookupFeature f) e → h.Raises e
  | table (t : Schema) : Refuses (h.table t) e → h.Raises e
  | origin (visited : KeyedMap Source S) (s : Source) : Refuses (h.origin visited s) e → h.Raises e
  | scan (origin : S) (fields : List F) (predicate : Option F) :
    Refuses (h.scan origin fields predicate) e → h.Raises e
  | reference (wrapped : S) (name : String) : Refuses (h.reference wrapped name) e → h.Raises e
  | join (left right : S) (condition : Option F) (kind : JoinType) :
    Refuses (h.join left right condition kind) e → h.Raises e
  | set (left right : S) (kind : SetOp) : Refuses (h.set left right kind) e → h.Raises e
  | query (source : S) (features : List F) (filter : Option F) (groupby : List F)
      (having : Option F) (orderby : List (OrderSymbol F)) (rows : Option RowRange) :
    Refuses (h.query source features filter groupby having orderby rows) e → h.Raises e
  | element (origin : S) (s : Source) (name : String) :
    Refuses (h.element origin s name) e → h.Raises e
  | aliased (x : F) (name : String) : Refuses (h.aliased x name) e → h.Raises e
  | literal (v : Value) (k : Kind) : Refuses (h.literal v k) e → h.Raises e
  | expression (op : Operator) (args : List F) (kind : Kind) :
    Refuses (h.expression op args kind) e → h.Raises e
  | window (fn : F) (partition : List F) (ordering : List (OrderSymbol F)) (frame : Option Frame) :
    Refuses (h.window fn partition ordering frame) e → h.Raises e

/-- The faults that come when the symbol of a node is to be replaced by the one that is provided for it.
Symbols of tables, references, elements, literals and features under another name are not replaced. -/
inductive Hooks.Unreplaced (h : Hooks (StateM σ) S F) (e : Fault) : Prop where
  | join (l r : Source) (kind : JoinType) (condition : Option Feature) :
    Refuses (h.lookupSource (.join l r kind condition)) e → h.Unreplaced e
  | set (l r : Source) (kind : SetOp) :
    Refuses (h.lookupSource (.set l r kind)) e → h.Unreplaced e
  | query (s : Source) (selection : List Feature) (prefilter : Option Feature)
      (grouping : List Feature) (postfilter : Option Feature) (ordering : List OrderTerm)
      (rows : Option RowRange) :
    Refuses (h.lookupSource (.query s selection prefilter grouping postfilter ordering rows)) e →
      h.Unreplaced e
  | expression (op : Operator) (args : List Feature) (target : Option Kind) :
    Refuses (h.lookupFeature (.expression op args target)) e → h.Unreplaced e
  | window (fn : Feature) (partition : List Feature) (ordering : List OrderTerm)
      (frame : Option Frame) :
    Refuses (h.lookupFeature (.window fn partition ordering frame)) e → h.Unreplaced e

theorem Hooks.Unreplaced.raises {h : Hooks (StateM σ) S F} {e : Fault} : h.Unreplaced e → h.Raises e
  | .join _ _ _ _ refused          => .lookupSource _ refused
  | .set _ _ _ refused             => .lookupSource _ refused
  | .query _ _ _ _ _ _ _ refused   => .lookupSource _ refused
  | .expression _ _ _ refused      => .lookupFeature _ refused
  | .window _ _ _ _ refused        => .lookupFeature _ refused

/-! ### What computations leave -/

/-- What is left after a fault: nothing, or one symbol if the fault is one of `Q`. The scopes around
stay. -/
def Abandons (P Q : Fault → Prop) (st : State S F) (e : Fault) (st' : State S F) : Prop :=
  P e ∧ (st'.stacks = st.stacks ∨ Q e ∧ ∃ x, st'.stacks = (x :: st.current.symbols, st.outer))

/-- A computation that ends well leaves symbols of which `made` holds on top of the stack. One that
does not ends in a fault of `P` and leaves the stack as it is, or with one symbol more if the fault is
one of `Q`. The scopes around stay in any case. -/
def Leaves (P Q : Fault → Prop) (made : List (Symbol S F) → Prop)
    (act : MachineT (StateM σ) S F α) : Prop :=
  ∀ st own, match (exec act st own).1 with
    | (.ok _, st')    => ∃ xs, made xs ∧ st'.stacks = (xs ++ st.current.symbols, st.outer)
    | (.error e, st') => Abandons P Q st e st'

/-- Nothing is left. -/
abbrev Nothing : List (Symbol S F) → Prop := (· = [])

/-- One symbol of a source is left. -/
abbrev OneSource (xs : List (Symbol S F)) : Prop := ∃ x, xs = [.source x]

/-- One symbol of a feature is left. -/
abbrev OneFeature (xs : List (Symbol S F)) : Prop := ∃ x, xs = [.feature x]

section

variable {P Q : Fault → Prop}

/-- What is abandoned depends on the stacks alone. -/
theorem Abandons.of_stacks_eq {st st' v : State S F} {e : Fault} (h : Abandons P Q st' e v)
    (stays : st'.stacks = st.stacks) : Abandons P Q st e v := by
  have symbols : st'.current.symbols = st.current.symbols := congrArg Prod.fst stays
  have outer : st'.outer = st.outer := congrArg Prod.snd stays
  unfold Abandons at h
  rwa [symbols, outer, stays] at h

namespace Leaves

variable {made : List (Symbol S F) → Prop}

/-- Computations that touch nothing of the stacks and end well leave nothing. -/
theorem of_stacks {act : MachineT (StateM σ) S F α}
    (h : ∀ st own, ∃ a st', (exec act st own).1 = (.ok a, st') ∧ st'.stacks = st.stacks) :
    Leaves P Q Nothing act := by
  intro st own
  obtain ⟨a, st', ran, stays⟩ := h st own
  rw [ran]
  exact ⟨[], rfl, stays⟩

theorem pure (a : α) : Leaves P Q Nothing (Pure.pure a : MachineT (StateM σ) S F α) :=
  of_stacks fun st _ => ⟨a, st, rfl, rfl⟩

theorem get : Leaves P Q Nothing (MonadState.get : MachineT (StateM σ) S F (State S F)) :=
  of_stacks fun st _ => ⟨st, st, rfl, rfl⟩

theorem modified {change : State S F → State S F} (h : ∀ st, (change st).stacks = st.stacks) :
    Leaves P Q Nothing (modify change : MachineT (StateM σ) S F Unit) :=
  of_stacks fun st _ => ⟨(), change st, rfl, h st⟩

theorem ask {answer : ExceptT Fault (StateM σ) α} (h : ∀ e, Refuses answer e → P e) :
    Leaves P Q Nothing (Translation.ask answer : MachineT (StateM σ) S F α) := by
  intro st own
  have ran : (exec (Translation.ask answer : MachineT (StateM σ) S F α) st own).1
      = ((answer.run own).1, st) := rfl
  rw [ran]
  rcases answered : (answer.run own).1 with e | a
  · exact ⟨h e ⟨own, answered⟩, .inl rfl⟩
  · exact ⟨[], rfl, rfl⟩

theorem push (x : Symbol S F) :
    Leaves P Q (· = [x]) (Translation.push x : MachineT (StateM σ) S F Unit) :=
  fun _ _ => ⟨[x], rfl, rfl⟩

theorem mono {act : MachineT (StateM σ) S F α} {made' : List (Symbol S F) → Prop}
    (h : Leaves P Q made act) (w : ∀ xs, made xs → made' xs) : Leaves P Q made' act := by
  intro st own
  have h := h st own
  split at h
  · exact h.imp fun xs hxs => ⟨w xs hxs.1, hxs.2⟩
  · exact h

/-- What is left stays the same when the state before has the same stacks. -/
theorem of_stacks_eq {act : MachineT (StateM σ) S F α} (h : Leaves P Q made act) {st st' : State S F}
    (own : σ) (stays : st'.stacks = st.stacks) :
    match (exec act st' own).1 with
    | (.ok _, v)    => ∃ xs, made xs ∧ v.stacks = (xs ++ st.current.symbols, st.outer)
    | (.error e, v) => Abandons P Q st e v := by
  have h := h st' own
  have symbols : st'.current.symbols = st.current.symbols := congrArg Prod.fst stays
  have outer : st'.outer = st.outer := congrArg Prod.snd stays
  split at h
  · rwa [symbols, outer] at h
  · exact h.of_stacks_eq stays

/-- After a computation that leaves nothing, what the next one leaves is left. -/
theorem bind {act : MachineT (StateM σ) S F α} {k : α → MachineT (StateM σ) S F β}
    (h : Leaves P Q Nothing act) (hk : ∀ a, Leaves P Q made (k a)) : Leaves P Q made (act >>= k) := by
  intro st own
  have h := h st own
  rw [exec_bind]
  rcases ran : exec act st own with ⟨⟨e | a, st'⟩, own'⟩
  · rwa [ran] at h
  · rw [ran] at h
    obtain ⟨_, rfl, stays⟩ := h
    exact (hk a).of_stacks_eq own' stays

/-- The symbol that is left is taken as soon as it is there. -/
theorem thenTaken {sort : α → Symbol S F} {take : MachineT (StateM σ) S F α}
    (takes : ∀ (st : State S F) own a r, st.current.symbols = sort a :: r →
      ∃ st', exec take st own = ((.ok a, st'), own) ∧ st'.stacks = (r, st.outer))
    {act : MachineT (StateM σ) S F Unit} {k : α → MachineT (StateM σ) S F β}
    (h : Leaves P Q (fun xs => ∃ a, xs = [sort a]) act) (hk : ∀ a, Leaves P Q made (k a)) :
    Leaves P Q made (do act; let a ← take; k a) := by
  intro st own
  have h := h st own
  rw [exec_bind]
  rcases ran : exec act st own with ⟨⟨e | _, st'⟩, own'⟩
  · rwa [ran] at h
  · rw [ran] at h
    obtain ⟨_, ⟨a, rfl⟩, stays⟩ := h
    obtain ⟨st'', took, stays'⟩ := takes st' own' a _ (congrArg Prod.fst stays)
    have outer : st'.outer = st.outer := congrArg Prod.snd stays
    simp only [exec_bind, took]
    exact (hk a).of_stacks_eq own' (stays'.trans (by rw [outer]; rfl))

/-- The symbol of a source is taken as soon as it is there. -/
theorem thenSource {act : MachineT (StateM σ) S F Unit} {k : S → MachineT (StateM σ) S F β} :
    Leaves P Q OneSource act → (∀ x, Leaves P Q made (k x)) →
    Leaves P Q made (do act; let x ← takeSource; k x) := by
  refine thenTaken fun st own x r symbols => ?_
  obtain ⟨⟨_, _, _⟩, _, _, _, _⟩ := st
  obtain rfl := symbols
  exact ⟨_, rfl, rfl⟩

/-- The symbol of a feature is taken as soon as it is there. -/
theorem thenFeature {act : MachineT (StateM σ) S F Unit} {k : F → MachineT (StateM σ) S F β} :
    Leaves P Q OneFeature act → (∀ x, Leaves P Q made (k x)) →
    Leaves P Q made (do act; let x ← takeFeature; k x) := by
  refine thenTaken fun st own x r symbols => ?_
  obtain ⟨⟨_, _, _⟩, _, _, _, _⟩ := st
  obtain rfl := symbols
  exact ⟨_, rfl, rfl⟩

/-- What a scope of its own leaves nothing in leaves nothing around it, also after a fault: a symbol
that was left inside is dropped with the scope. -/
theorem scope {act : MachineT (StateM σ) S F α} (h : Leaves P Q Nothing act) :
    Leaves P Q Nothing (Translation.scope act) := by
  intro st own
  have inside := h { st with current := .empty, outer := st.current :: st.outer } own
  simp only [Translation.scope, exec_bind, exec_tryCatch]
  have entered : exec enter st own
      = ((.ok (), { st with current := .empty, outer := st.current :: st.outer }), own) := rfl
  rw [entered]
  dsimp only
  rcases ran : exec act { st with current := .empty, outer := st.current :: st.outer } own
    with ⟨⟨e | a, ⟨⟨symbols, tables, origins⟩, outer, memo, scans, notes⟩⟩, own'⟩
  · rw [ran] at inside
    obtain ⟨fault, stays⟩ := inside
    obtain rfl : outer = st.current :: st.outer := by
      obtain stays | ⟨-, x, stays⟩ := stays <;> exact (Prod.mk.inj stays).2
    exact ⟨fault, .inl rfl⟩
  · rw [ran] at inside
    obtain ⟨_, rfl, stays⟩ := inside
    obtain ⟨rfl, rfl⟩ := Prod.mk.inj stays
    exact ⟨[], rfl, rfl⟩

/-- What is remembered is not translated; what is not is taken once it is translated. -/
theorem remembered {key : String} {act : MachineT (StateM σ) S F Unit}
    (h : Leaves P Q OneFeature act) : Leaves P Q Nothing (Translation.remembered key act) := by
  refine .bind .get fun st => ?_
  split
  · exact .pure _
  · exact h.thenFeature fun x => .bind (.modified fun _ => rfl) fun _ => .pure x

end Leaves

end

/-! ### Translations -/

section

variable (h : Hooks (StateM σ) S F)

/-- The symbol that is left for a feature is replaced by one of the same sort, or stays when the look-up
is refused. -/
theorem replaceFeature_leaves {f : Feature}
    (unreplaced : ∀ e, Refuses (h.lookupFeature f) e → h.Unreplaced e) (x : F) :
    Leaves h.Raises h.Unreplaced OneFeature (do push (.feature x); replaceFeature h f) := by
  intro st own
  simp only [replaceFeature, exec_bind]
  have pushed : exec (push (.feature x)) st own = ((.ok (), { st with
      current := { st.current with symbols := .feature x :: st.current.symbols } }), own) := rfl
  have looked : ∀ st : State S F, exec (ask (h.lookupFeature f)) st own
      = ((((h.lookupFeature f).run own).1, st), ((h.lookupFeature f).run own).2) := fun _ => rfl
  rw [pushed]
  dsimp only
  rw [looked]
  rcases found : (h.lookupFeature f).run own with ⟨e | _ | y, own'⟩
  · have refused : h.Unreplaced e := unreplaced e ⟨own, congrArg Prod.fst found⟩
    exact ⟨refused.raises, .inr ⟨refused, .feature x, rfl⟩⟩
  · exact ⟨[.feature x], ⟨x, rfl⟩, rfl⟩
  · exact ⟨[.feature y], ⟨y, rfl⟩, rfl⟩

/-- The symbol that is left for a source is replaced by one of the same sort, or stays when the look-up
is refused. -/
theorem replaceSource_leaves {s : Source}
    (unreplaced : ∀ e, Refuses (h.lookupSource s) e → h.Unreplaced e) (x : S) :
    Leaves h.Raises h.Unreplaced OneSource (do push (.source x); replaceSource h s) := by
  intro st own
  simp only [replaceSource, exec_bind]
  have pushed : exec (push (.source x)) st own = ((.ok (), { st with
      current := { st.current with symbols := .source x :: st.current.symbols } }), own) := rfl
  have looked : ∀ st : State S F, exec (ask (h.lookupSource s)) st own
      = ((((h.lookupSource s).run own).1, st), ((h.lookupSource s).run own).2) := fun _ => rfl
  rw [pushed]
  dsimp only
  rw [looked]
  rcases found : (h.lookupSource s).run own with ⟨e | _ | y, own'⟩
  · have refused : h.Unreplaced e := unreplaced e ⟨own, congrArg Prod.fst found⟩
    exact ⟨refused.raises, .inr ⟨refused, .source x, rfl⟩⟩
  · exact ⟨[.source x], ⟨x, rfl⟩, rfl⟩
  · exact ⟨[.source y], ⟨y, rfl⟩, rfl⟩

theorem pushFeature_leaves (x : F) :
    Leaves h.Raises h.Unreplaced OneFeature (push (.feature x) : MachineT (StateM σ) S F Unit) :=
  (Leaves.push _).mono fun _ hx => ⟨x, hx⟩

theorem pushSource_leaves (x : S) :
    Leaves h.Raises h.Unreplaced OneSource (push (.source x) : MachineT (StateM σ) S F Unit) :=
  (Leaves.push _).mono fun _ hx => ⟨x, hx⟩

theorem originSymbol_leaves (origin : Source) :
    Leaves h.Raises h.Unreplaced Nothing (originSymbol h origin) :=
  .bind .get fun _ => .ask fun _ => .origin _ _

theorem translateElement_leaves (s : Source) (n : String) (k : Kind) :
    Leaves h.Raises h.Unreplaced OneFeature (translateElement h s n k) := by
  refine .bind (.ask fun _ => .lookupFeature _) fun provided => ?_
  cases provided with
  | some x => exact pushFeature_leaves h x
  | none =>
    exact .bind (originSymbol_leaves h s) fun _ => .bind (.ask fun _ => .element _ _ _)
      fun x => pushFeature_leaves h x

mutual

/-- **Translating a feature leaves one symbol of a feature.** -/
theorem translateFeature_leaves : ∀ f : Feature,
    Leaves h.Raises h.Unreplaced OneFeature (translateFeature h f)
  | .aliased f n => by
    simp only [translateFeature]
    exact .bind (translateFeature_leaves f).remembered fun x =>
      .bind (.ask fun _ => .aliased _ _) fun y => pushFeature_leaves h y
  | .literal v k => by
    simp only [translateFeature]
    exact .bind (.ask fun _ => .literal _ _) fun x => pushFeature_leaves h x
  | .element s n k => by
    simp only [translateFeature]
    exact translateElement_leaves h s n k
  | .expression op args t => by
    simp only [translateFeature]
    exact .bind (symbolsOf_leaves args) fun xs => .bind (.ask fun _ => .expression _ _ _) fun y =>
      replaceFeature_leaves h (fun _ => .expression _ _ _) y
  | .window fn ps os fr => by
    simp only [translateFeature]
    exact .bind (translateFeature_leaves fn).remembered fun x =>
      .bind (symbolsOf_leaves ps) fun xs => .bind (symbolsOfTerms_leaves os) fun ys =>
        .bind (.ask fun _ => .window _ _ _ _) fun z =>
          replaceFeature_leaves h (fun _ => .window _ _ _ _) z

theorem symbolsOf_leaves : ∀ fs : List Feature, Leaves h.Raises h.Unreplaced Nothing (symbolsOf h fs)
  | [] => by
    simp only [symbolsOf]
    exact .pure _
  | f :: r => by
    simp only [symbolsOf]
    exact .bind (translateFeature_leaves f).remembered fun x => .bind (symbolsOf_leaves r) fun xs =>
      .pure _

theorem symbolsOfTerms_leaves : ∀ os : List OrderTerm,
    Leaves h.Raises h.Unreplaced Nothing (symbolsOfTerms h os)
  | [] => by
    simp only [symbolsOfTerms]
    exact .pure _
  | .by f d :: r => by
    simp only [symbolsOfTerms]
    exact .bind (translateFeature_leaves f).remembered fun x =>
      .bind (symbolsOfTerms_leaves r) fun xs => .pure _

end

theorem symbolOfOption_leaves (c : Option Feature) :
    Leaves h.Raises h.Unreplaced Nothing (symbolOfOption h c) := by
  cases c with
  | none => exact .pure _
  | some f => exact .bind (translateFeature_leaves h f).remembered fun x => .pure _

theorem setOrigin_leaves (s : Source) (x : S) :
    Leaves h.Raises h.Unreplaced Nothing (setOrigin s x : MachineT (StateM σ) S F Unit) :=
  .modified fun _ => rfl

theorem modifyTables_leaves (change : Readings → Readings) :
    Leaves h.Raises h.Unreplaced Nothing (modifyTables change : MachineT (StateM σ) S F Unit) :=
  .modified fun _ => rfl

theorem translateTable_leaves (t : Schema) : Leaves h.Raises h.Unreplaced OneSource (translateTable h t) :=
  .bind (.ask fun _ => .table _) fun _ => .bind (setOrigin_leaves h _ _) fun _ =>
    .bind (modifyTables_leaves h _) fun _ => .bind .get fun _ =>
      .bind (symbolsOf_leaves h _) fun _ => .bind (symbolOfOption_leaves h _) fun _ =>
        .bind (.modified fun _ => rfl) fun _ => .bind (.ask fun _ => .scan _ _ _) fun x =>
          pushSource_leaves h x

/-- **Translating a source leaves one symbol of a source.** -/
theorem translateSource_leaves : ∀ s : Source, Leaves h.Raises h.Unreplaced OneSource (translateSource h s)
  | .table t => by
    simp only [translateSource]
    exact translateTable_leaves h t
  | .reference s n => by
    simp only [translateSource]
    exact (translateSource_leaves s).thenSource fun wrapped =>
      .bind (.ask fun _ => .reference _ _) fun x => .bind (setOrigin_leaves h _ _) fun _ =>
        pushSource_leaves h _
  | .join l r k c => by
    have sides : Leaves h.Raises h.Unreplaced OneSource (do
        translateSource h l
        let left ← takeSource
        translateSource h r
        let right ← takeSource
        let condition ← symbolOfOption h c
        push (.source (← ask (h.join left right condition k)))
        replaceSource h (.join l r k c)) :=
      (translateSource_leaves l).thenSource fun x => (translateSource_leaves r).thenSource fun y =>
        .bind (symbolOfOption_leaves h c) fun z => .bind (.ask fun _ => .join _ _ _ _) fun s =>
          replaceSource_leaves h (fun _ => .join _ _ _ _) s
    cases c with
    | none =>
      simp only [translateSource]
      exact sides
    | some p =>
      simp only [translateSource]
      exact .bind (modifyTables_leaves h _) fun _ => sides
  | .set l r k => by
    simp only [translateSource]
    exact (translateSource_leaves l).thenSource fun x => (translateSource_leaves r).thenSource
      fun y => .bind (.ask fun _ => .set _ _ _) fun s =>
        replaceSource_leaves h (fun _ => .set _ _ _) s
  | .query s sel pre grp post ord rows => by
    simp only [translateSource]
    refine .bind (.scope ?_) fun x => replaceSource_leaves h (fun _ => .query _ _ _ _ _ _ _) x
    exact .bind (modifyTables_leaves h _) fun _ => (translateSource_leaves s).thenSource fun _ =>
      .bind (symbolsOf_leaves h _) fun _ => .bind (symbolOfOption_leaves h _) fun _ =>
        .bind (symbolsOf_leaves h _) fun _ => .bind (symbolOfOption_leaves h _) fun _ =>
          .bind (symbolsOfTerms_leaves h _) fun _ => .ask fun _ => .query _ _ _ _ _ _ _

/-! ### Whole translations -/

/-- What the answer of a whole translation tells of the stack of the outermost scope, before and behind
it. -/
def Concludes (before behind : List (Symbol S F)) : Except Fault α → Prop
  | .ok _    => before = [] ∧ behind = []
  | .error e =>
    h.Raises e ∧ (behind = before ∨ h.Unreplaced e ∧ ∃ x, behind = x :: before) ∨
      e = .prematureFetch ∧ before ≠ [] ∧ behind = before

/-- A symbol that is left in the outermost scope is taken, but only where it is alone it is given. -/
theorem whole_root {sort : α → Symbol S F} {act : MachineT (StateM σ) S F Unit}
    {rest : MachineT (StateM σ) S F β}
    (left : Leaves h.Raises h.Unreplaced (fun xs => ∃ a, xs = [sort a]) act)
    (rest_ends : ∀ (st : State S F) own a r, st.current.symbols = sort a :: r → st.outer = [] →
      ∃ answer st', exec rest st own = ((answer, st'), own) ∧ st'.stacks = (r, []) ∧
        Concludes h r r answer)
    {st : State S F} (root : st.outer = []) (own : σ) :
    (exec (act >>= fun _ => rest) st own).1.2.outer = [] ∧
      Concludes h st.current.symbols (exec (act >>= fun _ => rest) st own).1.2.current.symbols
        (exec (act >>= fun _ => rest) st own).1.1 := by
  have left := left st own
  rw [exec_bind]
  rcases ran : exec act st own with ⟨⟨e | _, st'⟩, own'⟩
  · rw [ran] at left
    obtain ⟨raised, stays | ⟨refused, x, stays⟩⟩ := left
    · exact ⟨(congrArg Prod.snd stays).trans root, .inl ⟨raised, .inl (congrArg Prod.fst stays)⟩⟩
    · exact ⟨(congrArg Prod.snd stays).trans root,
        .inl ⟨raised, .inr ⟨refused, x, congrArg Prod.fst stays⟩⟩⟩
  · rw [ran] at left
    obtain ⟨_, ⟨a, rfl⟩, stays⟩ := left
    obtain ⟨symbols, outer⟩ := Prod.mk.inj stays
    obtain ⟨answer, st'', rested, stays', settled⟩ :=
      rest_ends st' own' a _ symbols (outer.trans root)
    obtain ⟨symbols', outer'⟩ := Prod.mk.inj stays'
    dsimp only
    rw [rested]
    dsimp only
    rw [symbols']
    exact ⟨outer', settled⟩

/-- **A whole translation in the outermost scope** ends well only on an empty stack, which it leaves
empty. Where symbols of earlier translations are left it ends in a fault of others or in the one about
them, and they stay. -/
theorem finish_root (t : Tree) {st : State S F} (root : st.outer = []) (own : σ) :
    (exec (finish h t) st own).1.2.outer = [] ∧
      Concludes h st.current.symbols (exec (finish h t) st own).1.2.current.symbols
        (exec (finish h t) st own).1.1 := by
  cases t with
  | source s =>
    simp only [finish, finishSource, bind_assoc]
    refine whole_root h (translateSource_leaves h s) (fun st own x r symbols outer => ?_) root own
    obtain ⟨⟨_, _, _⟩, _, _, _, _⟩ := st
    obtain ⟨rfl, rfl⟩ := And.intro symbols outer
    cases r with
    | nil      => exact ⟨_, _, rfl, rfl, rfl, rfl⟩
    | cons _ _ => exact ⟨_, _, rfl, rfl, .inr ⟨rfl, List.cons_ne_nil _ _, rfl⟩⟩
  | feature f =>
    simp only [finish, finishFeature, bind_assoc]
    refine whole_root h (translateFeature_leaves h f) (fun st own x r symbols outer => ?_) root own
    obtain ⟨⟨_, _, _⟩, _, _, _, _⟩ := st
    obtain ⟨rfl, rfl⟩ := And.intro symbols outer
    cases r with
    | nil      => exact ⟨_, _, rfl, rfl, rfl, rfl⟩
    | cons _ _ => exact ⟨_, _, rfl, rfl, .inr ⟨rfl, List.cons_ne_nil _ _, rfl⟩⟩

/-- Whole translations one after the other: what they give, and the states that they reach. -/
def finishAll (h : Hooks (StateM σ) S F) :
    List Tree → State S F → σ → List (Except Fault (Symbol S F)) × State S F × σ
  | [], st, own     => ([], st, own)
  | t :: r, st, own =>
    let ((answer, st'), own') := exec (finish h t) st own
    let (answers, reached) := finishAll h r st' own'
    (answer :: answers, reached)

/-- Some answer is that a symbol was not replaced. -/
def Unreplacing (answers : List (Except Fault (Symbol S F))) : Prop :=
  ∃ e, .error e ∈ answers ∧ h.Unreplaced e

theorem Unreplacing.mono {answers more : List (Except Fault (Symbol S F))}
    (left : Unreplacing h answers) (among : answers ⊆ more) : Unreplacing h more :=
  left.imp fun _ => And.imp_left (among ·)

/-- The stack stays, unless the answer is that a symbol was not replaced. -/
theorem Concludes.kept {before behind : List (Symbol S F)} {answer : Except Fault (Symbol S F)}
    (settled : Concludes h before behind answer) : behind = before ∨ Unreplacing h [answer] := by
  cases answer with
  | ok x => exact .inl (settled.2.trans settled.1.symm)
  | error e =>
    obtain ⟨-, kept | ⟨refused, -⟩⟩ | ⟨-, -, kept⟩ := settled
    · exact .inl kept
    · exact .inr ⟨e, List.mem_singleton_self _, refused⟩
    · exact .inl kept

/-- **Whole translations in the outermost scope**, whatever is left there from earlier on. -/
theorem finishAll_root : ∀ (history : List Tree) {st : State S F}, st.outer = [] → ∀ own : σ,
    (finishAll h history st own).2.1.outer = [] ∧
      ((finishAll h history st own).2.1.current.symbols = st.current.symbols ∨
        Unreplacing h (finishAll h history st own).1) ∧
      ∀ before e behind, (finishAll h history st own).1 = before ++ .error e :: behind →
        h.Raises e ∨ e = .prematureFetch ∧ (st.current.symbols ≠ [] ∨ Unreplacing h before)
  | [], _, root, _ => ⟨root, .inl rfl, fun before _ _ split => by cases before <;> cases split⟩
  | t :: r, st, root, own => by
    obtain ⟨root', settled⟩ := finish_root h t root own
    obtain ⟨ends, left, faults⟩ := finishAll_root r root' (exec (finish h t) st own).2
    simp only [finishAll]
    rcases ran : exec (finish h t) st own with ⟨⟨answer, st'⟩, own'⟩
    rw [ran] at root' settled ends left faults
    dsimp only at root' settled ends left faults ⊢
    have first {rest : List (Except Fault (Symbol S F))} : [answer] ⊆ answer :: rest :=
      fun _ hx => List.mem_cons.2 (.inl (List.mem_singleton.1 hx))
    refine ⟨ends, ?_, fun before e behind split => ?_⟩
    · obtain left | left := left
      · exact settled.kept.imp left.trans (Unreplacing.mono h · first)
      · exact .inr (left.mono h (List.subset_cons_self _ _))
    · cases before with
      | nil =>
        obtain ⟨rfl, -⟩ := List.cons.inj split
        obtain ⟨raised, -⟩ | ⟨rfl, left, -⟩ := settled
        · exact .inl raised
        · exact .inr ⟨rfl, .inl left⟩
      | cons answer' before =>
        obtain ⟨rfl, rest⟩ := List.cons.inj split
        refine (faults before e behind rest).imp_right (And.imp_right ?_)
        rintro (left | left)
        · exact settled.kept.imp (fun kept => by rwa [kept] at left) (Unreplacing.mono h · first)
        · exact .inr (left.mono h (List.subset_cons_self _ _))

end

/-- **The stacks of symbols are misused only after a symbol was not replaced.** Whoever is asked, in
whichever state: translating a source or a feature puts one symbol of its sort on the stack of the
current scope, or ends in a fault of those who were asked. The scopes around stay, and so does that
stack after a fault, or one symbol more is on it if the fault is that the symbol of a node was not
replaced. So behind any list of whole translations only the outermost scope is open; its stack is empty,
or some symbol was not replaced; and a translation ends in a fault of others, or in the one about symbols
that are left, after some symbol was not replaced. Where look-ups for replacing are never refused, no
symbol is left and no translation ends in a fault about stacks unless one who is asked raises such a
fault. -/
theorem translations_disciplined (h : Hooks (StateM σ) S F) :
    (∀ (s : Source) (st : State S F) (own : σ),
      match (exec (translateSource h s) st own).1 with
      | (.ok _, st')    => (∃ x, st'.current.symbols = .source x :: st.current.symbols) ∧
          st'.outer = st.outer
      | (.error e, st') => h.Raises e ∧ st'.outer = st.outer ∧
          (st'.current.symbols = st.current.symbols ∨
            h.Unreplaced e ∧ ∃ x, st'.current.symbols = x :: st.current.symbols)) ∧
    (∀ (f : Feature) (st : State S F) (own : σ),
      match (exec (translateFeature h f) st own).1 with
      | (.ok _, st')    => (∃ x, st'.current.symbols = .feature x :: st.current.symbols) ∧
          st'.outer = st.outer
      | (.error e, st') => h.Raises e ∧ st'.outer = st.outer ∧
          (st'.current.symbols = st.current.symbols ∨
            h.Unreplaced e ∧ ∃ x, st'.current.symbols = x :: st.current.symbols)) ∧
    ∀ (history : List Tree) (own : σ),
      let (answers, st, _) := finishAll h history .fresh own
      st.depth = 1 ∧ (st.current.symbols = [] ∨ ∃ e, .error e ∈ answers ∧ h.Unreplaced e) ∧
        (∀ before e behind, answers = before ++ .error e :: behind → h.Raises e ∨
          e = .prematureFetch ∧ ∃ e', .error e' ∈ before ∧ h.Unreplaced e') ∧
        ((∀ e, ¬h.Unreplaced e) → st.current.symbols = [] ∧
          (∀ e, .error e ∈ answers → h.Raises e) ∧
          ((∀ e, h.Raises e → e.category ≠ .container) →
            ∀ e, .error e ∈ answers → e.category ≠ .container)) := by
  have faults {st st' : State S F} {e : Fault} (left : Abandons h.Raises h.Unreplaced st e st') :
      h.Raises e ∧ st'.outer = st.outer ∧ (st'.current.symbols = st.current.symbols ∨
        h.Unreplaced e ∧ ∃ x, st'.current.symbols = x :: st.current.symbols) := by
    obtain ⟨raised, stays | ⟨refused, x, stays⟩⟩ := left
    · exact ⟨raised, congrArg Prod.snd stays, .inl (congrArg Prod.fst stays)⟩
    · exact ⟨raised, congrArg Prod.snd stays, .inr ⟨refused, x, congrArg Prod.fst stays⟩⟩
  refine ⟨fun s st own => ?_, fun f st own => ?_, fun history own => ?_⟩
  · have left := translateSource_leaves h s st own
    rcases ran : (exec (translateSource h s) st own).1 with ⟨e | _, st'⟩
    · rw [ran] at left
      exact faults left
    · rw [ran] at left
      obtain ⟨_, ⟨x, rfl⟩, stays⟩ := left
      exact ⟨⟨x, congrArg Prod.fst stays⟩, congrArg Prod.snd stays⟩
  · have left := translateFeature_leaves h f st own
    rcases ran : (exec (translateFeature h f) st own).1 with ⟨e | _, st'⟩
    · rw [ran] at left
      exact faults left
    · rw [ran] at left
      obtain ⟨_, ⟨x, rfl⟩, stays⟩ := left
      exact ⟨⟨x, congrArg Prod.fst stays⟩, congrArg Prod.snd stays⟩
  · have root : (State.fresh : State S F).outer = [] := rfl
    obtain ⟨outer, left, ends⟩ := finishAll_root h history root own
    have ends : ∀ before e behind, (finishAll h history .fresh own).1 = before ++ .error e :: behind →
        h.Raises e ∨ e = .prematureFetch ∧ Unreplacing h before := fun before e behind split =>
      (ends before e behind split).imp_right (And.imp_right (Or.resolve_left · fun none => none rfl))
    refine ⟨by simp [State.depth, outer], left, ends, fun none => ?_⟩
    have raised : ∀ e, .error e ∈ (finishAll h history .fresh own).1 → h.Raises e := fun e he => by
      obtain ⟨before, behind, split⟩ := List.append_of_mem he
      exact (ends before e behind split).resolve_right fun ⟨_, e', _, refused⟩ => none e' refused
    exact ⟨left.resolve_right fun ⟨e, _, refused⟩ => none e refused, raised,
      fun others e he => others e (raised e he)⟩

/-- Refuses one look-up for an expression, the first one, and provides nothing. -/
def refusingOnce : Hooks (StateM Bool) Unit Unit where
  lookupSource _ := pure none
  lookupFeature
    | .expression op args t => do
      if ← get then return none
      set true
      throw (.unknownMapping (Feature.expression op args t).text)
    | _ => pure none
  table _         := pure ()
  origin _ _      := pure ()
  scan _ _ _      := pure ()
  reference _ _   := pure ((), ())
  join _ _ _ _    := pure ()
  set _ _ _       := pure ()
  query _ _ _ _ _ _ _ := pure ()
  element _ _ _   := pure ()
  aliased _ _     := pure ()
  literal _ _     := pure ()
  expression _ _ _ := pure ()
  window _ _ _ _  := pure ()

/-- **A refused look-up leaves a symbol behind**, and from then on every translation ends in the fault
about it, also those that nobody refuses anything. -/
theorem unreplaced_left :
    let count : Feature := .expression .count [] none
    let (answers, st, _) := finishAll refusingOnce [.feature count, .feature count] .fresh false
    (∀ e, refusingOnce.Raises e → e.category ≠ .container) ∧
      answers = [.error (.unknownMapping "count(*)"), .error .prematureFetch] ∧
      Fault.prematureFetch.category = .container ∧ st.current.symbols = [.feature ()] := by
  refine ⟨fun e raised => ?_, rfl, rfl, rfl⟩
  cases raised with
  | lookupFeature f refused =>
    obtain ⟨own, refused⟩ := refused
    cases f with
    | expression op args t =>
      cases own <;> cases refused
      exact nofun
    | _ => cases refused
  | _ => obtain ⟨own, refused⟩ := ‹Refuses _ e›; cases refused

end QueryAlgebra.Translation
