import QueryAlgebra.Proofs.Translation.Stack

/-!
# What a scope leaves behind

A body runs in a scope of its own, which is dropped when the body fails and closed when it ends well. A
scope that still holds symbols is not closed, and nothing drops it then. The fault goes on through the
scopes around, each of which drops the one that is open on top in place of its own. So a body that ends
well with symbols left, however deep inside, leaves one scope too many behind. All scopes that were there
before stay as they are in any case.

* `Stacked`: computations made of the operations on stacks and scopes.
* `exec_scope`: what running a body in a scope comes to.
* `Ended`, `Stacked.ended`: where a computation can end. By induction over it, it changes the current
  scope alone, or leaves one scope open on top.
* `Stacked.scope_ended`: a scope ends on the state it was entered on, or with one more scope on top.
* `Ended.exits`, `scope_restores`: which of the two, for each exit of the body.
* `inScopes_scopes`: what any number of scopes leave behind when their faults are caught.
-/

namespace QueryAlgebra.Translation

variable {σ S F α β : Type} {P : Fault → Prop}

/-- Computations made of the operations on stacks and scopes. In between they may look at the scopes, do what
they like with a state of their own, and end in a fault of `P`. -/
inductive Stacked (P : Fault → Prop) : {α : Type} → MachineT (StateM σ) S F α → Prop where
  | pure {α : Type} (a : α) : Stacked P (Pure.pure a)
  | throw {α : Type} {e : Fault} (fault : P e) : Stacked P (throw e : MachineT (StateM σ) S F α)
  | ask {α : Type} {answer : ExceptT Fault (StateM σ) α} (faults : ∀ e, Refuses answer e → P e) :
    Stacked P (ask answer)
  | get : Stacked P (MonadState.get : MachineT (StateM σ) S F (State S F))
  | push (x : Symbol S F) : Stacked P (push x)
  | pop : Stacked P pop
  | sole : Stacked P sole
  | scope {α : Type} {body : MachineT (StateM σ) S F α} (h : Stacked P body) : Stacked P (scope body)
  | bind {α β : Type} {act : MachineT (StateM σ) S F α} {k : α → MachineT (StateM σ) S F β}
    (h : Stacked P act) (hk : ∀ a, Stacked P (k a)) : Stacked P (act >>= k)

namespace Stacked

/-- A symbol that must be that of a source is taken. -/
theorem takeSource (sort : P .sourceExpected) :
    Stacked P (takeSource : MachineT (StateM σ) S F S) :=
  .bind .pop fun
    | .source s  => .pure s
    | .feature _ => .throw sort

/-- A symbol that must be that of a feature is taken. -/
theorem takeFeature (sort : P .featureExpected) :
    Stacked P (takeFeature : MachineT (StateM σ) S F F) :=
  .bind .pop fun
    | .source _  => .throw sort
    | .feature f => .pure f

end Stacked

/-! ### Scopes on top of others -/

namespace State

/-- One more scope is open. -/
def nest (st : State S F) (sc : Scope S F) : State S F :=
  { st with current := sc, outer := st.current :: st.outer }

/-- The current scope is another one. -/
def onto (st : State S F) (sc : Scope S F) : State S F := { st with current := sc }

/-- The current scope is dropped, unless it is the outermost one. -/
def dropped (st : State S F) : State S F :=
  match st.outer with
  | []     => st
  | o :: r => { st with current := o, outer := r }

/-- All scopes, the current one first. -/
def scopes (st : State S F) : List (Scope S F) := st.current :: st.outer

theorem dropped_nest (st : State S F) (sc : Scope S F) : (st.nest sc).dropped = st := rfl

theorem nest_onto (st : State S F) (sc left : Scope S F) : (st.nest sc).onto left = st.nest left := rfl

theorem nest_ne (st : State S F) (sc : Scope S F) : st.nest sc ≠ st := fun same =>
  List.cons_ne_self _ _ (congrArg outer same)

end State

theorem exec_enter (st : State S F) (own : σ) :
    exec enter st own = ((.ok (), st.nest .empty), own) := rfl

theorem exec_discard (st : State S F) (own : σ) :
    exec discard st own = ((.ok (), st.dropped), own) := rfl

theorem exec_exit (st : State S F) (own : σ) : exec exit st own =
    if st.outer.isEmpty then ((.error .unbalancedExit, st), own)
    else if st.current.dirty then ((.error .symbolsLeft, st), own)
    else ((.ok (), st.dropped), own) := by
  have got : exec get st own = ((.ok st, st), own) := rfl
  simp only [exit, exec_bind, got]
  cases st.outer.isEmpty <;> cases st.current.dirty <;> rfl

/-- **Running a body in a scope.** -/
theorem exec_scope (body : MachineT (StateM σ) S F α) (st : State S F) (own : σ) :
    exec (scope body) st own = match exec body (st.nest .empty) own with
      | ((.ok a, st'), own')    =>
        if st'.outer.isEmpty then ((.error .unbalancedExit, st'), own')
        else if st'.current.dirty then ((.error .symbolsLeft, st'), own')
        else ((.ok a, st'.dropped), own')
      | ((.error e, st'), own') => ((.error e, st'.dropped), own') := by
  simp only [scope, exec_bind, exec_tryCatch, exec_enter]
  rcases exec body (st.nest .empty) own with ⟨⟨e | a, st'⟩, own'⟩
  · simp only [exec_discard]
    rfl
  · simp only [exec_exit]
    cases st'.outer.isEmpty <;> cases st'.current.dirty <;> rfl

/-! ### Where computations end -/

/-- A fault of `P`, or one of taking symbols that are not there. -/
def Thrown (P : Fault → Prop) (e : Fault) : Prop := P e ∨ e = .emptyScope ∨ e = .prematureFetch

/-- Where a computation ends: well or with a fault, the current scope being another one, or with a scope
left open on top because it holds symbols. -/
inductive Ended (P : Fault → Prop) (st : State S F) : Except Fault α × State S F → Prop where
  | done (a : α) (sc : Scope S F) : Ended P st (.ok a, st.onto sc)
  | failed {e : Fault} (sc : Scope S F) (fault : Thrown P e) : Ended P st (.error e, st.onto sc)
  | leftOpen (sc left : Scope S F) : Ended P st (.error .symbolsLeft, (st.onto sc).nest left)

/-- Where a scope ends: on the state it was entered on, or with one more scope on top. -/
inductive ScopeEnded (P : Fault → Prop) (st : State S F) : Except Fault α × State S F → Prop where
  | done (a : α) : ScopeEnded P st (.ok a, st)
  | failed {e : Fault} (fault : Thrown P e) : ScopeEnded P st (.error e, st)
  | leftOpen (left : Scope S F) : ScopeEnded P st (.error .symbolsLeft, st.nest left)

variable {st : State S F}

theorem ScopeEnded.ended {r : Except Fault α × State S F} (h : ScopeEnded P st r) : Ended P st r := by
  cases h with
  | done a => exact .done a st.current
  | failed fault => exact .failed st.current fault
  | leftOpen left => exact .leftOpen st.current left

/-- **The exits of a scope.** A body that ends well is asked whether it left symbols, and if so its scope
stays; one that fails loses the scope that is open on top then. -/
theorem Ended.exits {body : MachineT (StateM σ) S F α} {own : σ}
    (h : Ended P (st.nest .empty) (exec body (st.nest .empty) own).1) :
    match (exec body (st.nest .empty) own).1 with
    | (.ok a, ended)    => (exec (Translation.scope body) st own).1 =
      if ended.current.dirty then (.error .symbolsLeft, st.nest ended.current) else (.ok a, st)
    | (.error e, ended) => (exec (Translation.scope body) st own).1 = (.error e, ended.dropped) ∧
      (ended.dropped = st ↔ ended.outer = st.scopes) := by
  rw [exec_scope]
  rcases ran : exec body (st.nest .empty) own with ⟨⟨result, ended⟩, own'⟩
  rw [ran] at h
  cases h with
  | done a sc =>
    have nested : (st.nest sc).outer.isEmpty = false := rfl
    simp only [State.nest_onto, nested, State.dropped_nest, Bool.false_eq_true, if_false]
    exact apply_ite Prod.fst _ _ _
  | failed sc fault => exact ⟨rfl, iff_of_true rfl rfl⟩
  | leftOpen sc left =>
    -- The scope that is dropped is the one left open inside, so that of the body itself stays.
    exact ⟨rfl, iff_of_false (st.nest_ne sc) (List.cons_ne_self sc st.scopes)⟩

/-- **A scope** around a body that ends somewhere. The scope of the body itself is closed or dropped where
the body leaves it on top; a scope that the body leaves open is dropped in its place. -/
theorem Ended.scope {body : MachineT (StateM σ) S F α} {own : σ}
    (h : Ended P (st.nest .empty) (exec body (st.nest .empty) own).1) :
    ScopeEnded P st (exec (Translation.scope body) st own).1 := by
  have exits := h.exits
  generalize (exec body (st.nest .empty) own).1 = inside at h exits
  cases h with
  | done a sc =>
    rw [exits]
    split
    · exact .leftOpen sc
    · exact .done a
  | failed sc fault =>
    rw [exits.1]
    exact .failed fault
  | leftOpen sc left =>
    rw [exits.1]
    exact .leftOpen sc

theorem pop_ended (st : State S F) (own : σ) : Ended P st (exec pop st own).1 := by
  obtain ⟨⟨_ | ⟨x, r⟩, tables, origins⟩, outer, memo, scans, notes⟩ := st
  · exact .failed _ (.inr (.inl rfl))
  · exact .done x _

theorem sole_ended (st : State S F) (own : σ) : Ended P st (exec sole st own).1 := by
  obtain ⟨⟨_ | ⟨x, _ | ⟨y, r⟩⟩, tables, origins⟩, outer, memo, scans, notes⟩ := st
  · exact .failed _ (.inr (.inl rfl))
  · exact .done x _
  · exact .failed _ (.inr (.inr rfl))

/-- One computation after another one. -/
theorem Ended.bind {act : MachineT (StateM σ) S F α} {k : α → MachineT (StateM σ) S F β} {own : σ}
    (h : Ended P st (exec act st own).1)
    (hk : ∀ a st own, Ended P st (exec (k a) st own).1) : Ended P st (exec (act >>= k) st own).1 := by
  rw [exec_bind]
  rcases ran : exec act st own with ⟨⟨result, st'⟩, own'⟩
  rw [ran] at h
  cases h with
  | done a sc =>
    have next := hk a (st.onto sc) own'
    dsimp only
    generalize (exec (k a) (st.onto sc) own').1 = r at next
    cases next with
    | done b sc' => exact .done b sc'
    | failed sc' fault => exact .failed sc' fault
    | leftOpen sc' left => exact .leftOpen sc' left
  | failed sc fault => exact .failed sc fault
  | leftOpen sc left => exact .leftOpen sc left

/-- **Computations change the current scope alone**, or leave one scope open on top. -/
theorem Stacked.ended {act : MachineT (StateM σ) S F α} (h : Stacked P act) :
    ∀ st own, Ended P st (exec act st own).1 := by
  induction h with
  | pure a => exact fun st own => .done a st.current
  | throw fault => exact fun st own => .failed st.current (.inl fault)
  | @ask _ answer faults =>
    intro st own
    have ran : (exec (Translation.ask answer : MachineT (StateM σ) S F _) st own).1
        = ((answer.run own).1, st) := rfl
    rw [ran]
    rcases answered : (answer.run own).1 with e | a
    · exact .failed st.current (.inl (faults e ⟨own, answered⟩))
    · exact .done a st.current
  | get => exact fun st own => .done st st.current
  | push x => exact fun st own => .done () _
  | pop => exact pop_ended
  | sole => exact sole_ended
  | scope _ ih => exact fun st own => (Ended.scope (ih _ own)).ended
  | bind _ _ ih ihk => exact fun st own => (ih st own).bind ihk

theorem Stacked.scope_ended {body : MachineT (StateM σ) S F α} (h : Stacked P body) (st : State S F)
    (own : σ) : ScopeEnded P st (exec (Translation.scope body) st own).1 := (h.ended _ own).scope

/-! ### What is restored -/

namespace ScopeEnded

variable {result : Except Fault α} {st' : State S F}

/-- All scopes that were there are there, with one more scope on top if the last fault is that symbols
were left. -/
theorem around (h : ScopeEnded P st (result, st')) :
    st' = st ∨ result = .error .symbolsLeft ∧ ∃ left, st' = st.nest left := by
  cases h with
  | done a => exact .inl rfl
  | failed fault => exact .inl rfl
  | leftOpen left => exact .inr ⟨rfl, left, rfl⟩

/-- Where that fault comes from nowhere else, it tells whether a scope is left open. -/
theorem restored_iff (h : ScopeEnded P st (result, st')) (other : ¬P .symbolsLeft) :
    st' = st ↔ result ≠ .error .symbolsLeft := by
  cases h with
  | done a => simp
  | failed fault =>
    refine iff_of_true rfl fun same => ?_
    obtain rfl := Except.error.inj same
    simp [Thrown, other] at fault
  | leftOpen left => simp [State.nest_ne]

end ScopeEnded

/-- **A scope restores all scopes around it**, their symbols, their number and whatever else is remembered,
whatever the body is made of and whatever state it starts on, with one exception: when the body, or a body
inside it, ends well but leaves symbols, a scope stays open on top. Then it is just one, and what was there
before lies below it unchanged. A body that ends clean gives its result; one that leaves symbols makes the
scope fail and stay; one that fails makes the scope fail alike, and the scopes are restored exactly if no
scope inside was left open. So if no fault of the body's own says that symbols were left, the scopes are
restored exactly if the scope does not end in that fault. -/
theorem scope_restores {body : MachineT (StateM σ) S F α} (stacked : Stacked P body) (st : State S F)
    (own : σ) :
    let (result, st') := (exec (scope body) st own).1
    (st' = st ∨ result = .error .symbolsLeft ∧ ∃ left, st' = st.nest left) ∧
    (match (exec body (st.nest .empty) own).1 with
      | (.ok a, ended)    =>
        (ended.current.dirty = false → result = .ok a ∧ st' = st) ∧
        (ended.current.dirty = true → result = .error .symbolsLeft ∧ st' = st.nest ended.current)
      | (.error e, ended) => result = .error e ∧ (st' = st ↔ ended.outer = st.scopes)) ∧
    (¬P .symbolsLeft → (st' = st ↔ result ≠ .error .symbolsLeft)) := by
  have whole := stacked.scope_ended st own
  have exits := (stacked.ended (st.nest .empty) own).exits
  generalize (exec (scope body) st own).1 = outside at whole exits ⊢
  generalize (exec body (st.nest .empty) own).1 = inside at exits ⊢
  obtain ⟨result, st'⟩ := outside
  refine ⟨whole.around, ?_, whole.restored_iff⟩
  rcases inside with ⟨e | a, ended⟩
  · obtain ⟨same, kept⟩ := exits
    obtain ⟨rfl, rfl⟩ := Prod.mk.inj same
    exact ⟨rfl, kept⟩
  · constructor
    · intro clean
      simpa [clean] using exits
    · intro dirty
      simpa [dirty] using exits

/-- A body that takes a symbol of the wrong sort, behind a scope that ends well. -/
theorem scope_restores_of_wrong_sort :
    let wrongSort (e : Fault) : Prop := e = .sourceExpected ∨ e = .featureExpected
    let body : MachineT (StateM Unit) Unit Unit Unit := do
      let x ← scope (do push (.feature ()); takeFeature)
      push (.feature x)
      takeSource
    let st : State Unit Unit := State.fresh.onto ⟨[.source ()], .empty, .empty⟩
    Stacked wrongSort body ∧ (exec (scope body) st ()).1 = (.error .sourceExpected, st) := by
  intro wrongSort body st
  have inner : Stacked wrongSort (do push (.feature ()); takeFeature : MachineT (StateM Unit) Unit Unit Unit) :=
    .bind (.push _) fun _ => .takeFeature (.inr rfl)
  have stacked : Stacked wrongSort body :=
    .bind (.scope inner) fun x => .bind (.push _) fun _ => .takeSource (.inl rfl)
  have other : ¬wrongSort .symbolsLeft := by simp [wrongSort]
  have result : (exec (scope body) st ()).1.1 = .error .sourceExpected := rfl
  have restored := (scope_restores stacked st ()).2.2 other
  exact ⟨stacked, Prod.ext result (restored.2 (by rw [result]; nofun))⟩

/-- **A scope that is left with a symbol stays open**, and so does the scope around a body that fails for
that reason, with the symbols that it holds. -/
theorem scope_stays_open :
    let spill : MachineT (StateM Unit) Unit Unit Unit := push (.feature ())
    let around : MachineT (StateM Unit) Unit Unit Unit := do push (.source ()); scope spill
    let st : State Unit Unit := .fresh
    (Stacked (fun _ => False) spill ∧ (exec (scope spill) st ()).1
      = (.error .symbolsLeft, st.nest ⟨[.feature ()], .empty, .empty⟩)) ∧
    (Stacked (fun _ => False) around ∧ (exec (scope around) st ()).1
      = (.error .symbolsLeft, st.nest ⟨[.source ()], .empty, .empty⟩)) ∧
    (exec (scope spill) st ()).1.2.depth = 2 ∧ (exec (scope around) st ()).1.2.depth = 2 ∧ st.depth = 1 :=
  ⟨⟨.push _, rfl⟩, ⟨.bind (.push _) fun _ => .scope (.push _), rfl⟩, rfl, rfl, rfl⟩

/-! ### One scope after another -/

/-- Bodies run in scopes of their own, one after the other, whether or not they fail: what they end in, and
what they leave. -/
def inScopes : List (MachineT (StateM σ) S F α) → State S F → σ → List (Except Fault α) × State S F
  | [],          st, _   => ([], st)
  | body :: r, st, own =>
    let ((result, st'), own') := exec (scope body) st own
    let (results, last) := inScopes r st' own'
    (result :: results, last)

/-- Whether a scope was left with symbols. -/
def refused : Except Fault α → Bool
  | .error .symbolsLeft => true
  | _                   => false

theorem refused_iff {result : Except Fault α} : refused result = true ↔ result = .error .symbolsLeft := by
  unfold refused
  split <;> simp_all

/-- **Each scope that is refused stays open for all that follows**, and none else does. -/
theorem inScopes_scopes {bodies : List (MachineT (StateM σ) S F α)} (stacked : ∀ b ∈ bodies, Stacked P b)
    (other : ¬P .symbolsLeft) (st : State S F) (own : σ) :
    let (results, last) := inScopes bodies st own
    ∃ left, last.scopes = left ++ st.scopes ∧ left.length = results.countP refused := by
  induction bodies generalizing st own with
  | nil => exact ⟨[], rfl, rfl⟩
  | cons body r ih =>
    obtain ⟨hbody, hr⟩ := List.forall_mem_cons.1 stacked
    have first := hbody.scope_ended st own
    rcases ran : exec (scope body) st own with ⟨⟨result, st'⟩, own'⟩
    rw [ran] at first
    obtain ⟨left, scopes, count⟩ := ih hr st' own'
    simp only [inScopes, ran, List.countP_cons]
    by_cases stays : result = .error .symbolsLeft
    · obtain ⟨sc, rfl⟩ : ∃ sc, st' = st.nest sc := by
        rcases first.around with rfl | ⟨-, above⟩
        · exact absurd stays ((first.restored_iff other).1 rfl)
        · exact above
      exact ⟨left ++ [sc], by rw [scopes, List.append_assoc]; rfl, by
        simp [count, refused_iff.2 stays]⟩
    · obtain rfl := (first.restored_iff other).2 stays
      exact ⟨left, scopes, by simp [count, mt refused_iff.1 stays]⟩

end QueryAlgebra.Translation
