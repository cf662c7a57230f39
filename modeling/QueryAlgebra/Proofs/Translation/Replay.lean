import QueryAlgebra.Proofs.Translation.History

/-!
# Translating again

What is remembered stays so, and a tree that is translated again finds all of its parts remembered. So a
part of a tree becomes the same symbol again, however much was translated in between, as long as the
scope reads the same tables. A statement has a scope of its own, so its parts become what they became
before in any later state.

* `Replays`: computations that end as before, where all is remembered that they remembered.
* `Stable`: those that also keep what is remembered; `directSource_stable`: translations of sources do.
* `Translator.after_keeps`: whole translations keep what is remembered.
* `StatementParts`, `directSource_statement`: a statement is put together of the symbols of its parts.
* `Translator.Yields.again`: the parts of a statement are the same in all later states of a translator.
-/

namespace QueryAlgebra.Translation

variable {S F α β : Type}

/-! ### Ending as before -/

theorem Keeps.scope {d : Direct S F α} (h : Keeps d) : Keeps d.scope := fun w => h w.inner

/-- Where the computation has ended well, it ends with the same result in every scope that reads and has
visited the same, if all is remembered that was remembered then, and it remembers nothing new. -/
def Replays (d : Direct S F α) : Prop :=
  ∀ w a u, eval d w = (.ok a, u) → ∀ v : Bench S F, v.tables = w.tables → v.origins = w.origins →
    u.Extends v → ∃ v', eval d v = (.ok a, v') ∧ v'.tables = u.tables ∧ v'.origins = u.origins ∧
      v'.memo = v.memo

namespace Replays

theorem pure (a : α) : Replays (Pure.pure a : Direct S F α) := by
  intro w x u run v tables origins _
  cases run
  exact ⟨v, rfl, tables, origins, rfl⟩

theorem settle (r : Except Fault α) : Replays (Direct.settle r : Direct S F α) := by
  intro w x u run v tables origins _
  cases r with
  | error e => cases run
  | ok a =>
    cases run
    exact ⟨v, rfl, tables, origins, rfl⟩

/-- What was computed was remembered, so it is found again. -/
theorem recalled {key : String} {d : Direct S F F} (h : Records d) : Replays (Direct.recall key d) := by
  intro w x u run v tables origins known
  have found : Remembers u.memo key x := by
    unfold Direct.recall at run
    simp only [eval_bind, eval_get, andThen_ok] at run
    cases hk : Assoc.find? (key == ·) w.memo with
    | some y =>
      rw [hk] at run
      obtain ⟨rfl, rfl⟩ : y = x ∧ w = u := by simpa using run
      exact hk
    | none =>
      rw [hk] at run
      obtain ⟨y, u₁, -, put⟩ := eval_bind_eq_ok.1 run
      obtain ⟨rfl, rfl⟩ : y = x ∧ { u₁ with memo := Assoc.put (· == ·) key y u₁.memo } = u := by
        simpa [eval_bind, Except.map] using put
      exact remembers_put _ _ _
  have again : Assoc.find? (key == ·) v.memo = some x := known key x found
  obtain ⟨memo, notes, same⟩ := h.recalled w
  rw [run] at same
  refine ⟨v, ?_, tables.trans (congrArg Bench.tables same).symm,
    origins.trans (congrArg Bench.origins same).symm, rfl⟩
  unfold Direct.recall
  simp only [eval_bind, eval_get, andThen_ok, again]
  rfl

theorem setOrigin (s : Source) (x : S) : Replays (Direct.setOrigin s x : Direct S F Unit) := by
  intro w a u run v tables origins _
  cases run
  exact ⟨_, rfl, tables, congrArg (·.set s x) origins, rfl⟩

theorem modifyTables (change : Readings → Readings) :
    Replays (Direct.modifyTables change : Direct S F Unit) := by
  intro w a u run v tables origins _
  cases run
  exact ⟨_, rfl, congrArg change tables, origins, rfl⟩

/-- What goes on with the tables that the scope reads. -/
theorem reading {k : Readings → Direct S F α} (h : ∀ ts, Replays (k ts)) :
    Replays (do let w ← get; k w.tables) := by
  intro w a u run v tables origins known
  obtain ⟨v', again, rest⟩ := h w.tables w a u run v tables origins known
  exact ⟨v', by rw [eval_bind, eval_get, andThen_ok, tables, again], rest⟩

theorem scanned (scan : Scan S F) :
    Replays (modify fun w => { w with scans := w.scans ++ [scan] } : Direct S F Unit) := by
  intro w a u run v tables origins _
  cases run
  exact ⟨_, rfl, tables, origins, rfl⟩

theorem replacedSource (b : Backend S F) (s : Source) (x : S) :
    Replays (directReplacedSource b s x) := by
  intro w a u run v tables origins _
  obtain ⟨notes, first⟩ := eval_directReplacedSource b s x w
  obtain ⟨notes', second⟩ := eval_directReplacedSource b s x v
  rw [first] at run
  cases run
  exact ⟨_, second, tables, origins, rfl⟩

/-- A scope of its own reads nothing at first. -/
theorem scope {d : Direct S F α} (h : Replays d) {w u : Bench S F} {a : α}
    (run : eval d.scope w = (.ok a, u)) {v : Bench S F} (known : u.Extends v) :
    ∃ v', eval d.scope v = (.ok a, v') ∧ v'.tables = v.tables ∧ v'.origins = v.origins ∧
      v'.memo = v.memo := by
  have opened : eval d.scope w = ((eval d w.inner).1, (eval d w.inner).2.leave w) := rfl
  rw [opened] at run
  rcases inside : eval d w.inner with ⟨r, u₁⟩
  rw [inside] at run
  cases run
  obtain ⟨v₁, again, -, -, memo⟩ := h w.inner a u₁ inside v.inner rfl rfl known
  refine ⟨v₁.leave v, ?_, rfl, rfl, memo⟩
  show ((eval d v.inner).1, (eval d v.inner).2.leave v) = _
  rw [again]

end Replays

/-- The computation keeps what is remembered, and ends as before where it has ended well. -/
structure Stable (d : Direct S F α) : Prop where
  keeps   : Keeps d
  replays : Replays d

namespace Stable

theorem bind {d : Direct S F α} {k : α → Direct S F β} (hd : Stable d) (hk : ∀ a, Stable (k a)) :
    Stable (d >>= k) where
  keeps := hd.keeps.bind fun a => (hk a).keeps
  replays := by
    intro w y u run v tables origins known
    obtain ⟨a, u₁, first, second⟩ := eval_bind_eq_ok.1 run
    have rest := (hk a).keeps u₁
    rw [second] at rest
    obtain ⟨v₁, again, tables₁, origins₁, memo₁⟩ := hd.replays w a u₁ first v tables origins
      (rest.trans known)
    obtain ⟨v₂, ends, tables₂, origins₂, memo₂⟩ := (hk a).replays u₁ y u second v₁ tables₁ origins₁
      fun key x hx => memo₁ ▸ known key x hx
    exact ⟨v₂, eval_bind_eq_ok.2 ⟨a, v₁, again, ends⟩, tables₂, origins₂, memo₂.trans memo₁⟩

theorem pure (a : α) : Stable (Pure.pure a : Direct S F α) := ⟨.pure a, .pure a⟩

theorem settle (r : Except Fault α) : Stable (Direct.settle r : Direct S F α) := ⟨.settle r, .settle r⟩

theorem setOrigin (s : Source) (x : S) : Stable (Direct.setOrigin s x : Direct S F Unit) :=
  ⟨.of_memo fun _ => rfl, .setOrigin s x⟩

theorem modifyTables (change : Readings → Readings) :
    Stable (Direct.modifyTables change : Direct S F Unit) :=
  ⟨.of_memo fun _ => rfl, .modifyTables change⟩

theorem reading {k : Readings → Direct S F α} (h : ∀ ts, Stable (k ts)) :
    Stable (do let w ← get; k w.tables) :=
  ⟨(Keeps.of_memo fun _ => rfl).bind fun w => (h w.tables).keeps, .reading fun ts => (h ts).replays⟩

theorem scanned (scan : Scan S F) :
    Stable (modify fun w => { w with scans := w.scans ++ [scan] } : Direct S F Unit) :=
  ⟨.of_memo fun _ => rfl, .scanned scan⟩

theorem replacedSource (b : Backend S F) (s : Source) (x : S) : Stable (directReplacedSource b s x) :=
  ⟨.replacedSource b s x, .replacedSource b s x⟩

theorem scope {d : Direct S F α} (h : Stable d) : Stable d.scope := by
  refine ⟨h.keeps.scope, fun w a u run v tables origins known => ?_⟩
  obtain ⟨v', again, tables', origins', memo⟩ := h.replays.scope run known
  obtain ⟨quiet, still⟩ := Quiet.scope d w
  rw [run] at quiet still
  exact ⟨v', again, (tables'.trans tables).trans quiet.symm, (origins'.trans origins).trans still.symm,
    memo⟩

end Stable

theorem recall_stable (b : Backend S F) (f : Feature) :
    Stable (Direct.recall f.key (directFeature b f)) :=
  ⟨(directFeature_keeps b f).recalled (directFeature_adds b f), .recalled (directFeature_records b f)⟩

theorem directFeatures_stable (b : Backend S F) (fs : List Feature) : Stable (directFeatures b fs) := by
  induction fs with
  | nil => exact .pure _
  | cons f r ih =>
    simp only [directFeatures]
    exact (recall_stable b f).bind fun _ => ih.bind fun _ => .pure _

theorem directTerms_stable (b : Backend S F) (os : List OrderTerm) : Stable (directTerms b os) := by
  induction os with
  | nil => exact .pure _
  | cons o r ih =>
    obtain ⟨f, d⟩ := o
    simp only [directTerms]
    exact (recall_stable b f).bind fun _ => ih.bind fun _ => .pure _

theorem directOption_stable (b : Backend S F) (o : Option Feature) : Stable (directOption b o) := by
  cases o with
  | none => exact .pure _
  | some f => exact (recall_stable b f).bind fun _ => .pure _

theorem directTable_stable (b : Backend S F) (t : Schema) : Stable (directTable b t) := by
  have reads : ∀ (origin : S) (ts : Readings), Stable (do
      let fields ← directFeatures b (ts.reading t).fields
      let predicate ← directOption b (ts.reading t).predicate
      modify fun w => { w with scans := w.scans ++ [⟨origin, fields, predicate⟩] }
      return b.scan origin fields predicate : Direct S F S) := fun origin ts =>
    (directFeatures_stable b _).bind fun _ => (directOption_stable b _).bind fun _ =>
      (Stable.scanned _).bind fun _ => .pure _
  unfold directTable
  refine (Stable.settle _).bind fun origin => (Stable.setOrigin _ _).bind fun _ =>
    (Stable.modifyTables _).bind fun _ => ?_
  exact Stable.reading (reads origin)

/-! ### Statements -/

/-- The symbols of the parts of a statement. -/
structure StatementParts (S F : Type) where
  source   : S
  features : List F
  filter   : Option F
  groupby  : List F
  having   : Option F
  orderby  : List (OrderSymbol F)

/-- The parts of a statement in its scope, without a stack. -/
def directParts (b : Backend S F) (source : Direct S F S) (outputs : List Feature)
    (pre : Option Feature) (grp : List Feature) (post : Option Feature) (ord : List OrderTerm) :
    Direct S F (StatementParts S F) := do
  Direct.modifyTables (registerClauses outputs pre grp post ord)
  let source ← source
  let features ← directFeatures b outputs
  let filter ← directOption b pre
  let groupby ← directFeatures b grp
  let having ← directOption b post
  let orderby ← directTerms b ord
  return ⟨source, features, filter, groupby, having, orderby⟩

/-- The symbol of a statement of given parts. -/
def StatementParts.query (p : StatementParts S F) (b : Backend S F) (rows : Option RowRange) : S :=
  b.query p.source p.features p.filter p.groupby p.having p.orderby rows

theorem scope_map (d : Direct S F α) (g : α → β) :
    Direct.scope (do return g (← d)) = (do return g (← d.scope)) := by
  refine ext_eval fun w => ?_
  show ((eval (d >>= fun a => pure (g a)) w.inner).1, (eval (d >>= fun a => pure (g a)) w.inner).2.leave w)
    = eval (d.scope >>= fun a => pure (g a)) w
  have inside : eval d.scope w = ((eval d w.inner).1, (eval d w.inner).2.leave w) := rfl
  rw [eval_bind, eval_bind, inside]
  rcases eval d w.inner with ⟨_ | a, v⟩ <;> rfl

/-- **A statement is put together of the symbols of its parts**, which the row limit has no part in. -/
theorem directSource_statement (b : Backend S F) (s : Source) (sel : List Feature)
    (pre : Option Feature) (grp : List Feature) (post : Option Feature) (ord : List OrderTerm)
    (rows : Option RowRange) :
    directSource b (.query s sel pre grp post ord rows) = (do
      let p ← (directParts b (directSource b s) (if sel.isEmpty then s.features else sel) pre grp post
        ord).scope
      directReplacedSource b (.query s sel pre grp post ord rows) (p.query b rows)) := by
  have made := scope_map (directParts b (directSource b s) (if sel.isEmpty then s.features else sel)
    pre grp post ord) fun p => p.query b rows
  simp only [directParts, bind_assoc, pure_bind, StatementParts.query] at made
  simp only [directSource, Source.features, made, bind_assoc, pure_bind, directParts,
    StatementParts.query]

theorem directParts_stable (b : Backend S F) {source : Direct S F S} (h : Stable source)
    (outputs : List Feature) (pre : Option Feature) (grp : List Feature) (post : Option Feature)
    (ord : List OrderTerm) : Stable (directParts b source outputs pre grp post ord) :=
  (Stable.modifyTables _).bind fun _ => h.bind fun _ => (directFeatures_stable b _).bind fun _ =>
    (directOption_stable b _).bind fun _ => (directFeatures_stable b _).bind fun _ =>
      (directOption_stable b _).bind fun _ => (directTerms_stable b _).bind fun _ => .pure _

/-- **Translating a source again ends as before**, and what is remembered stays. -/
theorem directSource_stable (b : Backend S F) : ∀ s : Source, Stable (directSource b s)
  | .table t => by
    simp only [directSource]
    exact directTable_stable b t
  | .reference s n => by
    simp only [directSource]
    exact (directSource_stable b s).bind fun _ => (Stable.setOrigin _ _).bind fun _ => .pure _
  | .set l r k => by
    simp only [directSource]
    exact (directSource_stable b l).bind fun _ => (directSource_stable b r).bind fun _ =>
      .replacedSource b _ _
  | .join l r k c => by
    have sides := (directSource_stable b l).bind fun x => (directSource_stable b r).bind fun y =>
      (directOption_stable b c).bind fun z =>
        Stable.replacedSource b (.join l r k c) (b.join x y z k)
    cases c with
    | none => exact sides
    | some p => exact (Stable.modifyTables _).bind fun _ => sides
  | .query s sel pre grp post ord rows => by
    rw [directSource_statement]
    exact (directParts_stable b (directSource_stable b s) _ pre grp post ord).scope.bind fun _ =>
      .replacedSource b _ _

/-! ### Whole translations -/

theorem directFinish_keeps (b : Backend S F) (tree : Tree) : Keeps (directFinish b tree) := by
  cases tree with
  | source s =>
    exact (directSource_stable b s).keeps.bind fun _ => (Keeps.of_memo fun _ => rfl).bind fun _ => .pure _
  | feature f => exact (directFeature_keeps b f).bind fun _ => .pure _

/-- **Whole translations keep all that is remembered**, and the stacks stay empty. -/
theorem Translator.after_keeps : ∀ (history : List Tree) {t : Translator S F}, t.state.Clean →
    (t.after history).backend = t.backend ∧ (t.after history).state.Clean ∧
      t.state.bench.Extends (t.after history).state.bench
  | [], t, clean => ⟨rfl, clean, .refl _⟩
  | tree :: r, t, clean => by
    have served := t.serve_finish clean tree
    have step : t.state.bench.Extends (t.serve (.finish tree)).2.state.bench := by
      rw [served]
      exact directFinish_keeps t.backend tree t.cleared.state.bench
    have still : (t.serve (.finish tree)).2.state.Clean := by rw [served]; exact clean
    obtain ⟨same, empty, more⟩ := after_keeps r still
    refine ⟨same.trans ?_, empty, step.trans more⟩
    rw [served]

section

variable {t : Translator S F} {s : Source} {sel : List Feature} {pre : Option Feature}
  {grp : List Feature} {post : Option Feature} {ord : List OrderTerm} {p : StatementParts S F}

/-- The translator makes of the parts of a statement these symbols. -/
def Translator.Yields (t : Translator S F) (s : Source) (sel : List Feature) (pre : Option Feature)
    (grp : List Feature) (post : Option Feature) (ord : List OrderTerm) (p : StatementParts S F) : Prop :=
  ∃ u, eval (directParts t.backend (directSource t.backend s)
    (if sel.isEmpty then s.features else sel) pre grp post ord).scope t.cleared.state.bench = (.ok p, u)

/-- A statement that no symbol is provided for is put together of its parts. -/
theorem Translator.finished_statement (clean : t.state.Clean) {rows : Option RowRange}
    (unprovided : t.backend.sources.get? (.query s sel pre grp post ord rows) = none) {x : S} :
    (∃ t', t.serve (.finish (.source (.query s sel pre grp post ord rows))) = (.ok (some (.source x)), t'))
      ↔ ∃ p, t.Yields s sel pre grp post ord p ∧ x = p.query t.backend rows := by
  obtain ⟨notes, finished⟩ := eval_directFinish_source t.backend (.query s sel pre grp post ord rows)
    t.cleared.state.bench
  rw [t.serve_finish clean, finished, directSource_statement, eval_bind]
  unfold Yields
  generalize eval (Direct.scope _) _ = r
  obtain ⟨_ | p, u⟩ := r
  · simp [Except.map]
  · obtain ⟨notes', kept⟩ := eval_directReplacedSource t.backend (.query s sel pre grp post ord rows)
      (p.query t.backend rows) u
    rw [andThen_ok, kept, unprovided]
    simp [Except.map, eq_comm]

/-- **The parts of a statement become the same symbols again**, whatever is translated after them. -/
theorem Translator.Yields.again (h : t.Yields s sel pre grp post ord p) (clean : t.state.Clean)
    (rows : Option RowRange) (more : List Tree) :
    (t.after (.source (.query s sel pre grp post ord rows) :: more)).Yields s sel pre grp post ord p := by
  obtain ⟨u, run⟩ := h
  obtain ⟨notes, finished⟩ := eval_directFinish_source t.backend (.query s sel pre grp post ord rows)
    t.cleared.state.bench
  have served := t.serve_finish clean (.source (.query s sel pre grp post ord rows))
  rw [finished, directSource_statement, eval_bind, run, andThen_ok] at served
  obtain ⟨notes', kept⟩ := eval_directReplacedSource t.backend (.query s sel pre grp post ord rows)
    (p.query t.backend rows) u
  rw [kept] at served
  have still : (t.serve (.finish (.source (.query s sel pre grp post ord rows)))).2.state.Clean := by
    rw [served]
    exact clean
  obtain ⟨backend, -, later⟩ := after_keeps more still
  have parts := directParts_stable t.backend (directSource_stable t.backend s)
    (if sel.isEmpty then s.features else sel) pre grp post ord
  have known : u.Extends (t.after
      (.source (.query s sel pre grp post ord rows) :: more)).cleared.state.bench := by
    refine Bench.Extends.trans ?_ later
    rw [served]
    exact .of_memo rfl
  obtain ⟨v, again, -⟩ := parts.replays.scope run known
  refine ⟨v, ?_⟩
  have same : (t.after (.source (.query s sel pre grp post ord rows) :: more)).backend = t.backend :=
    backend.trans (by rw [served])
  rw [same]
  exact again

end

end QueryAlgebra.Translation
