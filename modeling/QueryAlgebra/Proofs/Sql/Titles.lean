import QueryAlgebra.Proofs.Sql.Shape
import QueryAlgebra.Proofs.Translation.Columns
import QueryAlgebra.Proofs.Translation.History
import Mathlib.Logic.Function.Basic

/-!
# Titles of columns

A column is written behind the name of a table. Tables with the same fields are one table to a
translation, so it is the name of the one that was visited last when the column was first translated.
That depends on nothing but the columns inside features and the tables, in the order in which they
are met.

* `Titles`: the names that columns have been given, and what decides about further names.
* `Source.titles`: the titles behind a source.
* `Entitled`: the titles are those of the columns that are remembered.
* `source_entitled`: translations of sources go through the titles of the sources.
-/

namespace QueryAlgebra

/-- The columns that a scope has registered, the names under which tables were visited there, by the
keys of the tables, and the names that columns have been given, by the keys of the columns. -/
structure Titles where
  read    : List Feature
  visited : String → Option String
  given   : String → Option String

namespace Titles

/-- Nothing is registered, visited or given yet. -/
def none : Titles := ⟨[], fun _ => .none, fun _ => .none⟩

/-- The name that a column is given now: that of the table visited in the scope, or else its own. -/
def of (a : Titles) (c : Feature) : String :=
  (c.table?.map fun t => (a.visited t.key).getD t.name).getD ""

/-- Gives names to the columns that have none. -/
def give (a : Titles) (cs : List Feature) : Titles :=
  { a with given := fun k => (a.given k).or ((cs.find? fun c => c.key == k).map a.of) }

/-- Visits a table, and gives names to the columns that are registered for it. -/
def visit (a : Titles) (t : Schema) : Titles :=
  let a := { a with visited := Function.update a.visited t.key (some t.name) }
  a.give (a.read.filter fun c => c.tableKey? == some t.key)

/-- Registers the columns inside features. -/
def register (a : Titles) (fs : List Feature) : Titles := { a with read := a.read ++ columnsOf fs }

/-- The titles at the beginning of a scope of its own, which has registered features. -/
def inner (a : Titles) (fs : List Feature) : Titles := { none with given := a.given }.register fs

/-- The titles back in the scope around. -/
def leave (a outer : Titles) : Titles := { outer with given := a.given }

theorem give_append (a : Titles) (cs ds : List Feature) : a.give (cs ++ ds) = (a.give cs).give ds := by
  unfold give
  congr 1
  funext k
  show (a.given k).or (((cs ++ ds).find? fun c => c.key == k).map a.of)
    = ((a.given k).or ((cs.find? fun c => c.key == k).map a.of)).or
      ((ds.find? fun c => c.key == k).map a.of)
  rw [List.find?_append, Option.or_assoc]
  cases cs.find? fun c => c.key == k <;> rfl

theorem give_of_given {a : Titles} {cs : List Feature} (h : ∀ c ∈ cs, (a.given c.key).isSome = true) :
    a.give cs = a := by
  unfold give
  congr 1
  funext k
  cases known : a.given k with
  | some n => rfl
  | none =>
    rw [List.find?_eq_none.2]
    · rfl
    · intro c hc same
      have := h c hc
      rw [beq_iff_eq.1 same, known] at this
      simp at this

/-- Columns that are all given one name may be taken in any order. -/
theorem give_one_name {a : Titles} {cs ds : List Feature} {n : String} (hcs : ∀ c ∈ cs, a.of c = n)
    (hds : ∀ d ∈ ds, a.of d = n) (keys : ∀ k, (∃ c ∈ cs, c.key = k) ↔ ∃ d ∈ ds, d.key = k) :
    a.give cs = a.give ds := by
  have one : ∀ cs : List Feature, (∀ c ∈ cs, a.of c = n) → ∀ k,
      (∃ c ∈ cs, c.key = k) ∧ (cs.find? fun c => c.key == k).map a.of = some n ∨
        (¬∃ c ∈ cs, c.key = k) ∧ (cs.find? fun c => c.key == k).map a.of = .none := by
    intro cs hcs k
    cases found : cs.find? fun c => c.key == k with
    | none => exact .inr ⟨by simpa using found, rfl⟩
    | some c =>
      have mem := List.mem_of_find?_eq_some found
      exact .inl ⟨⟨c, mem, by simpa using List.find?_some found⟩, congrArg some (hcs c mem)⟩
  unfold give
  congr 1
  funext k
  rcases one cs hcs k with ⟨hc, fc⟩ | ⟨hc, fc⟩ <;> rcases one ds hds k with ⟨hd, fd⟩ | ⟨hd, fd⟩
  · rw [fc, fd]
  · exact absurd ((keys k).1 hc) hd
  · exact absurd ((keys k).2 hd) hc
  · rw [fc, fd]

/-- A column of a table that was visited is given the name of the table. -/
theorem of_visited {a : Titles} {c : Feature} {t n : String} (table : c.tableKey? = some t)
    (visited : a.visited t = some n) : a.of c = n := by
  obtain ⟨u, hu, rfl⟩ := Option.map_eq_some_iff.1 table
  simp [of, hu, visited]

end Titles

/-- The features of all clauses of a statement, in the order in which they are translated. -/
def clauseFeatures (s : Source) (sel : List Feature) (pre : Option Feature) (grp : List Feature)
    (post : Option Feature) (ord : List OrderTerm) : List Feature :=
  (Source.query s sel pre grp post ord .none).features ++ pre.toList ++ grp ++ post.toList
    ++ ord.map OrderTerm.feature

/-- The titles behind a source. -/
def Source.titles : Source → Titles → Titles
  | .table t, a       => a.visit t
  | .reference s _, a => s.titles a
  | .join l r _ c, a  => (r.titles (l.titles (a.register c.toList))).give (columnsOf c.toList)
  | .set l r _, a     => r.titles (l.titles a)
  | .query s sel pre grp post ord _, a =>
    let fs := clauseFeatures s sel pre grp post ord
    ((s.titles (a.inner fs)).give (columnsOf fs)).leave a

namespace Sql

open Translation

/-- Where elements are remembered for all features that are. -/
abbrev closed : Invariant Source Feature := closedMemo Source Feature

theorem closed_lawful : closed.Lawful skeleton := closedMemo_lawful skeleton

/-- The titles are those of the columns that are remembered, of the tables that were visited, and of
the columns that are registered. -/
structure Entitled (w : Bench Source Feature) (a : Titles) : Prop where
  read    : w.tables.Registers a.read
  visited : ∀ t, w.origins.get? (.table t) = (a.visited t.key).map fun n => .table ⟨n, []⟩
  given   : ∀ c : Feature, c.Obeys .distinct → c.table?.isSome = true →
    (Assoc.find? (c.key == ·) w.memo).map Feature.handle = a.given c.key

namespace Entitled

variable {w w' : Bench Source Feature} {a : Titles}

theorem fresh : Entitled Bench.fresh .none where
  read := .empty
  visited _ := rfl
  given _ _ _ := rfl

/-- What is remembered for other features does not matter. -/
theorem put_other (h : Entitled w a) {k : String} (x : Feature)
    (other : ∀ c : Feature, c.Obeys .distinct → c.table?.isSome = true → c.key ≠ k) :
    Entitled { w with memo := Assoc.put (· == ·) k x w.memo } a where
  read := h.read
  visited := h.visited
  given c hc table := by
    rw [← h.given c hc table]
    exact congrArg _ (Assoc.find?_put_of_ne _ _ (other c hc table))

/-- A column that is remembered for the first time is given its name. -/
theorem put_column (h : Entitled w a) {f x : Feature} (new : Assoc.find? (f.key == ·) w.memo = none)
    (hx : x.handle = a.of f) :
    Entitled { w with memo := Assoc.put (· == ·) f.key x w.memo } (a.give [f]) where
  read := h.read
  visited := h.visited
  given c hc table' := by
    have before := h.given c hc table'
    by_cases same : c.key = f.key
    · rw [same] at before ⊢
      rw [new] at before
      simp [Titles.give, Assoc.find?_put_self, ← before, ← hx]
    · simp [Titles.give, Assoc.find?_put_of_ne _ _ same, before, Ne.symm same]

/-- The symbol of a column has the name that the column is given. -/
theorem handle_of_symbol (h : Entitled w a) {t : Schema} {n : String} {k : Kind} {x : Feature}
    (made : skeleton.elementSymbol w.origins (.table t) n k = .ok x) :
    x.handle = a.of (.element (.table t) n k) := by
  obtain ⟨y, hy, rfl⟩ := map_eq_ok.1 (show (skeleton.origin w.origins (.table t)).map _ = .ok x from made)
  unfold Backend.origin at hy
  rw [h.visited t] at hy
  cases visited : a.visited t.key with
  | some l =>
    rw [visited] at hy
    cases hy
    simp [Titles.of, Feature.table?, visited]
    rfl
  | none =>
    rw [visited] at hy
    cases hy
    simp [Titles.of, Feature.table?, visited]
    rfl

end Entitled

/-! ### Features -/

/-- Recalling a feature gives names to the columns inside it. -/
def Entitles (f : Feature) : Prop :=
  ∀ {w w' : Bench Source Feature} {a : Titles} {x : Feature}, closed.Holds w → Entitled w a →
    eval (Direct.recall f.key (directFeature skeleton f)) w = (.ok x, w') →
    closed.Holds w' ∧ Entitled w' (a.give f.columns)

section

variable {w w' : Bench Source Feature} {a : Titles}

theorem eval_settle_eq_ok {α : Type} {r : Except Fault α} {x : α} :
    eval (Direct.settle r : Direct Source Feature α) w = (.ok x, w') ↔ r = .ok x ∧ w = w' := by
  cases r <;> simp [Direct.settle]

theorem eval_scope_eq_ok {α : Type} {d : Direct Source Feature α} {x : α} :
    eval d.scope w = (.ok x, w') ↔ ∃ v, eval d w.inner = (.ok x, v) ∧ w' = v.leave w := by
  have run : eval d.scope w = ((eval d w.inner).1, (eval d w.inner).2.leave w) := rfl
  rw [run]
  rcases eval d w.inner with ⟨r, v⟩
  simp only [Prod.mk.injEq]
  constructor
  · rintro ⟨rfl, rfl⟩
    exact ⟨v, ⟨rfl, rfl⟩, rfl⟩
  · rintro ⟨v', ⟨rfl, rfl⟩, rfl⟩
    exact ⟨rfl, rfl⟩

theorem features_entitled : ∀ {fs xs : List Feature}, (∀ f ∈ fs, Entitles f) →
    ∀ {w w' : Bench Source Feature} {a : Titles}, closed.Holds w → Entitled w a →
    eval (directFeatures skeleton fs) w = (.ok xs, w') →
    closed.Holds w' ∧ Entitled w' (a.give (columnsOf fs))
  | [], xs, _, w, w', a, hI, h, made => by
    cases made
    exact ⟨hI, by rwa [show columnsOf [] = [] from rfl, Titles.give_of_given (by simp)]⟩
  | f :: r, xs, each, w, w', a, hI, h, made => by
    obtain ⟨hf, hr⟩ := List.forall_mem_cons.1 each
    simp only [directFeatures, eval_bind_eq_ok] at made
    obtain ⟨x, w₁, first, ys, w₂, rest, last⟩ := made
    cases last
    obtain ⟨hI₁, h₁⟩ := hf hI h first
    obtain ⟨hI₂, h₂⟩ := features_entitled hr hI₁ h₁ rest
    exact ⟨hI₂, by rwa [← Titles.give_append] at h₂⟩

theorem terms_entitled : ∀ {os : List OrderTerm} {ys : List (OrderSymbol Feature)},
    (∀ o ∈ os, Entitles o.feature) →
    ∀ {w w' : Bench Source Feature} {a : Titles}, closed.Holds w → Entitled w a →
    eval (directTerms skeleton os) w = (.ok ys, w') →
    closed.Holds w' ∧ Entitled w' (a.give (columnsOf (os.map OrderTerm.feature)))
  | [], ys, _, w, w', a, hI, h, made => by
    cases made
    exact ⟨hI, by rwa [show columnsOf ([].map OrderTerm.feature) = [] from rfl,
      Titles.give_of_given (by simp)]⟩
  | .by f d :: r, ys, each, w, w', a, hI, h, made => by
    obtain ⟨hf, hr⟩ := List.forall_mem_cons.1 each
    simp only [directTerms, eval_bind_eq_ok] at made
    obtain ⟨x, w₁, first, ys, w₂, rest, last⟩ := made
    cases last
    obtain ⟨hI₁, h₁⟩ := hf hI h first
    obtain ⟨hI₂, h₂⟩ := terms_entitled hr hI₁ h₁ rest
    exact ⟨hI₂, by rwa [← Titles.give_append] at h₂⟩

theorem option_entitled {c z : Option Feature} (each : ∀ f ∈ c, Entitles f) (hI : closed.Holds w)
    (h : Entitled w a) (made : eval (directOption skeleton c) w = (.ok z, w')) :
    closed.Holds w' ∧ Entitled w' (a.give (columnsOf c.toList)) := by
  cases c with
  | none =>
    cases made
    exact ⟨hI, by rwa [show columnsOf (none : Option Feature).toList = [] from rfl,
      Titles.give_of_given (by simp)]⟩
  | some f =>
    simp only [directOption, eval_bind_eq_ok] at made
    obtain ⟨x, w₁, first, last⟩ := made
    cases last
    obtain ⟨hI₁, h₁⟩ := each f rfl hI h first
    exact ⟨hI₁, by simpa [columnsOf] using h₁⟩

/-- Translating a feature that is no element gives names to the columns inside its parts. -/
theorem parts_entitled {f : Feature} (inner : f.isElement = false)
    (each : ∀ c ∈ f.children, Entitles c) {x : Feature} (hI : closed.Holds w) (h : Entitled w a)
    (made : eval (directFeature skeleton f) w = (.ok x, w')) : Entitled w' (a.give f.columns) := by
  rw [Feature.columns_eq inner]
  cases f with
  | aliased g n =>
    simp only [directFeature, eval_bind_eq_ok] at made
    obtain ⟨y, w₁, first, last⟩ := made
    cases last
    simpa [Feature.children] using (each g (by simp [Feature.children]) hI h first).2
  | literal v k =>
    simp only [directFeature, eval_settle_eq_ok] at made
    obtain ⟨-, rfl⟩ := made
    rwa [show (Feature.literal v k).children.flatMap Feature.columns = [] from rfl,
      Titles.give_of_given (by simp)]
  | element s n k => simp [Feature.isElement] at inner
  | expression op args t =>
    simp only [directFeature, eval_bind_eq_ok, eval_settle_eq_ok] at made
    obtain ⟨xs, w₁, args, y, _, ⟨-, rfl⟩, last⟩ := made
    cases last
    exact (features_entitled each hI h args).2
  | window fn ps os fr =>
    have hps : ∀ p ∈ ps, Entitles p := fun p hp => each p (by simp [Feature.children, hp])
    have hos : ∀ o ∈ os, Entitles o.feature := fun o ho =>
      each o.feature (List.mem_append_right _ (List.mem_map_of_mem ho))
    simp only [directFeature, eval_bind_eq_ok, eval_settle_eq_ok] at made
    obtain ⟨y, w₁, first, xs, w₂, partition, ys, w₃, ordering, z, _, ⟨-, rfl⟩, last⟩ := made
    cases last
    obtain ⟨hI₁, h₁⟩ := each fn (by simp [Feature.children]) hI h first
    obtain ⟨hI₂, h₂⟩ := features_entitled hps hI₁ h₁ partition
    obtain ⟨hI₃, h₃⟩ := terms_entitled hos hI₂ h₂ ordering
    rw [← Titles.give_append, ← Titles.give_append] at h₃
    simpa [Feature.children, columnsOf] using h₃

end

/-- No column has the key of a feature that is none. -/
theorem other_key {f : Feature} (hf : f.Obeys .distinct) (h : f.table?.isSome = false) :
    ∀ c : Feature, c.Obeys .distinct → c.table?.isSome = true → c.key ≠ f.key := by
  intro c hc table same
  rw [← Feature.isSome_tableKey?, Feature.tableKey?_eq_of_key hc hf same, Feature.isSome_tableKey?,
    h] at table
  simp at table

/-- **Recalling a feature gives names to the columns inside it**, in the order in which they are met,
as far as they have none. -/
theorem entitles : ∀ f : Feature, f.Obeys .distinct → Entitles f := by
  refine Feature.childInduction fun f ih hf w w' a x hI h made => ?_
  have each : ∀ c ∈ f.children, Entitles c := fun c hc => ih c hc (hf.children c hc)
  have holds : closed.Holds w' := by
    have outcome := closed_lawful.recalls f hf w hI
    rw [made] at outcome
    exact outcome.holds
  refine ⟨holds, ?_⟩
  unfold Direct.recall at made
  simp only [eval_bind, eval_get, andThen_ok] at made
  cases memo : Assoc.find? (f.key == ·) w.memo with
  | some y =>
    rw [memo] at made
    cases made
    -- All columns inside have their names already.
    rwa [Titles.give_of_given]
    intro c hc
    obtain ⟨inside, table⟩ := Feature.mem_columns.1 hc
    obtain ⟨z, hz⟩ := hI.memo f hf ⟨x, memo⟩ c.key (List.mem_map_of_mem inside)
    rw [← h.given c (hf.columns c hc) table, hz]
    rfl
  | none =>
    rw [memo] at made
    obtain ⟨y, w₁, translated, last⟩ := eval_bind_eq_ok.1 made
    cases last
    cases element : f.isElement with
    | false =>
      refine (parts_entitled element each hI h translated).put_other _ (other_key hf ?_)
      cases f with
      | element => simp [Feature.isElement] at element
      | _ => rfl
    | true =>
      cases f with
      | element s n k =>
        simp only [directFeature, eval_directElement, Prod.mk.injEq] at translated
        obtain ⟨symbol, rfl⟩ := translated
        cases s with
        | table t =>
          rw [Feature.columns_self rfl]
          exact h.put_column memo (h.handle_of_symbol symbol)
        | _ =>
          rw [Titles.give_of_given (by simp [Feature.columns, Feature.elements, Feature.table?])]
          exact h.put_other _ (other_key hf rfl)
      | _ => simp [Feature.isElement] at element

/-! ### Sources -/

section

variable {w w' : Bench Source Feature} {a : Titles}

theorem Entitled.of_same (h : Entitled w a) (tables : w'.tables = w.tables)
    (origins : w'.origins = w.origins) (memo : w'.memo = w.memo) : Entitled w' a where
  read := tables ▸ h.read
  visited := origins ▸ h.visited
  given := memo ▸ h.given

/-- A table that is visited gives its name to all that is visited with its key. -/
theorem visited_set {o : KeyedMap Source Source} {visited : String → Option String} (t : Schema)
    (h : ∀ u, o.get? (.table u) = (visited u.key).map fun n => .table ⟨n, []⟩) (u : Schema) :
    (o.set (.table t) (.table ⟨t.name, []⟩)).get? (.table u)
      = (Function.update visited t.key (some t.name) u.key).map fun n => .table ⟨n, []⟩ := by
  by_cases same : u.key = t.key
  · have keys : Keyed.key (Source.table t) = Keyed.key (Source.table u) :=
      (congrArg ("Table" ++ ·) same).symm
    rw [KeyedMap.get?_set_of_eq _ _ keys, same, Function.update_self]
    rfl
  · have keys : Keyed.key (Source.table u) ≠ Keyed.key (Source.table t) := fun h =>
      same (String.toList_inj.1 (@List.append_cancel_left _ "Table".toList _ _
        (by simpa [Keyed.key, Source.key] using congrArg String.toList h)))
    rw [KeyedMap.get?_set_of_ne _ _ keys, h u, Function.update_of_ne same]

/-- **A scan gives the name of the table to the columns that are registered for it.** -/
theorem table_entitled {t : Schema} {x : Source} (hI : closed.Holds w) (h : Entitled w a)
    (made : eval (directSource skeleton (.table t)) w = (.ok x, w')) : Entitled w' (a.visit t) := by
  simp only [directSource, directTable, eval_bind_eq_ok] at made
  obtain ⟨origin, _, settled, _, _, visited, _, _, touched, _, _, got, xs, w₂, fields, y, w₃,
    predicate, _, _, scanned, last⟩ := made
  cases settled
  cases visited
  cases touched
  cases got
  cases scanned
  cases last
  have tables := hI.tables.touch t
  have read := h.read.touch t
  have begun : Entitled { w with
      origins := w.origins.set (.table t) (.table ⟨t.name, []⟩), tables := w.tables.touch t }
      { a with visited := Function.update a.visited t.key (some t.name) } :=
    ⟨read, visited_set t h.visited, h.given⟩
  have begunHolds : closed.Holds { w with
      origins := w.origins.set (.table t) (.table ⟨t.name, []⟩), tables := w.tables.touch t } :=
    ⟨hI.memo, trivial, tables⟩
  obtain ⟨hI₂, h₂⟩ := features_entitled (fun c hc => entitles c (tables.fields t c hc).2) begunHolds
    begun fields
  have h₃ := (option_entitled (fun q hq =>
    entitles q (closed_lawful.inherited.predicate tables t q hq)) hI₂ h₂ predicate).2
  -- The fields are the columns that are registered for the table, and the predicate has no others.
  have columns : columnsOf ((w.tables.touch t).reading t).fields = ((w.tables.touch t).reading t).fields := by
    refine Eq.trans ?_ (List.flatMap_singleton' _)
    exact List.flatMap_congr fun c hc => Feature.columns_self (tables.fields t c hc).1
  have named : ∀ {c : Feature}, c.tableKey? = some t.key → Titles.of
      { a with visited := Function.update a.visited t.key (some t.name) } c = t.name :=
    fun table => Titles.of_visited table (Function.update_self ..)
  have same : Titles.give { a with visited := Function.update a.visited t.key (some t.name) }
      (columnsOf ((w.tables.touch t).reading t).fields) = a.visit t := by
    rw [columns]
    refine Titles.give_one_name (fun c hc => named (read.own t c (mem_ordered.1 hc)))
      (fun c hc => named (by simpa using (List.mem_filter.1 hc).2)) fun k => ?_
    rw [read.fields t]
    simp [and_assoc]
  rw [same, Titles.give_of_given] at h₃
  · exact h₃.of_same rfl rfl rfl
  · intro c hc
    obtain ⟨q, hq, hcq⟩ := mem_columnsOf.1 hc
    obtain ⟨d, hd, table, key⟩ := read.predicate t q (by simpa using hq) c hcq
    show ((a.given c.key).or _).isSome = true
    rw [Option.isSome_or, Option.isSome_map, List.find?_isSome.2, Bool.or_true]
    exact ⟨d, List.mem_filter.2 ⟨hd, by simpa using table⟩, by simpa using key⟩

/-- A scope of its own begins with the columns that it registers. -/
theorem Entitled.inner (h : Entitled w a) {tables : Readings} {fs : List Feature}
    (registers : tables.Registers (columnsOf fs)) :
    Entitled { w.inner with tables := tables } (a.inner fs) where
  read := registers
  visited _ := rfl
  given := h.given

/-- A translation of a statement goes through its titles, if that of its source does. -/
theorem query_entitled {s x : Source} {sel : List Feature} {pre : Option Feature}
    {grp : List Feature} {post : Option Feature} {ord : List OrderTerm} {rows : Option RowRange}
    (hs : (Source.query s sel pre grp post ord rows).Obeys .distinct)
    (inner : ∀ {x : Source} {w w' : Bench Source Feature} {a : Titles}, closed.Holds w →
      Entitled w a → eval (directSource skeleton s) w = (.ok x, w') →
        closed.Holds w' ∧ Entitled w' (s.titles a))
    (hI : closed.Holds w) (h : Entitled w a)
    (made : eval (directSource skeleton (.query s sel pre grp post ord rows)) w = (.ok x, w')) :
    Entitled w' ((Source.query s sel pre grp post ord rows).titles a) := by
  have outputs := closed_lawful.selected.features hs
  have clauses := hs.statement
  simp only [directSource, eval_bind_eq_ok] at made
  obtain ⟨y, w₁, inside, last⟩ := made
  cases last
  obtain ⟨v, made, rfl⟩ := eval_scope_eq_ok.1 inside
  simp only [eval_bind_eq_ok] at made
  obtain ⟨_, _, registered, z, v₁, source, xs, v₂, features, f, v₃, filter, ys, v₄, groupby, g, v₅,
    having, zs, v₆, orderby, last⟩ := made
  cases registered
  cases last
  have registers := Readings.Registers.registerClauses outputs clauses.prefilter clauses.grouping
    clauses.postfilter clauses.ordering
  have begun : Entitled { w.inner with
      tables := registerClauses (Source.query s sel pre grp post ord rows).features pre grp post
        ord .empty } (a.inner (clauseFeatures s sel pre grp post ord)) := by
    refine h.inner (registers.congr fun t k => ?_)
    simp only [mem_columnsOf, clauseFeatures, List.mem_append, Source.features, or_assoc,
      or_left_comm]
  obtain ⟨hI₁, h₁⟩ := inner (closed_lawful.begun hs hI) begun source
  obtain ⟨hI₂, h₂⟩ := features_entitled (fun f hf => entitles f (outputs f hf)) hI₁ h₁ features
  obtain ⟨hI₃, h₃⟩ := option_entitled (fun f hf => entitles f (clauses.prefilter f hf)) hI₂ h₂ filter
  obtain ⟨hI₄, h₄⟩ := features_entitled (fun f hf => entitles f (clauses.grouping f hf)) hI₃ h₃
    groupby
  obtain ⟨hI₅, h₅⟩ := option_entitled (fun f hf => entitles f (clauses.postfilter f hf)) hI₄ h₄
    having
  obtain ⟨-, h₆⟩ := terms_entitled (fun o ho => entitles o.feature (clauses.ordering o ho)) hI₅ h₅
    orderby
  simp only [← Titles.give_append, ← columnsOf_append] at h₆
  exact ⟨h.read, h.visited, h₆.given⟩

/-- **Translations of sources go through the titles of the sources.** -/
theorem source_entitled : ∀ {s x : Source}, s.Obeys .distinct → ∀ {w w' : Bench Source Feature}
    {a : Titles}, closed.Holds w → Entitled w a →
    eval (directSource skeleton s) w = (.ok x, w') → closed.Holds w' ∧ Entitled w' (s.titles a) := by
  intro s x hs w w' a hI h made
  have holds : closed.Holds w' := by
    have outcome := closed_lawful.source_outcome s hs hI
    rw [made] at outcome
    exact outcome.holds
  refine ⟨holds, ?_⟩
  cases s with
  | table t => exact table_entitled hI h made
  | reference s n =>
    simp only [directSource, eval_bind_eq_ok] at made
    obtain ⟨y, w₁, wrapped, _, _, named, last⟩ := made
    cases named
    cases last
    have h₁ := (source_entitled hs.2 hI h wrapped).2
    refine ⟨h₁.read, fun t => Eq.trans ?_ (h₁.visited t), h₁.given⟩
    refine KeyedMap.get?_set_of_ne _ _ fun same => ?_
    have sort := Source.type_eq (s := .table t) (t := .reference s n) same
    simp [Source.type] at sort
  | join l r k c =>
    obtain ⟨_, hl, hr, hc⟩ := id hs
    have hc := optionObeys_iff.1 hc
    rw [eval_directSource_join] at made
    simp only [eval_bind_eq_ok] at made
    obtain ⟨y, w₁, left, z, w₂, right, p, w₃, condition, last⟩ := made
    cases last
    have begun : Entitled { w with tables := w.tables.filterBy c } (a.register c.toList) :=
      ⟨h.read.filterBy hc, h.visited, h.given⟩
    obtain ⟨hI₁, h₁⟩ := source_entitled hl (closed_lawful.filtered hc hI) begun left
    obtain ⟨hI₂, h₂⟩ := source_entitled hr hI₁ h₁ right
    exact (option_entitled (fun f hf => entitles f (hc f hf)) hI₂ h₂ condition).2.of_same rfl rfl rfl
  | set l r k =>
    obtain ⟨_, hl, hr⟩ := id hs
    simp only [directSource, eval_bind_eq_ok] at made
    obtain ⟨y, w₁, left, z, w₂, right, last⟩ := made
    cases last
    obtain ⟨hI₁, h₁⟩ := source_entitled hl hI h left
    exact (source_entitled hr hI₁ h₁ right).2.of_same rfl rfl rfl
  | query s sel pre grp post ord rows =>
    exact query_entitled hs (fun hI h made => source_entitled hs.2.1 hI h made) hI h made

end

end Sql

end QueryAlgebra
