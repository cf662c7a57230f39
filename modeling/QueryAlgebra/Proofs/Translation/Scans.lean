import QueryAlgebra.Proofs.Translation.Columns
import QueryAlgebra.Proofs.Translation.History
import QueryAlgebra.Proofs.Translation.Recursion
import QueryAlgebra.Proofs.Tree.Closure

/-!
# What scans are handed

A scan is handed the columns of its table that its scope has registered when the table is met. The
clauses of a statement are registered before its source is visited, but the condition of a join only
when the join is. So a scan misses what a condition further to the right reads from its table, as it
may where the same table stands in a statement inside of that join.

* `Site`, `Source.sites`: the tables that a source scans, with what is registered by then and in all.
* `Handed`: a scan is handed the symbols of the columns of a table inside features, by name.
* `handing`: columns that are remembered have the symbols that recursion gives.
* `Serves`, `source_serves`: scans are handed what is registered when their tables are met.
* `Source.Apart`, `sites_complete`: no table on the left of a join is read on its right, and so all
  that a scope reads is registered in time.
* `scans_handed`: then every scan is handed exactly what its scope reads.
* `scans_incomplete`: otherwise a scan may miss a column; `scans_confused`: tables that keys do not
  tell apart may exchange their columns.
-/

namespace QueryAlgebra

/-! ### Sites of scans -/

/-- A table that is scanned: the features that its scope has registered when the table is met, and
all that the scope registers. -/
structure Site where
  table  : Schema
  before : List Feature
  scope  : List Feature

namespace Source

/-- The conditions of the joins in the scope of a source. -/
def conditions : Source → List Feature
  | .table _       => []
  | .reference s _ => s.conditions
  | .join l r _ c  => c.toList ++ l.conditions ++ r.conditions
  | .set l r _     => l.conditions ++ r.conditions
  | .query ..      => []

/-- The tables that a source scans in its own scope. -/
def scanned : Source → List Schema
  | .table t       => [t]
  | .reference s _ => s.scanned
  | .join l r _ _  => l.scanned ++ r.scanned
  | .set l r _     => l.scanned ++ r.scanned
  | .query ..      => []

/-- All tables inside a source. -/
def tables : Source → List Schema
  | .table t       => [t]
  | .reference s _ => s.tables
  | .join l r _ _  => l.tables ++ r.tables
  | .set l r _     => l.tables ++ r.tables
  | .query s ..    => s.tables

/-- The tables that a source scans, in the order in which they are met, given what its scope has
registered before and what it registers in all. -/
def sitesIn : Source → List Feature → List Feature → List Site
  | .table t, before, scope       => [⟨t, before, scope⟩]
  | .reference s _, before, scope => s.sitesIn before scope
  | .join l r _ c, before, scope  =>
    l.sitesIn (before ++ c.toList) scope ++ r.sitesIn (before ++ c.toList ++ l.conditions) scope
  | .set l r _, before, scope     =>
    l.sitesIn before scope ++ r.sitesIn (before ++ l.conditions) scope
  | .query s sel pre grp post ord rows, _, _ =>
    let clauses := (query s sel pre grp post ord rows).features
      ++ (query s sel pre grp post ord rows).spoken
    s.sitesIn clauses (clauses ++ s.conditions)

/-- The tables that a statement scans, in the order in which they are met. -/
def sites (q : Source) : List Site := q.sitesIn [] []

/-- Nowhere is a table scanned on the left of a join that stands on its right as well, be it in a
statement inside. -/
def Apart : Source → Prop
  | .table _       => True
  | .reference s _ => s.Apart
  | .join l r _ _  => (∀ t ∈ l.scanned, ∀ u ∈ r.tables, u.key ≠ t.key) ∧ l.Apart ∧ r.Apart
  | .set l r _     => l.Apart ∧ r.Apart
  | .query s ..    => s.Apart

end Source

/-- Whatever the scope reads from the table is registered when the table is met. -/
structure Site.Complete (site : Site) : Prop where
  sound : ∀ c ∈ columnsOf site.before, c ∈ columnsOf site.scope
  whole : ∀ c ∈ columnsOf site.scope, c.tableKey? = some site.table.key → c ∈ columnsOf site.before

namespace Source

/-- The tables among the bases of a source are tables inside it. -/
theorem mem_tables_of_mem_bases {t : Schema} : ∀ {s : Source}, .table t ∈ s.bases → t ∈ s.tables
  | .table u, h => by
    obtain rfl := Source.table.inj (List.mem_singleton.1 h)
    exact List.mem_singleton_self t
  | .reference .., h => nomatch List.mem_singleton.1 h
  | .join l r _ _, h => List.mem_append.2
    ((List.mem_append.1 h).imp mem_tables_of_mem_bases mem_tables_of_mem_bases)
  | .set l r _, h => List.mem_append.2
    ((List.mem_append.1 h).imp mem_tables_of_mem_bases mem_tables_of_mem_bases)
  | .query s .., h => mem_tables_of_mem_bases (s := s) h

/-- Columns inside a feature that reads from bases belong to tables among them. -/
theorem table_of_readsFrom {f : Feature} {bases : List Source} (h : f.ReadsFrom bases) :
    ∀ c ∈ f.columns, ∃ t, .table t ∈ bases ∧ c.tableKey? = some t.key := by
  intro c hc
  obtain ⟨inside, table⟩ := Feature.mem_columns.1 hc
  obtain ⟨u, n, k, rfl⟩ : ∃ u n k, c = .element (.table u) n k := by
    unfold Feature.table? at table
    split at table
    · exact ⟨_, _, _, rfl⟩
    · cases table
  obtain ⟨-, b, hb, key⟩ := h (.table u) n k inside
  obtain ⟨t, rfl⟩ := Source.eq_table_of_type (Source.type_eq key)
  have key : t.key = u.key := by simpa [Source.key] using key
  exact ⟨t, hb, congrArg some key.symm⟩

/-- **Conditions of joins read from tables inside the joins.** -/
theorem conditions_read : ∀ {s : Source}, s.Built → s.Obeys .distinct →
    ∀ c ∈ columnsOf s.conditions, ∃ t ∈ s.tables, c.tableKey? = some t.key
  | .table _, _, _, c, hc => by simp [conditions, columnsOf] at hc
  | .reference s _, hb, hs, c, hc => conditions_read hb.inv_reference.1 hs.2 c hc
  | .join l r k p, hb, hs, c, hc => by
    simp only [conditions, columnsOf_append, List.mem_append] at hc
    rcases hc with (hc | hc) | hc
    · obtain ⟨f, hf, hcf⟩ := mem_columnsOf.1 hc
      obtain ⟨t, ht, key⟩ := table_of_readsFrom (hb.speaks hs f hf) c hcf
      have bases : .table t ∈ (Source.join l r k p).bases := by simpa [operands, bases] using ht
      exact ⟨t, mem_tables_of_mem_bases bases, key⟩
    · obtain ⟨t, ht, key⟩ := conditions_read hb.inv_join.1 hs.2.1 c hc
      exact ⟨t, List.mem_append_left _ ht, key⟩
    · obtain ⟨t, ht, key⟩ := conditions_read hb.inv_join.2.1 hs.2.2.1 c hc
      exact ⟨t, List.mem_append_right _ ht, key⟩
  | .set l r _, hb, hs, c, hc => by
    simp only [conditions, columnsOf_append, List.mem_append] at hc
    rcases hc with hc | hc
    · obtain ⟨t, ht, key⟩ := conditions_read hb.inv_set.1 hs.2.1 c hc
      exact ⟨t, List.mem_append_left _ ht, key⟩
    · obtain ⟨t, ht, key⟩ := conditions_read hb.inv_set.2.1 hs.2.2 c hc
      exact ⟨t, List.mem_append_right _ ht, key⟩
  | .query .., _, _, c, hc => by simp [conditions, columnsOf] at hc

/-- What a statement offers and speaks of is what it registers: what it selects it offers. -/
theorem mem_clauses {s : Source} {sel : List Feature} {pre : Option Feature} {grp : List Feature}
    {post : Option Feature} {ord : List OrderTerm} {rows : Option RowRange} {f : Feature} :
    f ∈ (query s sel pre grp post ord rows).features ++ (query s sel pre grp post ord rows).spoken ↔
      f ∈ (query s sel pre grp post ord rows).features ++ pre.toList ++ post.toList ++ grp
        ++ ord.map OrderTerm.feature := by
  have selected : f ∈ sel → f ∈ (query s sel pre grp post ord rows).features := fun h => by
    cases sel with
    | nil => cases h
    | cons g r => exact h
  simp only [spoken, List.mem_append]
  tauto

/-- A statement scans nothing in the scope around it. -/
theorem scanned_of_type {s : Source} (h : s.type = "Query") : s.scanned = [] := by
  cases s with
  | query => rfl
  | _ => simp [Source.type] at h

/-- **Where tables stand apart, all that a scope reads from a table is registered in time.** Here
`later` is what the scope registers behind the source. -/
theorem sitesIn_complete : ∀ {s : Source}, s.Built → s.Obeys .distinct → s.Apart →
    ∀ (before scope later : List Feature),
    (∀ t ∈ s.scanned, ∀ c ∈ columnsOf later, c.tableKey? ≠ some t.key) →
    (∀ f, f ∈ scope ↔ f ∈ before ∨ f ∈ s.conditions ∨ f ∈ later) →
    ∀ site ∈ s.sitesIn before scope, site.Complete
  | .table t, _, _, _, before, scope, later, free, all, site, h => by
    obtain rfl := List.mem_singleton.1 h
    refine ⟨fun c hc => ?_, fun c hc own => ?_⟩
    · obtain ⟨f, hf, hcf⟩ := mem_columnsOf.1 hc
      exact mem_columnsOf.2 ⟨f, (all f).2 (.inl hf), hcf⟩
    · obtain ⟨f, hf, hcf⟩ := mem_columnsOf.1 hc
      rcases (all f).1 hf with hf | hf | hf
      · exact mem_columnsOf.2 ⟨f, hf, hcf⟩
      · cases hf
      · exact absurd own (free t (List.mem_singleton_self t) c (mem_columnsOf.2 ⟨f, hf, hcf⟩))
  | .reference s _, hb, hs, apart, before, scope, later, free, all, site, h =>
    sitesIn_complete hb.inv_reference.1 hs.2 apart before scope later free all site h
  | .join l r k p, hb, hs, ⟨sides, left, right⟩, before, scope, later, free, all, site, h => by
    obtain ⟨hl, hr, -, -⟩ := hb.inv_join
    rcases List.mem_append.1 h with h | h
    · -- Behind the left side the conditions on the right side are registered.
      refine sitesIn_complete hl hs.2.1 left _ scope (r.conditions ++ later) (fun t ht c hc => ?_)
        (fun f => ?_) site h
      · rcases List.mem_append.1 (columnsOf_append _ _ ▸ hc) with hc | hc
        · obtain ⟨u, hu, key⟩ := conditions_read hr hs.2.2.1 c hc
          exact fun own => sides t ht u hu (Option.some.inj (key.symm.trans own))
        · exact free t (List.mem_append_left _ ht) c hc
      · simp only [all f, conditions, List.mem_append, or_assoc]
    · refine sitesIn_complete hr hs.2.2.1 right _ scope later
        (fun t ht c hc => free t (List.mem_append_right _ ht) c hc) (fun f => ?_) site h
      simp only [all f, conditions, List.mem_append, or_assoc]
  | .set l r k, hb, hs, ⟨left, right⟩, before, scope, later, free, all, site, h => by
    obtain ⟨hl, hr, -⟩ := hb.inv_set
    rcases List.mem_append.1 h with h | h
    · refine sitesIn_complete hl hs.2.1 left before scope (r.conditions ++ later) (fun t ht => ?_)
        (fun f => ?_) site h
      · exact nomatch scanned_of_type hb.inv_set_queries.1 ▸ ht
      · simp only [all f, conditions, List.mem_append, or_assoc]
    · refine sitesIn_complete hr hs.2.2 right _ scope later
        (fun t ht c hc => free t (List.mem_append_right _ ht) c hc) (fun f => ?_) site h
      simp only [all f, conditions, List.mem_append, or_assoc]
  | .query s sel pre grp post ord rows, hb, hs, apart, _, _, _, _, _, site, h => by
    refine sitesIn_complete hb.inv_query.source hs.2.1 apart _ _ [] (fun t _ c hc => ?_)
      (fun f => ?_) site h
    · simp [columnsOf] at hc
    · simp only [List.mem_append, List.not_mem_nil, or_false]

end Source

/-- Keys tell what is seen of tables. -/
def Rules.seen {α : Type} (view : Schema → α) (looks : String → α) : Rules where
  feature _ := True
  source
    | .table t => view t = looks t.key
    | _        => True

theorem seen_offered {α : Type} (view : Schema → α) (looks : String → α) :
    (Rules.distinct.and (.seen view looks)).Offered :=
  Rules.offered_of_element fun _ _ _ => ⟨trivial, trivial⟩

namespace Translation

variable {S F α β : Type}

/-! ### Symbols of columns -/

/-- Recursion gives for an element what it gives where nothing was visited. -/
theorem plainFeature_element (b : Backend S F) (s : Source) (n : String) (k : Kind) :
    plainFeature b.hooks (.element s n k) = b.elementSymbol .empty s n k := by
  have provided : answered (b.hooks.lookupFeature (.element s n k))
      = .ok (b.features.get? (.element s n k)) := rfl
  unfold plainFeature Backend.elementSymbol
  rw [provided]
  cases b.features.get? (.element s n k) with
  | some x => rfl
  | none =>
    show (b.origin .empty s >>= fun o => .ok (b.element o s n)) = _
    cases b.origin .empty s <;> rfl

section

variable {γ : Type} {view : Schema → γ} {looks : String → γ} {b : Backend S F}

/-- Of tables with one key the same is seen. -/
theorem seen_of_key {t u : Schema} (ht : (Source.table t).Obeys (Rules.distinct.and (.seen view looks)))
    (hu : (Source.table u).Obeys (Rules.distinct.and (.seen view looks))) (h : t.key = u.key) :
    t.fields = u.fields ∧ view t = view u := by
  have same : (Source.table t).canonical = (Source.table u).canonical :=
    ((Source.table t).key_reads ht.1 (.table u) hu.1 [] [] (by simp [Source.key, h])).1
  have schemas : t.canonical = u.canonical := Source.table.inj same
  exact ⟨by rw [← t.fields_canonical, schemas, u.fields_canonical],
    by rw [show view t = _ from ht.2, show view u = _ from hu.2, h]⟩

/-- Columns that are remembered have the symbols that recursion gives, and tables that were visited
have their own ones. -/
def handing (b : Backend S F) (view : Schema → γ) (looks : String → γ) : Invariant S F where
  rules := Rules.distinct.and (.seen view looks)
  memo m := ∀ c x, c.Obeys (Rules.distinct.and (.seen view looks)) → c.table?.isSome = true →
    Remembers m c.key x → plainFeature b.hooks c = .ok x
  origins o := ∀ t x, (Source.table t).Obeys (Rules.distinct.and (.seen view looks)) →
    o.get? (.table t) = some x → b.table t (b.sources.get? (.table t)) = .ok x
  source _ _ := True
  fault _ := True

/-- A column is an element of a table that keeps the rules of the column. -/
theorem column_cases {p : Rules} {c : Feature} (hc : c.Obeys p) (table : c.table?.isSome = true) :
    ∃ t n k, c = .element (.table t) n k ∧ (Source.table t).Obeys p := by
  unfold Feature.table? at table
  split at table
  · exact ⟨_, _, _, rfl, hc.2⟩
  · cases table

/-- Recursion gives one symbol for columns with one key. -/
theorem plain_column (sees : b.hooks.Sees view) {t u : Schema} {n m : String} {k l : Kind}
    (hc : (Feature.element (.table t) n k).Obeys (Rules.distinct.and (.seen view looks)))
    (hd : (Feature.element (.table u) m l).Obeys (Rules.distinct.and (.seen view looks)))
    (h : (Feature.element (.table t) n k).key = (Feature.element (.table u) m l).key) :
    plainFeature b.hooks (.element (.table t) n k) = plainFeature b.hooks (.element (.table u) m l) := by
  have same := Feature.canonical_eq_of_key (Feature.Obeys.mono (Rules.and_left _ _) _ hc)
    (Feature.Obeys.mono (Rules.and_left _ _) _ hd) h
  obtain ⟨origin, rfl, -⟩ := Feature.element.inj same
  have schemas : t.canonical = u.canonical := Source.table.inj origin
  have key : t.key = u.key := by rw [← t.key_canonical, schemas, u.key_canonical]
  obtain ⟨fields, seen⟩ := seen_of_key hc.2 hd.2 key
  have provision : b.hooks.lookupFeature (.element (.table t) n k)
      = b.hooks.lookupFeature (.element (.table u) n l) :=
    congrArg Except.ok (b.features.get?_congr h)
  simp only [plainFeature, provision, sees.origin t u fields seen,
    fun x => sees.element x t u n fields seen]

/-- The origin that an element of a table has is the own symbol of the table. -/
theorem origin_of_visited {o : KeyedMap Source S} (ho : (handing b view looks).origins o) {t : Schema}
    (ht : (Source.table t).Obeys (Rules.distinct.and (.seen view looks))) {x : S}
    (h : b.origin o (.table t) = .ok x) : b.table t (b.sources.get? (.table t)) = .ok x := by
  unfold Backend.origin at h
  split at h
  · rename_i visited
    exact ho t x ht (visited.trans (congrArg some (Except.ok.inj h)))
  · exact h

/-- What a column gives is what recursion gives. -/
theorem plain_of_symbol {o : KeyedMap Source S} (ho : (handing b view looks).origins o) {t : Schema}
    {n : String} {k : Kind} (ht : (Source.table t).Obeys (Rules.distinct.and (.seen view looks))) {x : F}
    (h : b.elementSymbol o (.table t) n k = .ok x) :
    plainFeature b.hooks (.element (.table t) n k) = .ok x := by
  rw [plainFeature_element]
  unfold Backend.elementSymbol at h ⊢
  cases provided : b.features.get? (.element (.table t) n k) with
  | some y =>
    rw [provided] at h
    exact h
  | none =>
    rw [provided] at h
    obtain ⟨y, hy, rfl⟩ := map_eq_ok.1 h
    have own : b.origin .empty (.table t) = .ok y := origin_of_visited ho ht hy
    exact congrArg (Except.map _) own

/-- **Translating keeps the symbols of columns.** -/
theorem handing_lawful (sees : b.hooks.Sees view) : (handing b view looks).Lawful b where
  selected := (seen_offered view looks).selected
  connective _ _ _ _ _ _ := ⟨nofun, trivial⟩
  nowhere := fun _ _ _ h => nomatch h
  put := by
    intro f m o x hf hm ho _ _ gives c y hc table hy
    by_cases own : c.key = f.key
    · obtain rfl : x = y := by
        rw [Remembers, own, Assoc.find?_put_self] at hy
        exact Option.some.inj hy
      -- What has the key of a column is a column of a table with the same key.
      have column : f.table?.isSome = true := by
        rw [← Feature.isSome_tableKey?, ← Feature.tableKey?_eq_of_key
          (Feature.Obeys.mono (Rules.and_left _ _) _ hc)
          (Feature.Obeys.mono (Rules.and_left _ _) _ hf) own, Feature.isSome_tableKey?, table]
      obtain ⟨t, n, k, rfl, -⟩ := column_cases hc table
      obtain ⟨u, l, j, rfl, hu⟩ := column_cases hf column
      rw [plain_column sees hc hf own]
      generalize given : Except.ok x = r at gives
      cases gives with
      | element => exact given ▸ plain_of_symbol ho hu given.symm
    · rw [Remembers, Assoc.find?_put_of_ne _ _ own] at hy
      exact hm c y hc table hy
  refused _ _ _ _ := trivial
  table := by
    intro t x ht hx
    refine ⟨fun o ho u y hu hy => ?_, fun _ _ => trivial⟩
    by_cases own : t.key = u.key
    · obtain ⟨fields, seen⟩ := seen_of_key ht hu own
      have key : Keyed.key (Source.table t) = Keyed.key (Source.table u) :=
        congrArg ("Table" ++ ·) own
      rw [KeyedMap.get?_set_of_eq o x key] at hy
      have same : b.table t (b.sources.get? (.table t)) = b.table u (b.sources.get? (.table u)) :=
        sees.origin t u fields seen
      rw [← same, hx, Option.some.inj hy]
    · refine ho u y hu ?_
      rwa [KeyedMap.get?_set_of_ne _ _ fun same => own ?_] at hy
      exact (String.append_right_inj _).1 same.symm
  noTable _ := trivial
  reference := by
    intro s n x _ _
    refine ⟨fun o ho t y ht hy => ho t y ht ?_, trivial⟩
    rwa [KeyedMap.get?_set_of_ne _ _ fun same => ?_] at hy
    have sort := Source.type_eq (s := .table t) (t := .reference s n) same
    simp [Source.type] at sort
  join _ _ _ _ _ := trivial
  set _ _ _ := trivial
  query _ _ _ _ _ _ _ _ := trivial

/-! ### Scans -/

/-- A scan of a table is handed its symbol and those of exactly the columns of the table inside
features, each once, by name. -/
structure Handed (b : Backend S F) (t : Schema) (needed : List Feature) (scan : Scan S F) : Prop where
  origin : b.table t (b.sources.get? (.table t)) = .ok scan.origin
  fields : ∃ columns : List Feature,
    (∀ c ∈ columns, c ∈ columnsOf needed ∧ c.tableKey? = some t.key) ∧
    (∀ c ∈ columnsOf needed, c.tableKey? = some t.key → ∃ d ∈ columns, d.key = c.key) ∧
    columns.Pairwise (fun c d => Text.before (c.name?.getD "") (d.name?.getD "") = true) ∧
    List.Forall₂ (fun c x => plainFeature b.hooks c = .ok x) columns scan.fields

/-- What is handed where all is registered in time is what the scope reads. -/
theorem Handed.of_complete {site : Site} {scan : Scan S F} (complete : site.Complete)
    (h : Handed b site.table site.before scan) : Handed b site.table site.scope scan := by
  obtain ⟨columns, needed, whole, handed⟩ := h.fields
  exact ⟨h.origin, columns, fun c hc => (needed c hc).imp_left (complete.sound c),
    fun c hc own => whole c (complete.whole c hc own) own, handed⟩

/-- The scans that a computation asks for are handed, in turn, what is registered at their sites. A
fault may end it early; otherwise it goes through all sites, and `post` holds of what it gives. -/
def Serves (b : Backend S F) (sites : List Site) (w : Bench S F) (post : α → Bench S F → Prop)
    (p : Except Fault α × Bench S F) : Prop :=
  ∃ done scans, p.2.scans = w.scans ++ scans ∧
    List.Forall₂ (fun site => Handed b site.table site.before) done scans ∧ done <+: sites ∧
    ∀ x, p.1 = .ok x → done = sites ∧ post x p.2

/-- Of two computations in turn, the second goes on with the sites behind those of the first. -/
theorem Serves.andThen {sites sites' : List Site} {w : Bench S F} {post : α → Bench S F → Prop}
    {post' : β → Bench S F → Prop} {p : Except Fault α × Bench S F}
    {k : α → Bench S F → Except Fault β × Bench S F} (h : Serves b sites w post p)
    (hk : ∀ x w', post x w' → Serves b sites' w' post' (k x w')) :
    Serves b (sites ++ sites') w post' (Translation.andThen p k) := by
  obtain ⟨done, scans, logged, handed, upto, ok⟩ := h
  obtain ⟨_ | x, w'⟩ := p
  · exact ⟨done, scans, logged, handed, upto.trans (List.prefix_append _ _), nofun⟩
  · obtain ⟨rfl, hx⟩ := ok x rfl
    obtain ⟨done', scans', logged', handed', upto', ok'⟩ := hk x w' hx
    refine ⟨done ++ done', scans ++ scans', ?_, List.rel_append handed handed',
      (List.prefix_append_right_inj _).2 upto', fun y hy => ?_⟩
    · rw [show (Translation.andThen (.ok x, w') k).2.scans = (k x w').2.scans from rfl, logged',
        show w'.scans = w.scans ++ scans from logged, List.append_assoc]
    · obtain ⟨rfl, hy⟩ := ok' y hy
      exact ⟨rfl, hy⟩

theorem Serves.imp {sites : List Site} {w : Bench S F} {post post' : α → Bench S F → Prop}
    {p : Except Fault α × Bench S F} (h : Serves b sites w post p)
    (hp : ∀ x w', post x w' → post' x w') : Serves b sites w post' p := by
  obtain ⟨done, scans, logged, handed, upto, ok⟩ := h
  exact ⟨done, scans, logged, handed, upto, fun x hx => (ok x hx).imp_right (hp x _)⟩

/-- The second computation may go through no sites. -/
theorem Serves.andThenNone {sites : List Site} {w : Bench S F} {post : α → Bench S F → Prop}
    {post' : β → Bench S F → Prop} {p : Except Fault α × Bench S F}
    {k : α → Bench S F → Except Fault β × Bench S F} (h : Serves b sites w post p)
    (hk : ∀ x w', post x w' → Serves b [] w' post' (k x w')) :
    Serves b sites w post' (Translation.andThen p k) :=
  List.append_nil sites ▸ h.andThen hk

variable (view looks b) in
/-- What is known when features are registered: the symbols of columns, and the columns inside. -/
structure Registered (before : List Feature) (w : Bench S F) : Prop where
  holds  : (handing b view looks).Holds w
  read   : w.tables.Registers (columnsOf before)
  inside : w.tables.All (· ∈ columnsOf before) fun _ => True

variable {w : Bench S F} {before : List Feature}

/-- What is registered stays so behind a computation that leaves what the scope reads. -/
theorem Registered.after {sites : List Site} {p : Except Fault α × Bench S F}
    (h : Registered view looks b before w)
    (served : Serves b sites w (fun _ w' => (handing b view looks).Holds w' ∧ w'.tables = w.tables) p) :
    Serves b sites w (fun _ => Registered view looks b before) p :=
  served.imp fun _ _ h' => ⟨h'.1, h'.2 ▸ h.read, h'.2 ▸ h.inside⟩

/-- What only records goes through no sites. -/
theorem Serves.of_records {d : Direct S F α} (records : Records d) {post : α → Bench S F → Prop}
    (outcome : (handing b view looks).Outcome w post (eval d w))
    (h : Registered view looks b before w) :
    Serves b [] w (fun x w' => Registered view looks b before w' ∧ post x w' ∧
      w'.tables = w.tables) (eval d w) := by
  obtain ⟨memo, notes, ran⟩ := records w
  have tables : (eval d w).2.tables = w.tables := by rw [ran]
  exact ⟨[], [], by rw [ran]; exact (List.append_nil _).symm, .nil, List.nil_prefix, fun x hx =>
    ⟨rfl, ⟨outcome.holds, tables ▸ h.read, tables ▸ h.inside⟩, outcome.ok x hx, tables⟩⟩

section

variable (sees : b.hooks.Sees view)
include sees

theorem features_serve {fs : List Feature}
    (hfs : ∀ f ∈ fs, f.Obeys (Rules.distinct.and (.seen view looks)))
    (h : Registered view looks b before w) :
    Serves b [] w (fun xs w' => Registered view looks b before w' ∧ Remembered w'.memo fs xs ∧
      w'.tables = w.tables) (eval (directFeatures b fs) w) :=
  .of_records (directFeatures_records b fs) ((handing_lawful sees).features hfs h.holds) h

theorem option_serves {c : Option Feature}
    (hc : ∀ f ∈ c, f.Obeys (Rules.distinct.and (.seen view looks)))
    (h : Registered view looks b before w) :
    Serves b [] w (fun z w' => Registered view looks b before w' ∧
      Remembered w'.memo c.toList z.toList ∧ w'.tables = w.tables) (eval (directOption b c) w) :=
  .of_records (directOption_records b c) ((handing_lawful sees).option hc h.holds) h

theorem terms_serve {os : List OrderTerm}
    (hos : ∀ o ∈ os, o.feature.Obeys (Rules.distinct.and (.seen view looks)))
    (h : Registered view looks b before w) :
    Serves b [] w (fun ys w' => Registered view looks b before w' ∧ RememberedTerms w'.memo os ys ∧
      w'.tables = w.tables) (eval (directTerms b os) w) :=
  .of_records (directTerms_records b os) ((handing_lawful sees).terms hos h.holds) h

omit sees in
theorem replaced_serves (s : Source) (x : S) (h : (handing b view looks).Holds w) :
    Serves b [] w (fun _ w' => (handing b view looks).Holds w' ∧ w'.tables = w.tables)
      (eval (directReplacedSource b s x) w) := by
  obtain ⟨notes, ran⟩ := eval_directReplacedSource b s x w
  rw [ran]
  exact ⟨[], [], (List.append_nil _).symm, .nil, List.nil_prefix, fun _ _ =>
    ⟨rfl, h.noted notes, rfl⟩⟩

omit sees in
/-- The columns of one table with one name are one column. -/
theorem key_of_name {t : Schema} {c d : Feature} (hc : c.tableKey? = some t.key)
    (hd : d.tableKey? = some t.key) (h : c.name?.getD "" = d.name?.getD "") : c.key = d.key := by
  have column : ∀ {c : Feature}, c.tableKey? = some t.key →
      ∃ u n k, c = .element (.table u) n k ∧ u.key = t.key := by
    intro c hc
    unfold Feature.tableKey? Feature.table? at hc
    split at hc
    · exact ⟨_, _, _, rfl, Option.some.inj hc⟩
    · cases hc
  obtain ⟨u, n, k, rfl, hu⟩ := column hc
  obtain ⟨v, m, l, rfl, hv⟩ := column hd
  obtain rfl : n = m := h
  simp only [Feature.key, Source.key, hu, hv]

omit sees in
/-- The columns that a scope has registered for a table, by name, with the symbols remembered. -/
theorem handed_of_registered {t : Schema} (h : Registered view looks b before w) {origin : S}
    (own : b.table t (b.sources.get? (.table t)) = .ok origin) {xs : List F}
    (hxs : Remembered w.memo (w.tables.reading t).fields xs) (predicate : Option F) :
    Handed b t before ⟨origin, xs, predicate⟩ := by
  have belong : ∀ c ∈ (w.tables.reading t).columns.toList, c.tableKey? = some t.key := h.read.own t
  have names : ((w.tables.reading t).columns.toList.map fun c => c.name?.getD "").Nodup := by
    refine List.pairwise_map.2 ((List.pairwise_map.1 (h.read.proper t).nodup_toList).imp_of_mem ?_)
    exact fun hc hd keys same => keys (key_of_name (belong _ hc) (belong _ hd) same)
  refine ⟨own, (w.tables.reading t).fields,
    fun c hc => ⟨h.inside.fields t c hc, belong c (mem_ordered.1 hc)⟩,
    fun c hc own => (h.read.fields t).2 ⟨c, hc, own, rfl⟩, ordered_ascending names, ?_⟩
  have known : ∀ c ∈ (w.tables.reading t).fields, c.table?.isSome = true ∧
      c.Obeys (Rules.distinct.and (.seen view looks)) := h.holds.tables.fields t
  exact ((List.forall₂_and_left _ _).2 ⟨known, hxs⟩).imp
    fun c x hx => h.holds.memo c x hx.1.2 hx.1.1 hx.2

/-- The scan of a table is handed what is registered when the table is met. -/
theorem table_serves {t : Schema} (ht : (Source.table t).Obeys (Rules.distinct.and (.seen view looks)))
    (scope : List Feature) (h : Registered view looks b before w) :
    Serves b [⟨t, before, scope⟩] w (fun _ => Registered view looks b before)
      (eval (directTable b t) w) := by
  simp only [directTable, eval_bind]
  cases own : b.table t (b.sources.get? (.table t)) with
  | error e =>
    exact ⟨[], [], (List.append_nil _).symm, .nil, List.nil_prefix, fun x refused => by cases refused⟩
  | ok origin =>
    have begun : Registered view looks b before
        { w with origins := w.origins.set (.table t) origin, tables := w.tables.touch t } :=
      ⟨⟨h.holds.memo, ((handing_lawful sees).table ht own).1 _ h.holds.origins,
        h.holds.tables.touch t⟩, h.read.touch t, h.inside.touch t⟩
    have fields := features_serve sees (fun c hc => (begun.holds.tables.fields t c hc).2) begun
    refine fields.andThen fun xs w₁ registered => ?_
    obtain ⟨h₁, hxs, same⟩ := registered
    have predicate := option_serves sees
      ((handing_lawful sees).inherited.predicate begun.holds.tables t) h₁
    refine predicate.andThen fun y w₂ registered => ?_
    obtain ⟨h₂, -, -⟩ := registered
    have handed := handed_of_registered h₁ own (same ▸ hxs) y
    exact ⟨[_], [_], rfl, .cons handed .nil, List.prefix_rfl, fun _ _ =>
      ⟨rfl, ⟨h₂.holds.memo, h₂.holds.origins, h₂.holds.tables⟩, h₂.read, h₂.inside⟩⟩

omit sees in
/-- The columns inside features are columns inside of more features. -/
theorem reads_columns {fs gs : List Feature} (h : ∀ f ∈ fs, f ∈ gs) :
    Reads (· ∈ columnsOf gs) fs :=
  fun f hf _ hc table => mem_columnsOf.2 ⟨f, h f hf, Feature.mem_columns.2 ⟨hc, table⟩⟩

omit sees in
/-- A scope of its own leaves the scope around as it is. -/
theorem scope_serves {d : Direct S F α} {sites : List Site}
    (inner : Serves b sites w.inner (fun _ => (handing b view looks).Holds) (eval d w.inner))
    (h : (handing b view looks).Holds w) :
    Serves b sites w (fun _ w' => (handing b view looks).Holds w' ∧ w'.tables = w.tables)
      (eval d.scope w) := by
  obtain ⟨done, scans, logged, handed, upto, ok⟩ := inner
  refine ⟨done, scans, logged, handed, upto, fun x hx => ?_⟩
  obtain ⟨all, holds⟩ := ok x hx
  exact ⟨all, ⟨holds.memo, h.origins, h.tables⟩, rfl⟩

/-- The scans of a statement are handed what is registered in its scope, if those of its source are. -/
theorem query_serves {s : Source} {sel : List Feature} {pre : Option Feature} {grp : List Feature}
    {post : Option Feature} {ord : List OrderTerm} {rows : Option RowRange}
    (hs : (Source.query s sel pre grp post ord rows).Obeys (Rules.distinct.and (.seen view looks)))
    (inner : ∀ {w : Bench S F} {before : List Feature} (scope : List Feature),
      Registered view looks b before w →
        Serves b (s.sitesIn before scope) w
          (fun _ => Registered view looks b (before ++ s.conditions)) (eval (directSource b s) w))
    (h : (handing b view looks).Holds w) :
    Serves b (Source.query s sel pre grp post ord rows).sites w
      (fun _ w' => (handing b view looks).Holds w' ∧ w'.tables = w.tables)
      (eval (directSource b (.query s sel pre grp post ord rows)) w) := by
  have lawful : (handing b view looks).Lawful b := handing_lawful sees
  have outputs := lawful.selected.features hs
  have clauses := hs.statement
  have distinct : ∀ {f : Feature}, f.Obeys (Rules.distinct.and (.seen view looks)) →
      f.Obeys .distinct := fun h => Feature.Obeys.mono (Rules.and_left _ _) _ h
  have registers := Readings.Registers.registerClauses (fun f hf => distinct (outputs f hf))
    (fun f hf => distinct (clauses.prefilter f hf)) (fun f hf => distinct (clauses.grouping f hf))
    (fun f hf => distinct (clauses.postfilter f hf)) fun o ho => distinct (clauses.ordering o ho)
  simp only [directSource, eval_bind]
  refine (scope_serves ?_ h).andThenNone fun x w₁ h₁ =>
    (replaced_serves _ x h₁.1).imp fun _ _ h₂ => ⟨h₂.1, h₂.2.trans h₁.2⟩
  simp only [eval_bind, Direct.modifyTables, eval_modify, andThen_ok]
  have begun : Registered view looks b ((Source.query s sel pre grp post ord rows).features
      ++ (Source.query s sel pre grp post ord rows).spoken)
      { w.inner with
        tables := registerClauses (Source.query s sel pre grp post ord rows).features pre grp post ord
          .empty } := by
    have same := @Source.mem_clauses s sel pre grp post ord rows
    refine ⟨lawful.begun hs h, registers.congr fun t k => ?_, Readings.All.empty.registerClauses
      (reads_columns fun f hf => same.2 ?_) (reads_columns fun f hf => same.2 ?_)
      (reads_columns fun f hf => same.2 ?_) (reads_columns fun f hf => same.2 ?_)
      (reads_columns fun f hf => same.2 ?_) fun _ _ _ _ => trivial⟩
    · simp only [mem_columnsOf, same]
    all_goals simp only [List.mem_append, hf, true_or, or_true]
  exact (inner _ begun).andThenNone fun x w₁ h₁ =>
    (features_serve sees outputs h₁).andThen fun xs w₂ h₂ =>
    (option_serves sees clauses.prefilter h₂.1).andThen fun y w₃ h₃ =>
    (features_serve sees clauses.grouping h₃.1).andThen fun ys w₄ h₄ =>
    (option_serves sees clauses.postfilter h₄.1).andThen fun z w₅ h₅ =>
    (terms_serve sees clauses.ordering h₅.1).andThen fun zs w₆ h₆ =>
    ⟨[], [], (List.append_nil _).symm, .nil, List.nil_prefix, fun _ _ => ⟨rfl, h₆.1.holds⟩⟩

/-- **The scans of a source are handed what is registered when their tables are met.** -/
theorem source_serves : ∀ {s : Source}, s.Obeys (Rules.distinct.and (.seen view looks)) →
    ∀ {w : Bench S F} {before : List Feature} (scope : List Feature),
    Registered view looks b before w →
      Serves b (s.sitesIn before scope) w
        (fun _ => Registered view looks b (before ++ s.conditions)) (eval (directSource b s) w)
  | .table t, hs, w, before, scope, h => by
    simp only [directSource, Source.conditions, List.append_nil]
    exact table_serves sees hs scope h
  | .reference s n, hs, w, before, scope, h => by
    simp only [directSource, eval_bind]
    refine (source_serves hs.2 scope h).andThenNone fun x w₁ h₁ => ?_
    have lawful : (handing b view looks).Lawful b := handing_lawful sees
    obtain ⟨visited, -⟩ := lawful.reference hs trivial
    exact ⟨[], [], (List.append_nil _).symm, .nil, List.nil_prefix, fun _ _ =>
      ⟨rfl, ⟨h₁.holds.memo, visited _ h₁.holds.origins, h₁.holds.tables⟩, h₁.read, h₁.inside⟩⟩
  | .join l r k c, hs, w, before, scope, h => by
    obtain ⟨-, hl, hr, hc⟩ := id hs
    have hc := optionObeys_iff.1 hc
    have lawful : (handing b view looks).Lawful b := handing_lawful sees
    rw [eval_directSource_join]
    simp only [eval_bind]
    have begun : Registered view looks b (before ++ c.toList)
        { w with tables := w.tables.filterBy c } := by
      have inside := h.inside.mono fun d hd =>
        columnsOf_append before c.toList ▸ List.mem_append_left _ hd
      refine ⟨lawful.filtered hc h.holds, ?_, inside.filterBy
        (reads_columns fun f hf => List.mem_append_right _ hf) fun _ _ _ _ => trivial⟩
      rw [columnsOf_append]
      exact h.read.filterBy fun p hp => Feature.Obeys.mono (Rules.and_left _ _) p (hc p hp)
    have served := (source_serves hl scope begun).andThen fun x w₁ h₁ =>
      (source_serves hr scope h₁).andThenNone fun y w₂ h₂ =>
      (option_serves sees hc h₂).andThen fun z w₃ h₃ =>
        h₃.1.after (replaced_serves (.join l r k c) (b.join x y z k) h₃.1.holds)
    have conditions : before ++ (Source.join l r k c).conditions
        = before ++ c.toList ++ l.conditions ++ r.conditions := by
      simp only [Source.conditions, List.append_assoc]
    rw [conditions]
    exact served
  | .set l r k, hs, w, before, scope, h => by
    obtain ⟨-, hl, hr⟩ := id hs
    simp only [directSource, eval_bind]
    have served := (source_serves hl scope h).andThen fun x w₁ h₁ =>
      (source_serves hr scope h₁).andThenNone fun y w₂ h₂ =>
        h₂.after (replaced_serves (.set l r k) (b.set x y k) h₂.holds)
    rw [show before ++ (Source.set l r k).conditions = before ++ l.conditions ++ r.conditions from
      (List.append_assoc _ _ _).symm]
    exact served
  | .query s sel pre grp post ord rows, hs, w, before, scope, h => by
    simp only [Source.conditions, List.append_nil]
    exact h.after (query_serves sees hs (fun scope h => source_serves hs.2.1 scope h) h.holds)

variable (b) in
omit sees in
/-- The scans of a statement are handed, in turn, exactly what their scopes read, up to the fault in
which the translation may end. -/
def ScansHanded (q : Source) (run : Except Fault (Option (Symbol S F)) × Translator S F) : Prop :=
  ∃ done, List.Forall₂ (fun site => Handed b site.table site.scope) done run.2.state.scans ∧
    done <+: q.sites ∧ ∀ x, run.1 = .ok x → done = q.sites

omit sees in
/-- What a whole translation of a source gives, and the scans that it asks for. -/
theorem Translator.served_source {t : Translator S F} (clean : t.state.Clean) (s : Source) :
    (t.serve (.finish (.source s))).1
      = (eval (directSource t.backend s) t.cleared.state.bench).1.map (fun x => some (.source x)) ∧
    (t.serve (.finish (.source s))).2.state.scans
      = (eval (directSource t.backend s) t.cleared.state.bench).2.scans := by
  obtain ⟨notes, finished⟩ := eval_directFinish_source t.backend s t.cleared.state.bench
  rw [t.serve_finish clean, finished]
  refine ⟨?_, rfl⟩
  cases (eval (directSource t.backend s) t.cleared.state.bench).1 <;> rfl

/-- **Scans are handed exactly the columns that their scopes read**, by a translator that has worked
before, where keys tell what is seen of tables and no table stands on both sides of a join. -/
theorem scans_handed {history : List Tree}
    (known : ∀ tree ∈ history, tree.Built ∧ tree.Obeys (Rules.structFree.and (.seen view looks)))
    {s : Source} {sel : List Feature} {pre : Option Feature} {grp : List Feature}
    {post : Option Feature} {ord : List OrderTerm} {rows : Option RowRange}
    (built : (Source.query s sel pre grp post ord rows).Built)
    (obeys : (Source.query s sel pre grp post ord rows).Obeys
      (Rules.structFree.and (.seen view looks)))
    (apart : s.Apart) :
    ScansHanded b (.query s sel pre grp post ord rows) (((Translator.ofBackend b).after history).serve
      (.finish (.source (.query s sel pre grp post ord rows)))) := by
  have lawful : (handing b view looks).Lawful b := handing_lawful sees
  have tidy : ∀ tree ∈ history, tree.Obeys (handing b view looks).rules := fun tree htree =>
    (known tree htree).1.obeys (Rules.structFree_and_ensures _) (known tree htree).2
  have fresh : (handing b view looks).Holds (Translator.ofBackend b).state.bench :=
    ⟨nofun, nofun, Readings.All.empty⟩
  obtain ⟨backend, clean, holds⟩ := lawful.after_holds tidy rfl State.clean_fresh fresh
  have hq := Source.Built.obeys (Rules.structFree_and_ensures _) _ built obeys
  have complete : ∀ site ∈ (Source.query s sel pre grp post ord rows).sites, site.Complete :=
    Source.sitesIn_complete built (Source.Obeys.mono (Rules.and_left _ _) _ hq) apart [] [] []
      (fun _ _ c hc => by simp [columnsOf] at hc) (fun f => by simp [Source.conditions])
  have begun : (handing b view looks).Holds
      ((Translator.ofBackend b).after history).cleared.state.bench :=
    ⟨holds.memo, holds.origins, holds.tables⟩
  obtain ⟨done, scans, logged, handed, upto, ok⟩ :=
    query_serves sees hq (fun scope h => source_serves sees hq.2.1 scope h) begun
  obtain ⟨given, recorded⟩ := Translator.served_source clean (.query s sel pre grp post ord rows)
  rw [backend] at given recorded
  refine ⟨done, ?_, upto, fun x hx => ?_⟩
  · rw [recorded, show _ = scans from logged]
    have known := (List.forall₂_and_left _ _).2 ⟨fun site h => complete site (upto.subset h), handed⟩
    exact known.imp fun site scan h => h.2.of_complete h.1
  · obtain ⟨y, hy, -⟩ := map_eq_ok.1 (given.symm.trans hx)
    exact (ok y hy).1

end

end

/-- A backend whose symbols are spelled out. -/
def spelling : Backend String String where
  sources  := .empty
  features := .empty
  table t _ := .ok t.name
  scan origin _ _ := origin
  reference s n := (s ++ " as " ++ n, n)
  join l r _ _ := l ++ " join " ++ r
  set l r _ := l ++ " set " ++ r
  query s _ _ _ _ _ _ := "from " ++ s
  element origin _ n := origin ++ "." ++ n
  aliased x n := x ++ " as " ++ n
  literal _ _ := .ok "literal"
  expression op xs _ := .ok (op.name ++ " " ++ String.intercalate " " xs)
  window x _ _ _ := .ok (x ++ " over")

/-- The fields that the scans of a statement are handed. -/
def fieldsHanded (q : Source) : List (String × List String) :=
  ((Translator.ofBackend spelling).serve (.finish (.source q))).2.state.scans.map
    fun scan => (scan.origin, scan.fields)

/-! ### Students and schools -/

namespace Students

/-- The table of students. -/
def student : Source := .table ⟨"student", [("surname", ⟨.primitive .string, "surname"⟩),
  ("school", ⟨.primitive .integer, "school"⟩)]⟩

/-- The table of schools, under a name. -/
def school (name : String) : Source := .table ⟨name, [("id", ⟨.primitive .integer, "id"⟩),
  ("name", ⟨.primitive .string, "name"⟩)]⟩

def surname : Feature := .element student "surname" (.primitive .string)

def attended : Feature := .element student "school" (.primitive .integer)

def number : Feature := .element (school "school") "id" (.primitive .integer)

def title (name : String) : Feature := .element (school name) "name" (.primitive .string)

/-- A statement over students, joined with the schools that they attend. -/
def pupils : Source :=
  .join (.query student [surname, attended] none [] none [] none) (school "school") .inner
    (some (.expression .eq [attended, number] none))

/-- Students are called like schools. -/
def namesake : Feature := .expression .eq [surname, title "school"] none

theorem student_built : student.Built := .of_distinct rfl

theorem surname_built : surname.Built :=
  .element student_built (show student.get "surname" = .ok _ from rfl)

theorem title_built (name : String) : (title name).Built :=
  .element (s := school name) (.of_distinct rfl) (show (school name).get "name" = .ok _ from rfl)

theorem equal_built {f g : Feature} (hf : f.Built) (hg : g.Built)
    (h : Feature.expr .eq [.feature f, .feature g] none = .ok (.expression .eq [f, g] none)) :
    (Feature.expression .eq [f, g] none).Built :=
  .expression (fun o ho => by
    rcases List.mem_pair.1 ho with rfl | rfl
    · exact .feature hf
    · exact .feature hg) h

theorem namesake_built : namesake.Built := equal_built surname_built (title_built _) rfl

theorem pupils_built : pupils.Built := by
  have hattended : attended.Built :=
    .element student_built (show student.get "school" = .ok _ from rfl)
  have hnumber : number.Built :=
    .element (s := school "school") (.of_distinct rfl) (show (school "school").get "id" = .ok _ from rfl)
  have selected : (Source.query student [surname, attended] none [] none [] none).Built :=
    student_built.selecting (by simpa using ⟨surname_built, hattended⟩) (by decide +kernel)
  exact selected.joining (.of_distinct rfl) (equal_built hattended hnumber rfl) rfl rfl
    (by decide +kernel) (by decide +kernel)

end Students

open Students in
/-- The table of students on the right of a join, and in a statement on its left. -/
theorem scans_handed_of_statement :
    let both : Source := .join pupils student .inner (some namesake)
    let q : Source := .query both [surname] none [] none [] none
    q.Built ∧ fieldsHanded q = [("student", ["student.school", "student.surname"]),
      ("school", ["school.id", "school.name"]), ("student", ["student.school", "student.surname"])] ∧
    ScansHanded spelling q ((Translator.ofBackend spelling).serve (.finish (.source q))) := by
  intro both q
  have hboth : both.Built := pupils_built.joining student_built namesake_built rfl rfl
    (by decide +kernel) (by decide +kernel)
  have built : q.Built := hboth.selecting (by simpa using surname_built) (by decide +kernel)
  have sees : spelling.hooks.Sees Schema.name :=
    Backend.sees_names (fun t u x h => congrArg Except.ok h) fun x t u n h => rfl
  let looks (k : String) : String :=
    if k = Schema.key ⟨"student", [("surname", ⟨.primitive .string, "surname"⟩),
      ("school", ⟨.primitive .integer, "school"⟩)]⟩ then "student" else "school"
  let rules := Rules.structFree.and (.seen Schema.name looks)
  have ostudent : student.Obeys rules := ⟨structFree_table rfl, (if_pos rfl).symm⟩
  have oschool : (school "school").Obeys rules :=
    ⟨structFree_table rfl, (if_neg (by decide +kernel)).symm⟩
  have element : ∀ {s : Source} (n : String) (k : Kind), s.Obeys rules →
      (Feature.element s n k).Obeys rules := fun _ _ hs => ⟨⟨trivial, trivial⟩, hs⟩
  have equal : ∀ {f g : Feature}, f.Obeys rules → g.Obeys rules →
      (Feature.expression .eq [f, g] none).Obeys rules := fun hf hg =>
    ⟨⟨nofun, trivial⟩, hf, hg, trivial⟩
  have opupils : pupils.Obeys rules := ⟨⟨trivial, trivial⟩, ⟨⟨trivial, trivial⟩, ostudent,
    ⟨element _ _ ostudent, element _ _ ostudent, trivial⟩, trivial, trivial, trivial, trivial⟩,
    oschool, equal (element _ _ ostudent) (element _ _ oschool)⟩
  have oboth : both.Obeys rules := ⟨⟨trivial, trivial⟩, opupils, ostudent,
    equal (element _ _ ostudent) (element _ _ oschool)⟩
  have obeys : q.Obeys rules := ⟨⟨trivial, trivial⟩, oboth, ⟨element _ _ ostudent, trivial⟩,
    trivial, trivial, trivial, trivial⟩
  have apart : both.Apart := by
    refine ⟨fun t ht u hu => ?_, ⟨nofun, trivial, trivial⟩, trivial⟩
    rw [List.mem_singleton.1 ht, List.mem_singleton.1 hu]
    decide +kernel
  have fresh : ∀ tree ∈ ([] : List Tree), tree.Built ∧ tree.Obeys rules := nofun
  exact ⟨built, by decide +kernel, scans_handed sees fresh built obeys apart⟩

/-- Where a scan is handed one field, its table has one column inside the features. -/
theorem Handed.single {b : Backend S F} {t : Schema} {needed : List Feature} {scan : Scan S F} {x : F}
    (h : Handed b t needed scan) (one : scan.fields = [x]) :
    ∃ c ∈ columnsOf needed, plainFeature b.hooks c = .ok x ∧
      ∀ d ∈ columnsOf needed, d.tableKey? = some t.key → d.key = c.key := by
  obtain ⟨columns, inside, whole, -, symbols⟩ := h.fields
  rw [one] at symbols
  obtain ⟨c, r, hc, hr, rfl⟩ := List.forall₂_cons_right_iff.1 symbols
  obtain rfl := List.forall₂_nil_right_iff.1 hr
  refine ⟨c, (inside c (List.mem_singleton_self c)).1, hc, fun d hd own => ?_⟩
  obtain ⟨e, he, key⟩ := whole d hd own
  rw [← key, List.mem_singleton.1 he]

/-- A scan that is recorded with one field. -/
theorem ScansHanded.single {q : Source}
    (h : ScansHanded spelling q ((Translator.ofBackend spelling).serve (.finish (.source q)))) {i : Nat}
    {origin x : String} (recorded : (fieldsHanded q)[i]? = some (origin, [x])) {site : Site}
    (met : q.sites[i]? = some site) :
    ∃ c ∈ columnsOf site.scope, plainFeature spelling.hooks c = .ok x ∧
      ∀ d ∈ columnsOf site.scope, d.tableKey? = some site.table.key → d.key = c.key := by
  obtain ⟨done, handed, ⟨later, split⟩, -⟩ := h
  rw [fieldsHanded, List.getElem?_map, Option.map_eq_some_iff] at recorded
  obtain ⟨scan, found, fields⟩ := recorded
  obtain ⟨within, rfl⟩ := List.getElem?_eq_some_iff.1 found
  have reached : i < done.length := handed.length_eq ▸ within
  rw [← split, List.getElem?_append_left reached, List.getElem?_eq_getElem reached] at met
  obtain rfl := Option.some.inj met
  exact (handed.get reached within).single (Prod.mk.inj fields).2

open Students in
/-- **A scan misses a column**: with the sides exchanged, the condition of the join on the right is
registered behind the scan of the students on the left. -/
theorem scans_incomplete :
    let both : Source := .join student pupils .inner (some namesake)
    let q : Source := .query both [surname] none [] none [] none
    q.Built ∧ fieldsHanded q = [("student", ["student.surname"]),
      ("student", ["student.school", "student.surname"]), ("school", ["school.id", "school.name"])] ∧
    ¬ScansHanded spelling q ((Translator.ofBackend spelling).serve (.finish (.source q))) := by
  intro both q
  have hboth : both.Built := student_built.joining pupils_built namesake_built rfl rfl
    (by decide +kernel) (by decide +kernel)
  have recorded : fieldsHanded q = [("student", ["student.surname"]),
      ("student", ["student.school", "student.surname"]), ("school", ["school.id", "school.name"])] := by
    decide +kernel
  refine ⟨hboth.selecting (by simpa using surname_built) (by decide +kernel), recorded, fun h => ?_⟩
  -- The scope of the first scan reads two columns of its table.
  obtain ⟨c, -, -, only⟩ := h.single (i := 0) (congrArg (·[0]?) recorded) rfl
  have read : ∀ d ∈ [surname, surname, surname, title "school", attended, number],
      d.tableKey? = surname.tableKey? → d.key = c.key := only
  have first := read surname (by simp) rfl
  have second := read attended (by simp) rfl
  exact absurd (first.trans second.symm) (by decide +kernel)

open Students in
/-- **A scan is handed the column of another table**, which has the same key. -/
theorem scans_confused :
    let names (s : String) : Source := .query (school s) [title s] none [] none [] none
    let both : Source := .set (names "school") (names "twin") .union
    let q : Source := .query both [] none [] none [] none
    q.Built ∧ fieldsHanded q = [("school", ["school.name"]), ("twin", ["school.name"])] ∧
    ¬ScansHanded spelling q ((Translator.ofBackend spelling).serve (.finish (.source q))) := by
  intro names both q
  have recorded : fieldsHanded q = [("school", ["school.name"]), ("twin", ["school.name"])] := by
    decide +kernel
  have hnames : ∀ s, (title s).Within (elementsIn (school s).features) → (names s).Built :=
    fun s within => Source.Built.selecting (.of_distinct rfl)
      (by simpa using title_built s) (by simpa using within)
  have hboth : both.Built := by
    refine .combined (k := .union) (hnames "school" (by decide +kernel))
      (hnames "twin" (by decide +kernel)) ?_
    have same : (names "school").schema.same (names "twin").schema = true := by decide +kernel
    simp only [names] at same
    simp [Source.combined, Source.statement, both, names, same]
  refine ⟨hboth.selecting nofun nofun, recorded, fun h => ?_⟩
  obtain ⟨c, inside, symbol, -⟩ := h.single (i := 1) (congrArg (·[1]?) recorded) rfl
  -- All that the scope of the second scan reads is the own column of its table.
  have inside : c ∈ [title "twin", title "twin"] := inside
  obtain rfl : c = title "twin" := by simpa using inside
  exact absurd (Except.ok.inj symbol) (by decide +kernel)

end Translation

end QueryAlgebra
