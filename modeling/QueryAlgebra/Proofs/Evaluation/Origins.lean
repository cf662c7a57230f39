import QueryAlgebra.Proofs.Evaluation.Kinds
import QueryAlgebra.Proofs.Evaluation.Lineage
import QueryAlgebra.Proofs.Evaluation.Locality
import QueryAlgebra.Proofs.Evaluation.Pages

/-!
# Elements read their own origins

Behind a tree of joins an element has the values of the rows of its own origin that the joined rows are
made from. This holds of an element as a whole, and of one that is recalled, be it by itself or inside
conditions and selections. But an element is recalled by its key, and the key of a table leaves out its
name: so no element may read another table that has the key of a joined one.

* `Source.joinedTables`, `Rules.sited`: elements of other tables with the keys of joined ones name these.
* `Owns`, `owns_of_rooted`: then what is remembered for an element of a leaf reads this leaf.
* `Resolved`: the rows that joined rows are made from, and what is read of them.
* `Standing.finished`, `Standing.recalled`: elements behind a join tree.
* `columns_of_statement`: elements that a statement over it selects.
* `join_tree_columns`: all of these read their own origins.
* `columns_confused`: an element that reads the rows of another origin.
-/

namespace QueryAlgebra

open Evaluation Translation Dataset

/-! ### Elements of joined tables -/

namespace Source

/-- The tables that are joined directly, from left to right. -/
def joinedTables : Source → List Schema
  | .table t      => [t]
  | .join l r _ _ => l.joinedTables ++ r.joinedTables
  | _             => []

theorem mem_joinedTables {t : Schema} : ∀ {s : Source}, .table t ∈ s.leaves ↔ t ∈ s.joinedTables
  | .table u => by simp [leaves, joinedTables]
  | .join l r _ _ => by
    simp only [leaves, joinedTables, List.mem_append]
    exact or_congr mem_joinedTables mem_joinedTables
  | .reference _ _ => by simp [leaves, joinedTables]
  | .set _ _ _ => by simp [leaves, joinedTables]
  | .query .. => by simp [leaves, joinedTables]

/-- What is joined are tables and references to tables. -/
theorem leaf_cases : ∀ {s : Source}, s.IsJoinTree → ∀ {o : Source}, o ∈ s.leaves →
    ∃ t : Schema, o = .table t ∨ ∃ n, o = .reference (.table t) n
  | .table t, _, _, ho => ⟨t, .inl (List.mem_singleton.1 ho)⟩
  | .reference (.table t) n, _, _, ho => ⟨t, .inr ⟨n, List.mem_singleton.1 ho⟩⟩
  | .join _ _ _ _, tree, _, ho =>
    (List.mem_append.1 ho).elim (leaf_cases tree.1) (leaf_cases tree.2)

end Source

/-- An element of another table with the key of one of the tables reads it under the name of that one. -/
def Feature.Sited (tables : List Schema) : Feature → Prop
  | .element (.table t) _ _ => t ∈ tables ∨ ∀ u ∈ tables, u.key = t.key → u.name = t.name
  | _                       => True

/-- The elements inside a tree are sited, and so are those that a statement gives by default. -/
def Rules.sited (tables : List Schema) : Rules where
  feature := Feature.Sited tables
  source
    | .query s sel pre grp post ord rows =>
      ∀ f ∈ (Source.query s sel pre grp post ord rows).features, f.Sited tables
    | _ => True

theorem Rules.sited_selected (tables : List Schema) : (Rules.sited tables).Selected where
  features h f hf := Source.Obeys.features_of_sort (C := Feature.Sited tables)
    (fun _ _ _ _ own => own) (fun _ _ _ _ _ own => own) _ h f hf (h.1 f hf)

namespace Evaluation

theorem rooted_sited (tables : List Schema) :
    (rooted (backend .empty .empty) (.sited tables)).Lawful (backend .empty .empty) :=
  rooted_lawful _ (Rules.sited_selected tables) fun _ _ _ _ => trivial

/-! ### What is remembered for them -/

/-- What is remembered for an element of what is joined reads its own origin. -/
def Owns (s : Source) (m : List (String × FeaturePlan)) : Prop :=
  ∀ o ∈ s.leaves, ∀ n k x, Remembers m (Feature.element o n k).key x → x = .element o n

section

variable {s : Source} (tree : s.IsJoinTree) (differ : (s.joinedTables.map Schema.key).Nodup)
include tree differ

/-- A sited element whose source has the key of a leaf has the label of the leaf. -/
theorem label_of_key {o u : Source} (ho : o ∈ s.leaves) {n : String} {k : Kind}
    (sited : (Feature.element u n k).Sited s.joinedTables) (key : u.key = o.key) :
    u.label = o.label := by
  have sort := Source.type_eq key
  obtain ⟨t, rfl | ⟨m, rfl⟩⟩ := Source.leaf_cases tree ho
  · obtain ⟨v, rfl⟩ := Source.eq_table_of_type sort
    have joined := Source.mem_joinedTables.1 ho
    have same : v.key = t.key := by simpa [Source.key] using key
    rcases sited with also | foreign
    · rw [List.inj_on_of_nodup_map differ also joined same]
    · exact (foreign t joined same.symm).symm
  · cases u with
    | reference v l => exact Source.name_eq_of_key key
    | _ => simp [Source.type] at sort

/-- **What is remembered for an element of a leaf reads this leaf**, if it was given by sited elements. -/
theorem owns_of_rooted {m : List (String × FeaturePlan)}
    (hm : Rooted (backend .empty .empty) (.sited s.joinedTables) m) : Owns s m := by
  intro o ho n k x hx
  obtain ⟨g, origins, hg, key, gives⟩ := hm _ _ hx
  have sort := Feature.type_eq key
  generalize hr : Except.ok x = r at gives
  cases gives with
  | @element u l k' =>
    obtain ⟨y, -, rfl⟩ := map_eq_ok.1 hr.symm
    obtain rfl : l = n := Option.some.inj (Feature.name?_eq_of_key key)
    have label := label_of_key tree differ ho hg.1 (Feature.source_key_of_key key)
    show FeaturePlan.element u l = FeaturePlan.element o l
    simp only [FeaturePlan.element, label]
  | _ => simp [Feature.type] at sort

/-- So it is behind trees in which all elements are sited. -/
theorem owns_of_sited {history : List Tree}
    (known : ∀ tree ∈ history, tree.Obeys (.sited s.joinedTables)) :
    Owns s (translatorAfter .empty history).state.memo :=
  owns_of_rooted tree differ ((rooted_sited _).after_holds known
    (t := .ofBackend (backend .empty .empty)) rfl State.clean_fresh
    ⟨fun _ _ => nofun, trivial, Readings.All.empty⟩).2.2.memo

end

/-! ### Elements behind a join tree -/

/-- The catalog has a column for each field of the tables that are joined. -/
def Catalog.Covers (catalog : Catalog) (s : Source) : Prop :=
  ∀ o ∈ s.leaves, ∀ t : Schema, o.unwrapped = .table t → ∀ d,
    Assoc.find? (t.name == ·) catalog = some d → ∀ c ∈ o.fields, c.name ∈ d.names

/-- A catalog is regular if all of its data is. -/
theorem Catalog.Regular.of_each {catalog : Catalog}
    (h : ∀ e ∈ catalog, e.2.Regular ∧ e.2.names.Nodup) : catalog.Regular := by
  intro name d found
  obtain ⟨k, -, there⟩ := Assoc.mem_of_find? found
  exact h (k, d) there

/-- It has a column for each field if the data under the name of each table has. -/
theorem Catalog.Covers.of_each {catalog : Catalog} {s : Source}
    (h : ∀ o ∈ s.leaves, ∀ e ∈ catalog, o.unwrapped.label = e.1 →
      ∀ c ∈ o.fields, c.name ∈ e.2.names) : catalog.Covers s := by
  intro o ho t table d found
  obtain ⟨k, same, there⟩ := Assoc.mem_of_find? found
  exact h o ho (k, d) there (by rw [table]; exact beq_iff_eq.1 same)

/-- The data of a join tree is made of rows of what is joined; `reads` holds of every element of what is
joined, and of the values of its field in the rows that the joined rows are made from. -/
def Resolved (catalog : Catalog) (s : Source) (x : SourcePlan) (d : Dataset)
    (reads : Feature → List Value → Prop) : Prop :=
  ∃ trace, Traced catalog s x d trace ∧ trace.map Lineage.origin = s.leaves ∧
    ∀ m ∈ trace, m.positions.length = d.length ∧ ∀ c ∈ m.origin.fields, ∃ j,
      m.data.names[j]? = some c.name ∧
        reads (.element m.origin c.name c.kind) (m.positions.map (chosen (m.data.columns.getD j [])))

/-- **Wherever plans of a join tree give data, elements read their own origins.** -/
theorem resolved_of_traced {catalog : Catalog} {s : Source} {x : SourcePlan} {d : Dataset}
    {trace : List Lineage} (traced : Traced catalog s x d trace)
    (apart : (s.leaves.map Source.label).Nodup) (regular : catalog.Regular) (covers : catalog.Covers s)
    {reads : Feature → List Value → Prop}
    (each : ∀ o ∈ s.leaves, ∀ n k values, d.column n (some o.label) = .ok values →
      reads (.element o n k) values) : Resolved catalog s x d reads := by
  have attributed := traced.attributed regular apart
  refine ⟨trace, traced, traced.origins, fun m hm => ⟨attributed.height m hm, fun c hc => ?_⟩⟩
  obtain ⟨t, leaf, found⟩ := traced.leaf m hm
  have member : m.origin ∈ s.leaves := traced.origins ▸ List.mem_map_of_mem hm
  have wrapped : m.origin.unwrapped = .table t := by
    rcases leaf with h | ⟨n, h⟩ <;> rw [h] <;> rfl
  -- The catalog has the column, and it is found under the label of the leaf.
  obtain ⟨j, hj⟩ := List.mem_iff_getElem?.1 (covers m.origin member t wrapped _ found c hc)
  obtain ⟨i, exact, values⟩ := attributed.column m hm j c.name hj
  exact ⟨j, hj, each _ member _ _ _ (values ▸ column_of_exact exact)⟩

/-- References that are joined are visited. -/
theorem mem_visits_of_leaf : ∀ {s : Source}, s.IsJoinTree → ∀ {t : Schema} {n : String},
    .reference (.table t) n ∈ s.leaves → (Source.reference (.table t) n).key ∈ s.visits
  | .table _, _, _, _, h => by simp [Source.leaves] at h
  | .reference (.table _) _, _, _, _, h => by
    have same := List.mem_singleton.1 h
    simp [same, Source.visits]
  | .join l r _ _, tree, t, n, h => by
    simp only [Source.visits, List.mem_append]
    exact (List.mem_append.1 h).imp (mem_visits_of_leaf tree.1) (mem_visits_of_leaf tree.2)

/-- The leaf is a table, or a reference that was visited. -/
def Standing (origins : KeyedMap Source SourcePlan) (o : Source) : Prop :=
  (∃ t, o = .table t) ∨ (origins.get? o).isSome = true

/-- The translator does what it is asked for by a plan that gives the column. -/
def Reads (t : Translator SourcePlan FeaturePlan) (request : Request) (d : Dataset)
    (values : List Value) : Prop :=
  ∃ x, (t.serve request).1 = .ok (some (.feature x)) ∧ x.values (.ofData d) = .ok values

/-- Whatever is remembered for the feature gives the column. -/
def Recollects (t : Translator SourcePlan FeaturePlan) (f : Feature) (d : Dataset)
    (values : List Value) : Prop :=
  ∀ x, Remembers t.state.memo f.key x → x.values (.ofData d) = .ok values

theorem values_of_column {o : Source} {n : String} {d : Dataset} {values : List Value}
    (column : d.column n (some o.label) = .ok values) :
    (FeaturePlan.element o n).values (.ofData d) = .ok values := by
  simp [FeaturePlan.element, Batch.ofData, column]

section

variable {t : Translator SourcePlan FeaturePlan} (made : t.backend = backend .empty .empty)
  {o : Source} (standing : Standing t.state.bench.origins o) (n : String) (k : Kind)
include standing

/-- The element of such a leaf can be translated. -/
theorem Standing.elementSymbol :
    (backend .empty .empty).elementSymbol t.cleared.state.bench.origins o n k
      = .ok (.element o n) := by
  have found : ∃ y, (backend .empty .empty).origin t.state.bench.origins o = .ok y := by
    unfold Backend.origin
    cases known : t.state.bench.origins.get? o with
    | some y => exact ⟨y, rfl⟩
    | none =>
      obtain ⟨u, rfl⟩ | visited := standing
      · exact ⟨_, rfl⟩
      · rw [known] at visited
        cases visited
  obtain ⟨y, hy⟩ := found
  have same : t.cleared.state.bench.origins = t.state.bench.origins := rfl
  simp only [Backend.elementSymbol, same, hy]
  rfl

include made

/-- As a whole it reads the column of its name and of the label of the leaf. -/
theorem Standing.finished (clean : t.state.Clean) {d : Dataset} {values : List Value}
    (column : d.column n (some o.label) = .ok values) :
    Reads t (.finish (.feature (.element o n k))) d values := by
  refine ⟨.element o n, ?_, values_of_column column⟩
  rw [Translator.serve_finish t clean, made]
  simp only [eval_directFinish_feature, directFeature, eval_directElement,
    standing.elementSymbol n k]
  rfl

/-- So it does when it is recalled, be it remembered or not. -/
theorem Standing.recalled
    (owns : ∀ x, Remembers t.state.memo (Feature.element o n k).key x → x = .element o n)
    {d : Dataset} {values : List Value} (column : d.column n (some o.label) = .ok values) :
    Reads t (.symbolOf (.feature (.element o n k))) d values := by
  have reads := values_of_column column
  cases known : Assoc.find? ((Feature.element o n k).key == ·) t.state.memo with
  | some x =>
    obtain rfl := owns x known
    exact ⟨_, congrArg Prod.fst (Translator.serve_remembered known), reads⟩
  | none =>
    refine ⟨.element o n, ?_, reads⟩
    have unknown : Assoc.find? ((Feature.element o n k).key == ·) t.cleared.state.bench.memo = none :=
      known
    rw [t.serve_symbolOf_feature, made]
    simp only [Direct.recall, eval_bind, eval_get, andThen_ok, unknown, directFeature,
      eval_directElement, standing.elementSymbol n k]
    rfl

end

/-! ### Elements that a statement selects -/

/-- The rows that a filter leaves. -/
theorem rows_of_filtered {filter : Option FeaturePlan} {all data : Dataset} (regular : all.Regular)
    (h : filtered filter all = .ok data) : ∃ rows : List Nat, data.length = rows.length ∧
      (filter = none → ∀ i ∈ rows, i < all.length) ∧
        ∀ n q c, all.column n q = .ok c → data.column n q = .ok (rows.map (item c)) := by
  obtain ⟨absent, present⟩ := filtered_eq_ok h
  cases filter with
  | none =>
    obtain rfl := absent rfl
    refine ⟨List.range data.length, by simp, fun _ i => List.mem_range.1, fun n q c read => ?_⟩
    rw [read, map_item_range (regular.height c (mem_of_column regular read))]
  | some f =>
    obtain ⟨mask, -, rfl⟩ := present f rfl
    exact ⟨truePositions mask, by simp [Dataset.filter, take], nofun,
      fun n q c read => column_only regular read _⟩

/-- The rows in the groups of a batch are rows of its data. -/
theorem inside_of_batched {groups? : Bool} {groupby : List FeaturePlan} {having : Option FeaturePlan}
    {data : Dataset} {b : Batch} (h : batched groups? groupby having data = .ok b) :
    b.data = data ∧ ∀ gs ∈ b.groups, ∀ g ∈ gs, ∀ i ∈ g, i < data.length := by
  obtain ⟨grouped, plain⟩ := batched_eq_ok h
  cases groups? with
  | false =>
    obtain rfl := plain rfl
    exact ⟨rfl, nofun⟩
  | true =>
    obtain ⟨groups, left, all, remain, rfl⟩ := grouped rfl
    refine ⟨rfl, ?_⟩
    rintro _ ⟨⟩ g hg
    have inside : ∀ g ∈ groups, ∀ i ∈ g, i < data.length := by
      unfold allGroups at all
      split at all
      · obtain rfl := Except.ok.inj all
        exact List.forall_mem_singleton.2 fun i => List.mem_range.1
      · obtain ⟨columns, -, made⟩ := bind_eq_ok.1 all
        exact groupRows_bounds made
    obtain ⟨kept, filtered⟩ := remaining_eq_ok remain
    cases having with
    | none => exact inside g (kept rfl ▸ hg)
    | some f =>
      obtain ⟨mask, -, rfl⟩ := filtered f rfl
      obtain ⟨p, hp, rfl⟩ := List.mem_map.1 hg
      exact inside _ (List.of_mem_zip (List.mem_filter.1 hp).1).1

/-- The row of the data that an element is read from in a batch: the row itself, or the first row of the
group, if it has rows. -/
def Batch.front (b : Batch) (i : Nat) : Option Nat :=
  match b.groups with
  | none    => some i
  | some gs => (gs.getD i []).head?

theorem Batch.front_lt {b : Batch} (grouped : ∀ gs ∈ b.groups, ∀ g ∈ gs, ∀ i ∈ g, i < b.data.length)
    {i : Nat} (inside : i < b.size) : ∀ j ∈ b.front i, j < b.data.length := by
  obtain ⟨data, groups⟩ := b
  intro j hj
  cases groups with
  | none => exact Option.some.inj hj ▸ inside
  | some gs =>
    have inside : i < gs.length := inside
    have first : (gs.getD i []).head? = some j := hj
    rw [List.getD_eq_getElem _ _ inside] at first
    exact grouped gs rfl _ (List.getElem_mem inside) j (List.mem_of_head? first)

/-- Rows within a limit are among all rows. -/
theorem mem_of_mem_limited {rows : Option RowRange} {order : List Nat} {i : Nat}
    (h : i ∈ SourcePlan.limited rows order) : i ∈ order := by
  unfold SourcePlan.limited at h
  split at h
  · exact List.mem_of_mem_drop (List.mem_of_mem_take h)
  · exact h

/-- The value of an element for a row or a group. -/
theorem item_of_element {b : Batch} {o : Source} {n : String} {column values : List Value}
    (read : b.data.column n (some o.label) = .ok column)
    (evaluated : (FeaturePlan.element o n).values b = .ok values) {i : Nat} (inside : i < b.size) :
    item values i = chosen column (b.front i) := by
  obtain ⟨data, groups⟩ := b
  obtain ⟨c, same, made⟩ := bind_eq_ok.1 evaluated
  obtain rfl : column = c := Except.ok.inj (read.symm.trans same)
  cases groups with
  | none =>
    obtain rfl := pure_eq_ok.1 made
    rfl
  | some gs =>
    obtain rfl := pure_eq_ok.1 made
    have inside : i < gs.length := inside
    simp [item, Batch.front, inside]

/-- Rows of rows that are chosen. -/
theorem chosen_map_item {rows : List Nat} {c : List Value} {p : Option Nat}
    (bound : ∀ i ∈ p, i < rows.length) :
    chosen (rows.map (item c)) p = chosen c (p.map (rows.getD · 0)) := by
  cases p with
  | none => rfl
  | some i =>
    have inside := bound i rfl
    simp [chosen, item, inside]

/-- **The columns of a statement that are elements** have for every row of the result the value of a row
of the source, the same one for all of them, or an empty value where a group has no rows. -/
theorem columns_of_statement {x : SourcePlan} {xs : List FeaturePlan} {y : Option FeaturePlan}
    {ys : List FeaturePlan} {z : Option FeaturePlan} {zs : List (OrderSymbol FeaturePlan)}
    {rows : Option RowRange} {catalog : Catalog} {e : Dataset}
    (evaluated : SourcePlan.query x xs y ys z zs rows catalog = .ok e) :
    ∃ d, x catalog = .ok d ∧ (d.Regular → ∃ ps : List (Option Nat), ps.length = e.length ∧
      (y = none → ∀ p ∈ ps, ∀ i ∈ p, i < d.length) ∧
      ∀ (i : Nat) (o : Source) (n : String), xs[i]? = some (.element o n) → ∀ c,
        d.column n (some o.label) = .ok c → e.columns[i]? = some (ps.map (chosen c))) := by
  rw [query_eq] at evaluated
  obtain ⟨data, passed, evaluated⟩ := bind_eq_ok.1 evaluated
  obtain ⟨d, given, passed⟩ := bind_eq_ok.1 passed
  obtain ⟨b, batch, evaluated⟩ := bind_eq_ok.1 evaluated
  obtain ⟨keys, order, columns, -, ordered, computed, rfl⟩ := projected_iff.1 evaluated
  refine ⟨d, given, fun regular => ?_⟩
  obtain ⟨kept, length, unfiltered, read⟩ := rows_of_filtered regular passed
  obtain ⟨same, grouped⟩ := inside_of_batched batch
  -- Every row of the result is a row or a group of the batch, and has its row among those kept.
  have among : ∀ i ∈ SourcePlan.limited rows order, i < b.size := fun i hi =>
    List.mem_range.1 ((arrange_perm ordered).subset (mem_of_mem_limited hi))
  have front : ∀ i < b.size, ∀ j ∈ b.front i, j < kept.length := fun i hi => by
    rw [← length, ← same]
    exact Batch.front_lt (same ▸ grouped) hi
  refine ⟨(SourcePlan.limited rows order).map fun i => (b.front i).map (kept.getD · 0),
    by simp [chosenRows], fun absent p hp j hj => ?_, fun i o n hi c hc => ?_⟩
  · obtain ⟨i, hi, rfl⟩ := List.mem_map.1 hp
    obtain ⟨k, hk, rfl⟩ := Option.mem_map.1 hj
    have bound := front i (among i hi) k hk
    rw [List.getD_eq_getElem _ _ bound]
    exact unfiltered absent _ (List.getElem_mem bound)
  · obtain ⟨values, there, evaluated⟩ := related_at (mapM_eq_ok computed) hi
    simp only [chosenRows, List.getElem?_map, there, Option.map_some, List.map_map]
    refine congrArg some (List.map_congr_left fun p hp => ?_)
    rw [item_of_element (same ▸ read n _ c hc) evaluated (among p hp),
      chosen_map_item (front p (among p hp))]
    rfl

/-! ### Join trees -/

/-- Any translator behind a join tree has translated the tree between other ones. -/
theorem after_compiled {history later : List Tree} {s : Source} {plan : SourcePlan}
    {t : Translator SourcePlan FeaturePlan}
    (compiled : (translatorAfter .empty history).serve (.finish (.source s))
      = (.ok (some (.source plan)), t)) :
    t.after later = translatorAfter .empty (history ++ .source s :: later) := by
  have reached : ((translatorAfter .empty history).serve (.finish (.source s))).2 = t :=
    congrArg Prod.snd compiled
  rw [← reached]
  simp [translatorAfter, Translator.after, List.foldl_append]

/-- Behind a join tree its leaves can be read, whatever is translated later. -/
theorem standing_of_compiled {history : List Tree} {s : Source} (tree : s.IsJoinTree)
    {plan : SourcePlan} {t : Translator SourcePlan FeaturePlan}
    (compiled : (translatorAfter .empty history).serve (.finish (.source s))
      = (.ok (some (.source plan)), t)) (later : List Tree) {o : Source} (ho : o ∈ s.leaves) :
    Standing (t.after later).state.bench.origins o := by
  obtain ⟨-, clean, -⟩ := Translator.after_keeps history
    (t := .ofBackend (backend .empty .empty)) State.clean_fresh
  obtain ⟨w, notes, run, -, clean', bench⟩ := Translator.finished_source clean compiled
  obtain ⟨u, leaf | ⟨n, rfl⟩⟩ := Source.leaf_cases tree ho
  · exact .inl ⟨u, leaf⟩
  · have visited := (directSource_visits _ s).ok _ plan w run _ (mem_visits_of_leaf tree ho)
    exact .inr (Translator.after_visited clean' (by rw [bench]; exact visited))

/-- **Columns resolve to their own origins through all joins.** Every row of the data of a join tree is
made from one row, or from none, of each table and reference that is joined. An element of what is
joined, translated as a whole behind the tree and other trees, has for each joined row the value of its
field in the row of its own origin, or an empty value where the other side was kept without one. So it
has when it is recalled, and so it was read inside all trees in between, if no tree has had an element of
another table with the key of a joined one: what is remembered stays. And a statement over the join makes
each of its rows from one joined row, or from none for a group without rows, and in the columns of the
elements that it selects it has the values of their origins there. -/
theorem join_tree_columns {s : Source} (tree : s.IsJoinTree)
    (apart : (s.leaves.map Source.label).Nodup) (differ : (s.joinedTables.map Schema.key).Nodup)
    {catalog : Catalog} (regular : catalog.Regular) (covers : catalog.Covers s) (history : List Tree) :
    (∀ (plan : SourcePlan) (t : Translator SourcePlan FeaturePlan) (d : Dataset),
      (translatorAfter .empty history).serve (.finish (.source s)) = (.ok (some (.source plan)), t) →
      plan catalog = .ok d → Resolved catalog s plan d fun e values => ∀ later : List Tree,
        Reads (t.after later) (.finish (.feature e)) d values ∧
        ((∀ tree ∈ history ++ .source s :: later, tree.Obeys (.sited s.joinedTables)) →
          Reads (t.after later) (.symbolOf (.feature e)) d values ∧
          Recollects (t.after later) e d values)) ∧
    ∀ (sel : List Feature) (pre : Option Feature) (grp : List Feature) (post : Option Feature)
      (ord : List OrderTerm) (rows : Option RowRange),
      (∀ tree ∈ history ++ [.source (.query s sel pre grp post ord rows)],
        tree.Obeys (.sited s.joinedTables)) →
      ∀ (plan : SourcePlan) (t : Translator SourcePlan FeaturePlan) (e : Dataset),
        (translatorAfter .empty history).serve (.finish (.source (.query s sel pre grp post ord rows)))
          = (.ok (some (.source plan)), t) →
        plan catalog = .ok e → ∃ x d, ∃ ps : List (Option Nat), ps.length = e.length ∧
          (pre = none → ∀ p ∈ ps, ∀ i ∈ p, i < d.length) ∧
          Resolved catalog s x d fun f values => Recollects t f d values ∧
            ∀ i : Nat, (Source.query s sel pre grp post ord rows).features[i]? = some f →
              e.columns[i]? = some (ps.map (chosen values)) := by
  refine ⟨fun plan t d compiled evaluated => ?_,
    fun sel pre grp post ord rows known plan t e compiled evaluated => ?_⟩
  · have plain : (rooted (backend .empty .empty) .none).Lawful _ :=
      rooted_lawful _ (Rules.selected_of_element fun _ _ _ => trivial) fun _ _ _ _ => trivial
    obtain ⟨trace, traced⟩ := traced_of_composed (plain.source_compiled (fun _ _ => nofun)
      (fun tree _ => tree.obeys_none) s.obeys_none compiled) tree evaluated
    refine resolved_of_traced traced apart regular covers fun o ho n k values column later => ?_
    have standing := standing_of_compiled tree compiled later ho
    rw [after_compiled compiled] at standing ⊢
    obtain ⟨made, clean, -⟩ := Translator.after_keeps (history ++ .source s :: later)
      (t := .ofBackend (backend .empty .empty)) State.clean_fresh
    refine ⟨standing.finished made n k clean column, fun known => ?_⟩
    have own := owns_of_sited tree differ known o ho n k
    exact ⟨standing.recalled made n k own column, fun x hx => own x hx ▸ values_of_column column⟩
  · obtain ⟨before, own⟩ := List.forall_mem_append.1 known
    have behind : Owns s t.state.memo := by
      have reached : t = translatorAfter .empty _ := @after_compiled history [] _ plan t compiled
      exact reached ▸ owns_of_sited tree differ known
    have composed : Composed _ _ (Source.query s sel pre grp post ord rows) plan :=
      (rooted_sited _).source_compiled (fun _ _ => nofun) before (own _ (List.mem_singleton_self _)) compiled
    cases composed with
    | @query _ _ _ _ _ _ _ m x xs y ys z zs hs hm hsel hpre =>
      have query : SourcePlan.query x xs y ys z zs rows catalog = .ok e := evaluated
      obtain ⟨d, given, columns⟩ := columns_of_statement query
      obtain ⟨trace, traced⟩ := traced_of_composed hs tree given
      obtain ⟨ps, length, inside, values⟩ := columns (traced.attributed regular apart).regular
      refine ⟨x, d, ps, length, ?_, resolved_of_traced traced apart regular covers
        fun o ho n k c column => ⟨fun x hx => ?_, fun i hi => ?_⟩⟩
      · rintro rfl
        exact inside ((option_of_remembered hpre).1 rfl)
      · exact behind o ho n k x hx ▸ values_of_column column
      · obtain ⟨plan, there, remembered⟩ := related_at hsel hi
        obtain rfl := owns_of_rooted tree differ hm o ho n k plan remembered
        exact values i o n there c column

/-- Two references to one table are kept apart, also where a row has no partner, and both are kept apart
from a table that is joined to them. -/
theorem join_tree_columns_of_twins :
    let text : Kind := .primitive .string
    let table : Schema := ⟨"emp", [("id", ⟨text, "id"⟩), ("boss", ⟨text, "boss"⟩)]⟩
    let worker : Source := .reference (.table table) "worker"
    let boss : Source := .reference (.table table) "boss"
    let site : Source := .table ⟨"site", [("id", ⟨text, "id"⟩)]⟩
    let s : Source := .join (.join worker boss .left
      (some (.expression .eq [.element worker "boss" text, .element boss "id" text] none))) site .cross none
    let selection : List Feature := [.element boss "id" text, .element worker "id" text,
      .element site "id" text]
    let q : Source := .query s selection none [] none [] none
    let catalog : Catalog := [
      ("emp", ⟨[⟨"id", none⟩, ⟨"boss", none⟩], [[.text "a", .text "b"], [.text "b", .null]], 2⟩),
      ("site", ⟨[⟨"id", none⟩], [[.text "x"]], 1⟩)]
    (∃ plan t d, (translatorAfter .empty []).serve (.finish (.source s)) = (.ok (some (.source plan)), t) ∧
      plan catalog = .ok d ∧
      textsOfRows d = [["a", "b", "b", "null", "x"], ["b", "null", "null", "null", "x"]] ∧
      Resolved catalog s plan d fun e values => Reads t (.finish (.feature e)) d values ∧
        Reads t (.symbolOf (.feature e)) d values ∧ Recollects t e d values) ∧
    ∃ plan t e, (translatorAfter .empty []).serve (.finish (.source q)) = (.ok (some (.source plan)), t) ∧
      plan catalog = .ok e ∧ textsOfRows e = [["b", "a", "x"], ["null", "b", "x"]] ∧
      ∃ x d, ∃ ps : List (Option Nat), ps.length = e.length ∧ (∀ p ∈ ps, ∀ i ∈ p, i < d.length) ∧
        Resolved catalog s x d fun f values => Recollects t f d values ∧
          ∀ i : Nat, q.features[i]? = some f → e.columns[i]? = some (ps.map (chosen values)) := by
  intro text table worker boss site s selection q catalog
  have rows : (dataOf ((translatorAfter .empty []).serve (.finish (.source s))).1 catalog).map
      textsOfRows = some [["a", "b", "b", "null", "x"], ["b", "null", "null", "null", "x"]] := by
    decide +kernel
  have picked : (dataOf ((translatorAfter .empty []).serve (.finish (.source q))).1 catalog).map
      textsOfRows = some [["b", "a", "x"], ["null", "b", "x"]] := by decide +kernel
  obtain ⟨plan, t, d, compiled, evaluated, texts⟩ := evaluated_of_dataOf rows
  obtain ⟨plan', t', e, compiled', evaluated', texts'⟩ := evaluated_of_dataOf picked
  have regular : catalog.Regular := .of_each (List.forall_mem_cons.2 ⟨⟨⟨rfl, by simp⟩, by decide⟩,
    List.forall_mem_singleton.2 ⟨⟨rfl, by simp⟩, by decide⟩⟩)
  have covers : catalog.Covers s := .of_each (by decide)
  -- All elements are those of what is joined.
  have ofReference (name n : String) :
      (Feature.element (.reference (.table table) name) n text).Obeys (.sited s.joinedTables) :=
    ⟨trivial, trivial, trivial⟩
  have ofSite : (Feature.element site "id" text).Obeys (.sited s.joinedTables) :=
    ⟨.inl (List.mem_singleton_self _), trivial⟩
  have hs : s.Obeys (.sited s.joinedTables) :=
    ⟨trivial, ⟨trivial, ⟨trivial, trivial⟩, ⟨trivial, trivial⟩, trivial, ofReference "worker" "boss",
      ofReference "boss" "id", trivial⟩, trivial, trivial⟩
  have hsel : featuresObey (.sited s.joinedTables) selection :=
    ⟨ofReference "boss" "id", ofReference "worker" "id", ofSite, trivial⟩
  have hq : q.Obeys (.sited s.joinedTables) := by
    have offered : ∀ f ∈ selection, f.Sited s.joinedTables := List.forall_mem_cons.2
      ⟨trivial, List.forall_mem_cons.2 ⟨trivial, List.forall_mem_singleton.2 ofSite.1⟩⟩
    exact ⟨offered, hs, hsel, trivial, trivial, trivial, trivial⟩
  obtain ⟨join, statement⟩ := join_tree_columns (s := s) ⟨⟨trivial, trivial⟩, trivial⟩
    (by decide +kernel) (by decide +kernel) regular covers []
  refine ⟨⟨plan, t, d, compiled, evaluated, texts, ?_⟩, plan', t', e, compiled', evaluated', texts', ?_⟩
  · obtain ⟨trace, traced, origins, each⟩ := join plan t d compiled evaluated
    refine ⟨trace, traced, origins, fun m hm => ⟨(each m hm).1, fun c hc => ?_⟩⟩
    obtain ⟨j, hj, reads⟩ := (each m hm).2 c hc
    exact ⟨j, hj, (reads []).1, (reads []).2 (List.forall_mem_singleton.2 hs)⟩
  · obtain ⟨x, d, ps, length, inside, resolved⟩ := statement selection none [] none [] none
      (List.forall_mem_singleton.2 hq) plan' t' e compiled' evaluated'
    exact ⟨x, d, ps, length, inside rfl, resolved⟩

/-- **An element reads the rows of another origin.** The condition of the join has an element of another
table with the key of the joined one, which has the name of the reference: behind the join its column
stands in for that of the joined table. -/
theorem columns_confused :
    let fields : List (String × NamedField) := [("id", ⟨.primitive .integer, "id"⟩)]
    let school : Source := .table ⟨"school", fields⟩
    let twin : Source := .table ⟨"twin", fields⟩
    let staff : Source := .reference (.table ⟨"emp", fields⟩) "twin"
    let id : Feature := .element school "id" (.primitive .integer)
    let present : Feature := .expression .notNull [.element twin "id" (.primitive .integer)] none
    let s : Source := .join school staff .inner (some present)
    let catalog : Catalog := [
      ("school", ⟨[⟨"id", none⟩], [[.number (.ofNat 1), .number (.ofNat 2)]], 2⟩),
      ("emp", ⟨[⟨"id", none⟩], [[.number (.ofNat 7)]], 1⟩)]
    s.Built ∧ s.IsJoinTree ∧ (s.leaves.map Source.label).Nodup ∧
    (s.joinedTables.map Schema.key).Nodup ∧ catalog.Regular ∧ catalog.Covers s ∧
    ∃ plan t d, (translatorAfter .empty []).serve (.finish (.source s)) = (.ok (some (.source plan)), t) ∧
      plan catalog = .ok d ∧ textsOfRows d = [["1", "7"], ["2", "7"]] ∧
      (∃ e, Answers t (.query s [id] none [] none [] none) catalog e ∧
        textsOfRows e = [["7"], ["7"]]) ∧
      ¬Resolved catalog s plan d fun e values => Reads t (.symbolOf (.feature e)) d values := by
  intro fields school twin staff id present s catalog
  have hschool : school.Built := .of_distinct rfl
  have htwin : twin.Built := .of_distinct rfl
  have htwinId : (Feature.element twin "id" (.primitive .integer)).Built :=
    .element htwin (show twin.get "id" = .ok _ from rfl)
  have hpresent : present.Built := built_single htwinId rfl
  have hemp : (Source.table ⟨"emp", fields⟩).Built := .of_distinct rfl
  have built : s.Built := hschool.joining (.ref "twin" hemp) hpresent rfl rfl (by decide +kernel)
    (by decide +kernel)
  have regular : catalog.Regular := .of_each (List.forall_mem_cons.2 ⟨⟨⟨rfl, by simp⟩, by decide⟩,
    List.forall_mem_singleton.2 ⟨⟨rfl, by simp⟩, by decide⟩⟩)
  have apart : (s.leaves.map Source.label).Nodup := by decide +kernel
  let r := (translatorAfter .empty []).serve (.finish (.source s))
  have computed : (dataOf r.1 catalog).map (fun d => (textsOfRows d,
      (dataOf (r.2.serve (.finish (.source (.query s [id] none [] none [] none)))).1 catalog).map textsOfRows,
      (d.column "id" (some "school")).toOption.map fun vs => vs.map Value.plain,
      (columnOf (r.2.serve (.symbolOf (.feature id))).1 (.ofData d)).map fun vs => vs.map Value.plain))
        = some ([["1", "7"], ["2", "7"]], some [["7"], ["7"]], some ["1", "2"], some ["7", "7"]) := by
    decide +kernel
  obtain ⟨plan, t, d, compiled, evaluated, computed⟩ := evaluated_of_dataOf computed
  rw [compiled] at computed
  obtain ⟨texts, selected, own, other⟩ := by simpa only [Prod.mk.injEq] using computed
  refine ⟨built, ⟨trivial, trivial⟩, apart, by decide +kernel, regular, .of_each (by decide), plan, t, d,
    compiled, evaluated, texts, ?_, ?_⟩
  · obtain ⟨plan', t', e, compiled', evaluated', texts'⟩ := evaluated_of_dataOf selected
    exact ⟨e, ⟨plan', t', compiled', evaluated'⟩, texts'⟩
  · rintro ⟨trace, traced, origins, each⟩
    obtain ⟨m, hm, origin⟩ : ∃ m ∈ trace, m.origin = school :=
      List.mem_map.1 (origins ▸ List.mem_cons_self)
    obtain ⟨j, hj, x, served, values⟩ := (each m hm).2 ⟨.primitive .integer, "id"⟩
      (origin ▸ List.mem_cons_self)
    obtain ⟨x', t', vs, recalled, read, foreign⟩ := evaluated_of_columnOf other
    -- The plan would have to give the column of the joined table, which has other values.
    obtain ⟨i, exact, column⟩ := (traced.attributed regular apart).column m hm j "id" hj
    have found := column_of_exact exact
    rw [origin] at found served
    obtain rfl : x' = x := by
      rw [recalled] at served
      exact Symbol.feature.inj (Option.some.inj (Except.ok.inj served))
    have same : vs = d.columns.getD i [] := by
      rw [column]
      exact Except.ok.inj (read.symm.trans values)
    have told : (d.columns.getD i []).map Value.plain = ["1", "2"] := by
      rw [show d.column "id" (some "school") = _ from found] at own
      exact Option.some.inj own
    rw [← same, foreign] at told
    exact absurd told (by decide)

end Evaluation

end QueryAlgebra
