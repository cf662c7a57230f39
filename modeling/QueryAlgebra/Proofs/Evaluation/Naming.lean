import QueryAlgebra.Proofs.Evaluation.Pushdown
import QueryAlgebra.Proofs.Tree.Endings
import QueryAlgebra.Proofs.Tree.FieldNames

/-!
# Names of output columns

The schema of a statement tells its fields apart by name, while the columns of its data are labelled
by the plans of its features. A plan is remembered by the key of its feature, which tells the name, so
a column has the own name of its feature, whatever other plans the translator has made before.

* `labelled`: all plans that are remembered are labelled by the names of their features.
* `outputs_named`: the columns of a statement have the own names of its features.
* `output_columns_named`: so they have the names of its schema, and are found under them from a
  reference, exactly where these own names are distinct.
* `output_columns_repeat`: a column that is selected twice is not found under its second name.
-/

namespace QueryAlgebra

/-! ### Columns by name -/

namespace Dataset

/-- A data set of columns has the names and origins that were said. -/
theorem refs_of_ofColumns {refs : List ColumnId} {columns : List (List Value)} {length? : Option Nat}
    {d : Dataset} (h : ofColumns refs columns length? = .ok d) : d.refs = refs := by
  unfold ofColumns at h
  dsimp only at h
  split at h
  · obtain ⟨_, -, h⟩ := bind_eq_ok.1 h
    rw [← Except.ok.inj h]
  · cases h

/-- A column of data that is attributed to one origin is found by its name alone. -/
theorem find?_qualify (d : Dataset) (origin n : String) :
    (d.qualify origin).find? n (some origin) = d.names.findIdx? (· = n) := by
  have unqualified : (d.qualify origin).refs.findIdx? (fun r => r = ⟨n, none⟩) = none := by
    simp [qualify, List.findIdx?_eq_none_iff]
  unfold find?
  rw [unqualified, Option.or_none]
  simp [qualify, names, List.findIdx?_map, Function.comp_def]

end Dataset

/-- Each of the names is found at its own position exactly where they are distinct. -/
theorem findIdx?_self_iff_nodup {names : List String} :
    (∀ i n, names[i]? = some n → names.findIdx? (· = n) = some i) ↔ names.Nodup := by
  rw [List.nodup_iff_getElem?_ne_getElem?]
  constructor
  · intro found i j less bound same
    obtain ⟨n, hn⟩ : ∃ n, names[j]? = some n := ⟨_, List.getElem?_eq_getElem bound⟩
    have := (found i n (same.trans hn)).symm.trans (found j n hn)
    exact absurd (Option.some.inj this) (Nat.ne_of_lt less)
  · intro distinct i n hn
    obtain ⟨bound, rfl⟩ := List.getElem?_eq_some_iff.1 hn
    refine List.findIdx?_eq_some_iff_getElem.2 ⟨bound, by simp, fun j less => ?_⟩
    have := distinct j i less bound
    rw [List.getElem?_eq_getElem bound, List.getElem?_eq_getElem (less.trans bound)] at this
    simpa using fun same => this (congrArg some same)

namespace Evaluation

open Translation

variable {sources : KeyedMap Source SourcePlan}

/-! ### Labels -/

/-- The columns of a plan have the own names of the features that a source offers. -/
def Names (q : Source) (plan : SourcePlan) : Prop :=
  ∀ catalog d, plan catalog = .ok d → d.names = ownNames 0 q.features

theorem outputRefs_names {fs : List Feature} {xs : List FeaturePlan}
    (h : List.Forall₂ (fun f x => x.label = f.name?) fs xs) :
    (SourcePlan.outputRefs xs).map ColumnId.name = ownNames 0 fs := by
  have from_position : ∀ i, (xs.zip (List.range' i xs.length)).map
      (fun f => f.1.label.getD (positional f.2)) = ownNames i fs := by
    induction h with
    | nil => exact fun _ => rfl
    | cons hx _ ih => exact fun i => by simp [List.range'_succ, ownNames, hx, ih]
  rw [← from_position 0, SourcePlan.outputRefs, List.range_eq_range']
  simp [Function.comp_def]

/-- The rows that a filter leaves. -/
def filtered (filter : Option FeaturePlan) (all : Dataset) : Except Fault Dataset :=
  match filter with
  | none   => .ok all
  | some f => do return all.filter (← f.values (.ofData all))

/-- The rows of a statement, in groups if it is grouped. -/
def batched (grouped : Bool) (groupby : List FeaturePlan) (having : Option FeaturePlan)
    (data : Dataset) : Except Fault Batch :=
  if grouped then do return ⟨data, some (← SourcePlan.groupsOf groupby having data)⟩
  else .ok (.ofData data)

/-- The rows of a batch, ordered, limited and projected. -/
def projected (xs : List FeaturePlan) (orderby : List (OrderSymbol FeaturePlan))
    (rows : Option RowRange) (b : Batch) : Except Fault Dataset := do
  let keys ← FeaturePlan.sortKeys orderby b
  let positions := SourcePlan.limited rows (← arrange (List.range b.size) keys)
  let columns ← xs.mapM fun f => do
    let values ← f.values b
    return positions.map (Dataset.item values)
  Dataset.ofColumns (SourcePlan.outputRefs xs) columns (some positions.length)

/-- **A statement filters, groups and projects.** -/
theorem query_eq (plan : SourcePlan) (xs : List FeaturePlan) (filter : Option FeaturePlan)
    (groupby : List FeaturePlan) (having : Option FeaturePlan)
    (orderby : List (OrderSymbol FeaturePlan)) (rows : Option RowRange) (catalog : Catalog) :
    SourcePlan.query plan xs filter groupby having orderby rows catalog
      = (plan catalog >>= filtered filter) >>= fun data =>
        batched (SourcePlan.isGrouped xs groupby having orderby) groupby having data >>=
          projected xs orderby rows := by
  unfold SourcePlan.query filtered batched projected
  cases filter <;> cases SourcePlan.isGrouped xs groupby having orderby <;>
    simp only [bind_assoc, pure_bind, Bool.false_eq_true, if_false, if_true] <;> rfl

/-- The data of a statement is put together of columns in the end. -/
theorem query_made {plan : SourcePlan} {xs : List FeaturePlan} {filter : Option FeaturePlan}
    {groupby : List FeaturePlan} {having : Option FeaturePlan}
    {orderby : List (OrderSymbol FeaturePlan)} {rows : Option RowRange} {catalog : Catalog}
    {d : Dataset}
    (h : SourcePlan.query plan xs filter groupby having orderby rows catalog = .ok d) :
    ∃ columns length, Dataset.ofColumns (SourcePlan.outputRefs xs) columns length = .ok d := by
  rw [query_eq] at h
  obtain ⟨data, -, h⟩ := bind_eq_ok.1 h
  obtain ⟨b, -, h⟩ := bind_eq_ok.1 h
  obtain ⟨keys, -, h⟩ := bind_eq_ok.1 h
  obtain ⟨order, -, h⟩ := bind_eq_ok.1 h
  obtain ⟨columns, -, made⟩ := bind_eq_ok.1 h
  exact ⟨columns, _, made⟩

/-- The columns of a statement are labelled by its features. -/
theorem query_names {plan : SourcePlan} {fs : List Feature} {xs : List FeaturePlan}
    (labels : List.Forall₂ (fun f x => x.label = f.name?) fs xs) {filter : Option FeaturePlan}
    {groupby : List FeaturePlan} {having : Option FeaturePlan}
    {orderby : List (OrderSymbol FeaturePlan)} {rows : Option RowRange} {catalog : Catalog}
    {d : Dataset}
    (h : SourcePlan.query plan xs filter groupby having orderby rows catalog = .ok d) :
    d.names = ownNames 0 fs := by
  obtain ⟨columns, length, made⟩ := query_made h
  rw [← outputRefs_names labels, ← Dataset.refs_of_ofColumns made]
  rfl

/-- What a node gives is labelled by the name of its feature. -/
theorem label_of_gives {m : List (String × FeaturePlan)} {o : KeyedMap Source SourcePlan}
    {f : Feature} {x : FeaturePlan} (h : (backend sources .empty).Gives m o f (.ok x)) :
    x.label = f.name? := by
  generalize hr : Except.ok x = r at h
  cases h with
  | aliased => rw [Except.ok.inj hr]; rfl
  | literal => rw [Except.ok.inj hr]; rfl
  | element =>
    obtain ⟨y, -, rfl⟩ := map_eq_ok.1 hr.symm
    rfl
  | @expression op args target xs hxs =>
    rw [Except.ok.inj hr]
    show (FeaturePlan.expression op xs _).label = none
    unfold FeaturePlan.expression
    split <;> rfl
  | window =>
    obtain ⟨y, hy, rfl⟩ := map_eq_ok.1 hr.symm
    simp only [backend, FeaturePlan.window] at hy
    split at hy
    · split at hy
      · cases hy; rfl
      · cases hy
    · cases hy; rfl

/-- **All plans that are remembered are labelled by the names of their features**, and those of
statements name their columns by them. -/
def labelled (sources : KeyedMap Source SourcePlan) : Invariant SourcePlan FeaturePlan where
  rules := .none
  memo m := ∀ (f : Feature) (x : FeaturePlan), Remembers m f.key x → x.label = f.name?
  origins _ := True
  source
    | .query s sel pre grp post ord rows, plan =>
      sources.get? (.query s sel pre grp post ord rows) = none →
        Names (.query s sel pre grp post ord rows) plan
    | _, _ => True
  fault _ := True

theorem labelled_lawful : (labelled sources).Lawful (backend sources .empty) where
  selected := Rules.selected_of_element fun _ _ _ => trivial
  connective _ _ _ _ _ _ := trivial
  nowhere := trivial
  put := by
    intro f m o x _ hm _ _ _ gives g y hy
    by_cases hkey : g.key = f.key
    · -- What is put is taken for every feature with the key, and the key tells the name.
      rw [hkey, Remembers, Assoc.find?_put_self] at hy
      obtain rfl : x = y := Option.some.inj hy
      rw [label_of_gives gives, Feature.name?_eq_of_key hkey]
    · rw [Remembers, Assoc.find?_put_of_ne _ _ hkey] at hy
      exact hm g y hy
  refused _ _ _ _ := trivial
  table _ _ := ⟨fun _ _ => trivial, fun _ _ => trivial⟩
  noTable _ := trivial
  reference _ _ := ⟨fun _ _ => trivial, trivial⟩
  join _ _ _ _ _ := trivial
  set _ _ _ := trivial
  query := by
    intro s sel pre grp post ord rows m x xs y ys z zs _ hm _ hxs _ _ _ _ unprovided catalog d h
    have labels : List.Forall₂ (fun f x => x.label = f.name?)
        (Source.query s sel pre grp post ord rows).features xs := hxs.imp fun f x => hm f x
    have provided : (backend sources .empty).sources.get? (.query s sel pre grp post ord rows)
        = none := unprovided
    rw [provided] at h
    exact query_names labels h

/-- The columns of a statement have the own names of its features, whatever has been translated
before. -/
theorem outputs_named {history : List Tree} {s : Source} {sel : List Feature} {pre : Option Feature}
    {grp : List Feature} {post : Option Feature} {ord : List OrderTerm} {rows : Option RowRange}
    (unprovided : sources.get? (.query s sel pre grp post ord rows) = none) {plan : SourcePlan}
    {t : Translator SourcePlan FeaturePlan}
    (compiled : (translatorAfter sources history).serve
      (.finish (.source (.query s sel pre grp post ord rows))) = (.ok (some (.source plan)), t)) :
    Names (.query s sel pre grp post ord rows) plan := by
  obtain ⟨hb, clean, hI⟩ := labelled_lawful.after_holds
    (fun tree (_ : tree ∈ history) => tree.obeys_none) (t := .ofBackend (backend sources .empty)) rfl State.clean_fresh
    ⟨nofun, trivial, Readings.All.empty⟩
  rw [translatorAfter, Translator.serve_finish _ clean, hb] at compiled
  have outcome := labelled_lawful.source_outcome (.query s sel pre grp post ord rows)
    (Source.obeys_none _) (w := ((Translator.ofBackend (backend sources .empty)).after
      history).cleared.state.bench) ⟨hI.memo, trivial, hI.tables⟩
  obtain ⟨notes, finished⟩ := eval_directFinish_source (backend sources .empty)
    (.query s sel pre grp post ord rows) ((Translator.ofBackend (backend sources .empty)).after
      history).cleared.state.bench
  rw [finished] at compiled
  have given := (Prod.mk.inj compiled).1
  generalize eval (directSource (backend sources .empty) _) _ = r at given outcome
  obtain ⟨_ | x, w⟩ := r
  · cases given
  obtain rfl : x = plan := by simpa [Except.map] using given
  exact outcome.ok x rfl unprovided

/-- **The columns of a statement have the own names of its features.** These are the names of its
schema, and a field is found under its name at its own position from every reference to the statement,
exactly where the own names are distinct. -/
theorem output_columns_named {history : List Tree} {s : Source} {sel : List Feature}
    {pre : Option Feature} {grp : List Feature} {post : Option Feature} {ord : List OrderTerm}
    {rows : Option RowRange}
    (unprovided : sources.get? (.query s sel pre grp post ord rows) = none) {plan : SourcePlan}
    {t : Translator SourcePlan FeaturePlan}
    (compiled : (translatorAfter sources history).serve
      (.finish (.source (.query s sel pre grp post ord rows))) = (.ok (some (.source plan)), t))
    {catalog : Catalog} {d : Dataset} (evaluated : plan catalog = .ok d) :
    let q := Source.query s sel pre grp post ord rows
    d.names = ownNames 0 q.features ∧
      (d.names = q.schema.fields.map NamedField.name ↔ (ownNames 0 q.features).Nodup) ∧
      ∀ origin : String, (∀ i (field : NamedField), q.schema.fields[i]? = some field →
        (d.qualify origin).find? field.name (some origin) = some i) ↔
          (ownNames 0 q.features).Nodup := by
  intro q
  have named : d.names = ownNames 0 q.features := outputs_named unprovided compiled catalog d evaluated
  have same : d.names = q.schema.fields.map NamedField.name ↔ (ownNames 0 q.features).Nodup := by
    rw [named, eq_comm]
    exact Source.fields_eq_ownNames
  refine ⟨named, same, fun origin => ?_⟩
  simp only [Dataset.find?_qualify]
  constructor
  · -- A field that is found at its own position has the name of the column there.
    intro found
    refine same.1 (List.ext_getElem? fun i => ?_)
    cases hi : q.schema.fields[i]? with
    | none =>
      have short : q.schema.fields.length ≤ i := List.getElem?_eq_none_iff.1 hi
      rw [List.getElem?_map, hi, named]
      refine List.getElem?_eq_none_iff.2 ?_
      rw [ownNames_length]
      rwa [Source.schema_fields, Source.fields, nameFields_length] at short
    | some field =>
      obtain ⟨bound, hit, -⟩ := List.findIdx?_eq_some_iff_getElem.1 (found i field hi)
      rw [List.getElem?_map, hi, List.getElem?_eq_getElem bound]
      simpa using hit
  · intro distinct i field hi
    have names := same.2 distinct
    refine findIdx?_self_iff_nodup.2 (named ▸ distinct) i field.name ?_
    rw [names, List.getElem?_map, hi]
    rfl

/-! ### Columns of given statements -/

/-- The data of a plan on a catalog, if a translation ends in a plan that can be evaluated there. -/
def dataOf (r : Except Fault (Option (Translation.Symbol SourcePlan FeaturePlan))) (catalog : Catalog) :
    Option Dataset :=
  match r with
  | .ok (some (.source plan)) =>
    match plan catalog with
    | .ok d    => some d
    | .error _ => none
  | _ => none

theorem evaluated_of_dataOf {α : Type} {g : Dataset → α} {a : α}
    {p : Except Fault (Option (Translation.Symbol SourcePlan FeaturePlan)) ×
      Translator SourcePlan FeaturePlan} {catalog : Catalog} (h : (dataOf p.1 catalog).map g = some a) :
    ∃ plan t d, p = (.ok (some (.source plan)), t) ∧ plan catalog = .ok d ∧ g d = a := by
  obtain ⟨r, t⟩ := p
  obtain ⟨d, hd, rfl⟩ := Option.map_eq_some_iff.1 h
  dsimp only [dataOf] at hd
  split at hd
  · rename_i plan
    split at hd
    · rename_i evaluated
      exact ⟨plan, t, d, rfl, Option.some.inj hd ▸ evaluated, rfl⟩
    · cases hd
  · cases hd

/-- The rows of data as texts. -/
def textsOfRows (d : Dataset) : List (List String) := d.rows.map fun row => row.map Value.plain

/-- An anonymous feature and an alias that looks like the name of one have columns of their own. -/
theorem output_columns_named_of_alias :
    let student : Source := .table ⟨"student", [("surname", ⟨.primitive .string, "surname"⟩),
      ("id", ⟨.primitive .integer, "id"⟩)]⟩
    let surname : Feature := .element student "surname" (.primitive .string)
    let missing : Feature := .expression .isNull [surname] none
    let q : Source := .query student [surname, missing, .aliased surname "_0"] none [] none [] none
    let catalog : Catalog := [("student", ⟨[⟨"surname", none⟩, ⟨"id", none⟩],
      [[.text "Smith", .null], [.number (.ofNat 1), .number (.ofNat 2)]], 2⟩)]
    ∃ plan t d, (translatorAfter .empty []).serve (.finish (.source q))
        = (.ok (some (.source plan)), t) ∧ plan catalog = .ok d ∧
      d.names = ["surname", "_1", "_0"] ∧ d.names = q.schema.fields.map NamedField.name ∧
      ∀ i (field : NamedField), q.schema.fields[i]? = some field →
        (d.qualify "s").find? field.name (some "s") = some i := by
  intro student surname missing q catalog
  have names : (dataOf ((translatorAfter .empty []).serve (.finish (.source q))).1 catalog).map
      Dataset.names = some ["surname", "_1", "_0"] := by decide +kernel
  obtain ⟨plan, t, d, compiled, evaluated, names⟩ := evaluated_of_dataOf names
  have named := output_columns_named rfl compiled evaluated
  have distinct : (ownNames 0 q.features).Nodup := by decide +kernel
  exact ⟨plan, t, d, compiled, evaluated, names, named.2.1.2 distinct, (named.2.2 "s").2 distinct⟩

/-- A column that is selected twice is labelled alike twice, while the schema names the second one by
its position: from a reference no column is found under that name. -/
theorem output_columns_repeat :
    let student : Source := .table ⟨"student", [("surname", ⟨.primitive .string, "surname"⟩),
      ("id", ⟨.primitive .integer, "id"⟩)]⟩
    let surname : Feature := .element student "surname" (.primitive .string)
    let q : Source := .query student [surname, surname] none [] none [] none
    let catalog : Catalog := [("student", ⟨[⟨"surname", none⟩, ⟨"id", none⟩],
      [[.text "Smith", .null], [.number (.ofNat 1), .number (.ofNat 2)]], 2⟩)]
    q.Built ∧ ∃ plan t d, (translatorAfter .empty []).serve (.finish (.source q))
        = (.ok (some (.source plan)), t) ∧ plan catalog = .ok d ∧
      d.names = ["surname", "surname"] ∧
      q.schema.fields.map NamedField.name = ["surname", "_1"] ∧
      (d.qualify "s").find? "_1" (some "s") = none := by
  intro student surname q catalog
  have table : student.Built := .of_distinct rfl
  have column : surname.Built := .element table (show student.get "surname" = .ok _ from rfl)
  have within : surname.Within (elementsIn student.features) := by decide +kernel
  have built : q.Built := table.selecting (by simpa using column) (by simpa using within)
  have names : (dataOf ((translatorAfter .empty []).serve (.finish (.source q))).1 catalog).map
      Dataset.names = some ["surname", "surname"] := by decide +kernel
  obtain ⟨plan, t, d, compiled, evaluated, names⟩ := evaluated_of_dataOf names
  refine ⟨built, plan, t, d, compiled, evaluated, names, by decide +kernel, ?_⟩
  rw [Dataset.find?_qualify, names]
  decide

end Evaluation

end QueryAlgebra
