import QueryAlgebra.Proofs.Evaluation.Rows
import QueryAlgebra.Proofs.Translation.Columns
import QueryAlgebra.Proofs.Translation.Ready
import QueryAlgebra.Proofs.Tree.Kinds

/-!
# Factors that a scan can evaluate

The factor of a predicate for a table is found by the columns of tables inside it. Elements of other origins
do not count: a factor is exclusive to its table exactly if it holds none.

* `Feature.ColumnOf`, `Feature.ExclusiveTo`: an element is a column of a table; all elements inside are.
* `FactorFrom.mentions`, `FactorFrom.columnOf`: a factor speaks about its table, and about no other.
* `Feature.ScanEvaluates`: data with the columns of a table is enough to evaluate a feature.
* `factors_exclusive`: what the elements inside a factor are, and when a scan of its table can evaluate it.
-/

namespace QueryAlgebra

open Evaluation Translation Dataset

/-! ### Columns of a table -/

/-- Columns of tables have the name and the kind of a field of the table. -/
def Rules.fielded : Rules where
  feature
    | .element (.table t) n k => ⟨k, n⟩ ∈ t.fields
    | _                       => True
  source _ := True

theorem Rules.ensures_fielded : Rules.none.Ensures .fielded where
  feature f built _ := by
    cases f with
    | element s n k =>
      cases s with
      | table t => exact built.field_of_element
      | _ => trivial
    | _ => trivial
  source _ _ _ := trivial

namespace Feature

/-- The element is a column of the table: it belongs to a table with the same fields, and has the name and
the kind of one of them. -/
def ColumnOf (t : Schema) (e : Feature) : Prop :=
  ∃ u n k, e = .element (.table u) n k ∧ u.fields = t.fields ∧ ⟨k, n⟩ ∈ t.fields

/-- All elements inside the feature are columns of the table. -/
def ExclusiveTo (t : Schema) (f : Feature) : Prop := ∀ e ∈ f.elements, e.ColumnOf t

theorem ColumnOf.isSome_table? {t : Schema} {e : Feature} (h : e.ColumnOf t) : e.table?.isSome = true := by
  obtain ⟨u, n, k, rfl, -, -⟩ := h
  rfl

/-- A table that a feature is found to speak about has a column inside it. -/
theorem column_of_tablesIn {f : Feature} {t : Schema} (h : t ∈ tablesIn f) :
    ∃ n k, .element (.table t) n k ∈ f.elements := by
  obtain ⟨c, hc, table⟩ := List.mem_filterMap.1 (KeyedSet.mem_toList_ofList h)
  obtain ⟨g, hg, inside⟩ := mem_columnsOf.1 (mem_columnsIn hc)
  obtain rfl := List.mem_singleton.1 hg
  obtain ⟨n, k, rfl⟩ := table?_eq_some table
  exact ⟨n, k, (mem_columns.1 inside).1⟩

/-! ### What factors are made of -/

namespace FactorFrom

variable {p q : Feature} {t : Schema}

/-- A factor speaks about its table. -/
theorem mentions (h : FactorFrom p t q) : ∃ n k, .element (.table t) n k ∈ q.elements := by
  induction h with
  | whole _ _ own => exact column_of_tablesIn (own ▸ List.mem_singleton_self _)
  | part _ _ ih => exact ih
  | united _ _ _ _ ih _ =>
    obtain ⟨n, k, he⟩ := ih
    exact ⟨n, k, elements_unite_left _ he⟩

/-- The columns of tables inside a factor are columns of its table. -/
theorem columnOf (h : FactorFrom p t q) (distinct : p.Obeys .distinct) (fielded : p.Obeys .fielded) :
    ∀ e ∈ q.elements, e.table?.isSome = true → e.ColumnOf t := by
  intro e he table
  obtain ⟨u, hu⟩ := Option.isSome_iff_exists.1 table
  obtain ⟨n, k, rfl⟩ := table?_eq_some hu
  obtain ⟨m, l, hm⟩ := h.mentions
  have inside := h.inside _ he
  have key : u.key = t.key := by
    have own := h.tableKey distinct _ (mem_columns.2 ⟨he, table⟩)
    simpa [tableKey?, table?] using own
  have keys : (Feature.element (.table u) n k).key = (Feature.element (.table t) n l).key := by
    simp [Feature.key, Source.key, key]
  have other : (Feature.element (.table t) n l).Obeys .distinct :=
    ⟨trivial, (distinct.elements _ (h.inside _ hm)).2⟩
  have fields := (fields_eq_of_key (distinct.elements _ inside) other keys).1
  exact ⟨u, n, k, rfl, fields, fields ▸ (fielded.elements _ inside).1⟩

end FactorFrom

/-! ### Scans -/

/-- Data that has a column for each field of the table is enough to evaluate the feature: all columns that
it asks for are there, and its value at a row depends on them alone. -/
structure ScanEvaluates (t : Schema) (f : Feature) : Prop where
  reads : ∀ b : Batch, (∀ c ∈ t.fields, ⟨c.name, none⟩ ∈ b.data.refs) → ∀ s n k,
    .element s n k ∈ f.elements → (FeaturePlan.element s n).Evaluates b
  alone : ∀ read read' : Source → String → Value,
    (∀ u : Schema, u.fields = t.fields → ∀ c ∈ t.fields, read (.table u) c.name = read' (.table u) c.name) →
      f.valueAt read = f.valueAt read'

theorem ExclusiveTo.scanEvaluates {t : Schema} {f : Feature} (h : f.ExclusiveTo t) : f.ScanEvaluates t where
  reads b columns s n k he := by
    obtain ⟨u, n, k, same, -, field⟩ := h _ he
    obtain ⟨rfl, rfl, rfl⟩ := Feature.element.inj same
    have found : (b.data.find? n (some (Source.table u).label)).isSome = true := by
      rw [find?, Option.isSome_or, Bool.or_eq_true, List.findIdx?_isSome, List.findIdx?_isSome]
      exact .inr (List.any_eq_true.2 ⟨_, columns _ field, decide_eq_true rfl⟩)
    obtain ⟨i, hi⟩ := Option.isSome_iff_exists.1 found
    obtain ⟨d, groups⟩ := b
    cases groups <;> exact ⟨_, bind_eq_ok.2 ⟨_, column_eq_ok.2 ⟨i, hi, rfl⟩, rfl⟩⟩
  alone read read' same := by
    refine valueAt_congr f fun s n k he => ?_
    obtain ⟨u, n, k, eq, fields, field⟩ := h _ he
    obtain ⟨rfl, rfl, rfl⟩ := Feature.element.inj eq
    exact same u fields _ field

end Feature

/-- **Factors are exclusive up to elements of other origins than tables.** A factor of a predicate is a
predicate itself, and speaks about its table. Every element inside it is one of the predicate: a column of
that table, or no column of any table. So it is exclusive to the table exactly if all elements inside it
belong to tables, as they do if all elements of the predicate belong to tables, and a scan of the table can
evaluate it then. -/
theorem factors_exclusive {p : Feature} (built : p.Built) (free : p.Obeys .structFree) :
    ∀ e ∈ p.factors.toList, e.2.kind = .primitive .boolean ∧
      (∃ n k, .element (.table e.1) n k ∈ e.2.elements) ∧
      (∀ d ∈ e.2.elements, d ∈ p.elements ∧ (d.ColumnOf e.1 ∨ d.table? = none)) ∧
      (e.2.ExclusiveTo e.1 ↔ e.2.Tabular) ∧ (p.Tabular → e.2.Tabular) ∧
      (e.2.Tabular → e.2.ScanEvaluates e.1) := by
  intro e he
  have made := Feature.factorFrom p e he
  have columns := made.columnOf (built.distinct free) (built.obeys Rules.ensures_fielded p p.obeys_none)
  have exclusive : e.2.ExclusiveTo e.1 ↔ e.2.Tabular :=
    ⟨fun h d hd => (h d hd).isSome_table?, fun h d hd => columns d hd (h d hd)⟩
  refine ⟨Kind.eq_of_isBoolean made.boolean, made.mentions, fun d hd => ⟨made.inside d hd, ?_⟩, exclusive,
    fun h d hd => h d (made.inside d hd), fun h => (exclusive.2 h).scanEvaluates⟩
  by_cases table : d.table?.isSome = true
  · exact .inl (columns d hd table)
  · exact .inr (by simpa using table)

/-- Of a conjunction one factor is exclusive to its table, the other one holds an element of a reference. -/
theorem factors_exclusive_of_conjunction :
    let school : Schema := ⟨"school", [("name", ⟨.primitive .string, "name"⟩)]⟩
    let student : Schema := ⟨"student", [("id", ⟨.primitive .integer, "id"⟩)]⟩
    let missing : Feature := .expression .isNull [.element (.table school) "name" (.primitive .string)] none
    let same : Feature := .expression .eq [.element (.table student) "id" (.primitive .integer),
      .element (.reference (.table student) "s") "id" (.primitive .integer)] none
    let both : Feature := .expression .and [missing, same] none
    both.Built ∧ both.Obeys .structFree ∧ both.factors.toList = [(school, missing), (student, same)] ∧
      missing.ScanEvaluates school ∧ ¬same.ExclusiveTo student := by
  intro school student missing same both
  have hschool : (Source.table school).Built := .of_distinct rfl
  have hstudent : (Source.table student).Built := .of_distinct rfl
  have hmissing : missing.Built := built_test hschool rfl rfl
  have hid : (Feature.element (.table student) "id" (.primitive .integer)).Built :=
    .element hstudent (show (Source.table student).get "id" = .ok _ from rfl)
  have hother : (Feature.element (.reference (.table student) "s") "id" (.primitive .integer)).Built :=
    .element (.ref "s" hstudent) (show (Source.reference (.table student) "s").get "id" = .ok _ from rfl)
  have built : both.Built := built_pair hmissing (built_pair hid hother rfl) rfl
  have names : (Source.table school).Obeys .structFree := structFree_table rfl
  have ids : (Source.table student).Obeys .structFree := structFree_table rfl
  have free : both.Obeys .structFree := ⟨nofun, ⟨nofun, ⟨trivial, names⟩, trivial⟩,
    ⟨nofun, ⟨trivial, ids⟩, ⟨trivial, trivial, ids⟩, trivial⟩, trivial⟩
  have factors : both.factors.toList = [(school, missing), (student, same)] := by
    dsimp +zetaDelta only
    rfl
  obtain ⟨-, -, -, -, -, first⟩ := factors_exclusive built free (school, missing) (by simp [factors])
  obtain ⟨-, -, -, exclusive, -⟩ := factors_exclusive built free (student, same) (by simp [factors])
  have tabular : missing.Tabular := by
    simp [missing, Feature.Tabular, Feature.elements, elementsOf, Feature.table?]
  have mixed : ¬same.Tabular := by
    simp [same, Feature.Tabular, Feature.elements, elementsOf, Feature.table?]
  exact ⟨built, free, factors, first tabular, fun h => mixed (exclusive.1 h)⟩

/-- A comparison of a column of a table with an element of a reference is the factor of the table, although a
scan of the table alone knows nothing of the reference. -/
theorem factor_mixed :
    let student : Schema := ⟨"student", [("school", ⟨.primitive .integer, "school"⟩)]⟩
    let school : Source := .reference (.table ⟨"school", [("sid", ⟨.primitive .integer, "sid"⟩)]⟩) "s"
    let sid : Feature := .element school "sid" (.primitive .integer)
    let same : Feature := .expression .eq [.element (.table student) "school" (.primitive .integer), sid] none
    same.Built ∧ same.factors.toList = [(student, same)] ∧ sid ∈ same.elements ∧ ¬sid.ColumnOf student := by
  intro student school sid same
  have hstudent : (Source.table student).Built := .of_distinct rfl
  have hschool : school.Built := .ref "s" (.of_distinct rfl)
  have hsid : sid.Built := .element hschool (show school.get "sid" = .ok _ from rfl)
  have factors : same.factors.toList = [(student, same)] := by
    dsimp +zetaDelta only
    rfl
  have hcolumn : (Feature.element (.table student) "school" (.primitive .integer)).Built :=
    .element hstudent (show (Source.table student).get "school" = .ok _ from rfl)
  refine ⟨built_pair hcolumn hsid rfl, factors, ?_, fun h => ?_⟩
  · simp [same, sid, Feature.elements, elementsOf]
  · simpa [sid, school, Feature.table?] using h.isSome_table?

end QueryAlgebra
