import QueryAlgebra.Proofs.Translation.Readings
import QueryAlgebra.Proofs.Tree.Factors

/-!
# Columns that a scope registers

* `Feature.columns`: the elements of tables inside a feature, as they are met.
* `Feature.factor_columns`: the factor of a predicate for a table speaks about columns of that table
  alone, and they are columns of the predicate.
* `Readings.Registers`: what a scope reads from its tables are given columns, each with its table, and
  its factors speak about no others.
* `Readings.Registers.registerClauses`, `Readings.Registers.filterBy`: what statements and conditions
  of joins register are the columns inside them.
-/

namespace QueryAlgebra

namespace Feature

/-- The elements of tables inside a feature, as they are met. -/
def columns (f : Feature) : List Feature := f.elements.filter fun e => e.table?.isSome

/-- The key of the table that an element belongs to. -/
def tableKey? (f : Feature) : Option String := f.table?.map Schema.key

theorem table?_eq_some {e : Feature} {t : Schema} (h : e.table? = some t) :
    ∃ n k, e = .element (.table t) n k := by
  unfold table? at h
  split at h
  · exact ⟨_, _, by rw [Option.some.inj h]⟩
  · cases h

theorem mem_columns {c f : Feature} : c ∈ f.columns ↔ c ∈ f.elements ∧ c.table?.isSome = true :=
  List.mem_filter

theorem Obeys.columns {p : Rules} {f : Feature} (h : f.Obeys p) : ∀ c ∈ f.columns, c.Obeys p :=
  fun c hc => h.elements c (mem_columns.1 hc).1

theorem columns_self {c : Feature} (h : c.table?.isSome = true) : c.columns = [c] := by
  unfold columns table? at *
  split at h
  · rfl
  · simp at h

theorem columns_eq {f : Feature} (h : f.isElement = false) :
    f.columns = f.children.flatMap columns := by
  unfold columns
  rw [elements_eq, h, if_neg (by simp), List.filter_flatMap]

/-- The key of an element tells the table that it belongs to, if any. -/
theorem tableKey?_eq_of_key {f g : Feature} (hf : f.Obeys .distinct) (hg : g.Obeys .distinct)
    (h : f.key = g.key) : f.tableKey? = g.tableKey? := by
  have canonical : ∀ f : Feature, f.canonical.tableKey? = f.tableKey? := by
    intro f
    cases f with
    | element s n k => cases s <;> simp [Feature.canonical, Source.canonical, tableKey?, table?,
        Schema.key_canonical]
    | _ => rfl
  rw [← canonical f, canonical_eq_of_key hf hg h, canonical g]

theorem isSome_tableKey? (f : Feature) : f.tableKey?.isSome = f.table?.isSome := Option.isSome_map

end Feature

/-- The elements of tables inside features. -/
def columnsOf (fs : List Feature) : List Feature := fs.flatMap Feature.columns

theorem mem_columnsOf {c : Feature} {fs : List Feature} :
    c ∈ columnsOf fs ↔ ∃ f ∈ fs, c ∈ f.columns := List.mem_flatMap

theorem columnsOf_append (fs gs : List Feature) :
    columnsOf (fs ++ gs) = columnsOf fs ++ columnsOf gs := List.flatMap_append

/-! ### Sets of columns -/

/-- **The columns inside features** are the elements of tables inside them, one for each key. -/
theorem key_mem_columnsIn {fs : List Feature} (hfs : ∀ f ∈ fs, f.Obeys .distinct) {k : String} :
    (∃ c ∈ columnsIn fs, c.key = k) ↔ ∃ c ∈ columnsOf fs, c.key = k := by
  constructor
  · rintro ⟨c, hc, rfl⟩
    obtain ⟨hc, table⟩ := List.mem_filter.1 hc
    obtain ⟨f, hf, hcf⟩ := mem_elementsIn hc
    exact ⟨c, mem_columnsOf.2 ⟨f, hf, Feature.mem_columns.2 ⟨hcf, table⟩⟩, rfl⟩
  · rintro ⟨c, hc, rfl⟩
    obtain ⟨f, hf, hcf⟩ := mem_columnsOf.1 hc
    obtain ⟨inside, table⟩ := Feature.mem_columns.1 hcf
    have known := (hasKey_elementsIn hfs).2 ⟨f, hf, List.mem_map_of_mem inside⟩
    obtain ⟨d, hd, hdc⟩ := (KeyedSet.Proper.ofList _).hasKey.1 known
    refine ⟨d, List.mem_filter.2 ⟨hd, ?_⟩, hdc⟩
    obtain ⟨g, hg, hdg⟩ := mem_elementsIn hd
    rw [← Feature.isSome_tableKey?, Feature.tableKey?_eq_of_key ((hfs g hg).elements d hdg)
      ((hfs f hf).elements c inside) hdc, Feature.isSome_tableKey?, table]

theorem mem_columnsIn {fs : List Feature} {c : Feature} (h : c ∈ columnsIn fs) :
    c ∈ columnsOf fs := by
  obtain ⟨hc, table⟩ := List.mem_filter.1 h
  obtain ⟨f, hf, hcf⟩ := mem_elementsIn hc
  exact mem_columnsOf.2 ⟨f, hf, Feature.mem_columns.2 ⟨hcf, table⟩⟩

/-! ### Factors -/

/-- Where a feature speaks about one table alone, all columns inside it belong to that table. -/
theorem tableKey?_of_tablesIn {f : Feature} (hf : f.Obeys .distinct) {t : Schema}
    (h : tablesIn f = [t]) : ∀ c ∈ f.columns, c.tableKey? = some t.key := by
  intro c hc
  have distinct : ∀ g ∈ [f], g.Obeys .distinct := by simpa using hf
  obtain ⟨d, hd, hdc⟩ := (key_mem_columnsIn distinct).2 ⟨c, mem_columnsOf.2 ⟨f, by simp, hc⟩, rfl⟩
  have same : d.tableKey? = c.tableKey? := by
    obtain ⟨g, hg, hdg⟩ := mem_columnsOf.1 (mem_columnsIn hd)
    exact Feature.tableKey?_eq_of_key ((distinct g hg).columns d hdg) (hf.columns c hc) hdc
  obtain ⟨u, hu⟩ := Option.isSome_iff_exists.1 (List.mem_filter.1 hd).2
  have known : (KeyedSet.ofList ((columnsIn [f]).filterMap Feature.table?)).hasKey u.key = true :=
    KeyedSet.hasKey_ofList.2 ⟨u, List.mem_filterMap.2 ⟨d, hd, hu⟩, rfl⟩
  obtain ⟨v, hv, hvu⟩ := (KeyedSet.Proper.ofList _).hasKey.1 known
  rw [show (KeyedSet.ofList ((columnsIn [f]).filterMap Feature.table?)).toList = [t] from h,
    List.mem_singleton] at hv
  rw [← same, Feature.tableKey?, hu, Option.map_some, ← show v.key = u.key from hvu, hv]

namespace Feature

/-- The columns inside a factor belong to its table and lie inside the predicate. -/
def Speaks (p : Feature) (t : Schema) (q : Feature) : Prop :=
  ∀ c ∈ q.columns, c ∈ p.columns ∧ c.tableKey? = some t.key

theorem columns_unite {op : Operator} {a b : Feature} :
    ∀ c ∈ (unite op a b).columns, c ∈ a.columns ∨ c ∈ b.columns := by
  intro c hc
  obtain ⟨inside, table⟩ := mem_columns.1 hc
  exact (elements_unite c inside).imp (fun h => mem_columns.2 ⟨h, table⟩) fun h => mem_columns.2 ⟨h, table⟩

theorem FactorFrom.tableKey {p q : Feature} {t : Schema} (h : FactorFrom p t q) :
    p.Obeys .distinct → ∀ c ∈ q.columns, c.tableKey? = some t.key := by
  induction h with
  | whole _ _ own => exact fun hp => tableKey?_of_tablesIn hp own
  | part inner _ ih => exact fun hp => ih (hp.children _ inner)
  | united _ key _ _ ihf ihg =>
    intro hp c hc
    rcases columns_unite c hc with hc | hc
    · exact ihf hp c hc
    · exact (ihg hp c hc).trans (congrArg some key.symm)

/-- **The factor of a predicate for a table** speaks about columns of that table alone, and they are
columns of the predicate. -/
theorem factor_columns {t : Schema} (p : Feature) (hp : p.Obeys .distinct) (q : Feature)
    (h : p.factors.get? t = some q) : p.Speaks t q := by
  obtain ⟨e, he, key, rfl⟩ := (factors_proper p).mem_of_get? h
  have made := factorFrom p e he
  intro c hc
  obtain ⟨inside, table⟩ := mem_columns.1 hc
  exact ⟨mem_columns.2 ⟨made.inside c inside, table⟩,
    (made.tableKey hp c hc).trans (congrArg some key)⟩

end Feature

namespace Translation

/-! ### What is registered -/

namespace Readings

theorem reading_set (ts : Readings) (t u : Schema) (r : Reading) :
    reading (ts.set u r) t = if u.key = t.key then r else ts.reading t := by
  unfold reading
  split
  · rename_i hk
    rw [KeyedMap.get?_set_of_eq (a := u) _ _ hk]
    rfl
  · rename_i hk
    rw [KeyedMap.get?_set_of_ne (a := u) _ _ (Ne.symm hk)]

theorem reading_congr (ts : Readings) {t u : Schema} (h : u.key = t.key) :
    ts.reading u = ts.reading t := by
  unfold reading
  rw [ts.get?_congr (a := u) (b := t) h]

/-- What is registered are the given columns, each with its table, and no factor speaks about
others. -/
structure Registers (ts : Readings) (cs : List Feature) : Prop where
  proper  : ∀ t, (ts.reading t).columns.Proper
  own     : ∀ t, ∀ c ∈ (ts.reading t).columns.toList, c.tableKey? = some t.key
  columns : ∀ t k, (ts.reading t).columns.hasKey k = true ↔
    ∃ c ∈ cs, c.tableKey? = some t.key ∧ c.key = k
  factors : ∀ t, ∀ q ∈ (ts.reading t).factors.toList, ∀ c ∈ q.columns,
    (ts.reading t).columns.hasKey c.key = true

namespace Registers

variable {ts : Readings} {cs ds : List Feature}

theorem empty : Registers .empty [] where
  proper _ := .empty
  own _ := by simp [reading, KeyedMap.empty, KeyedMap.get?, KeyedMap.entry?, Assoc.find?,
    Reading.empty, KeyedSet.empty, KeyedSet.toList]
  columns _ _ := by simp [reading, KeyedMap.empty, KeyedMap.get?, KeyedMap.entry?, Assoc.find?,
    Reading.empty, KeyedSet.empty, KeyedSet.hasKey, Assoc.has]
  factors _ := by simp [reading, KeyedMap.empty, KeyedMap.get?, KeyedMap.entry?, Assoc.find?,
    Reading.empty, KeyedSet.empty, KeyedSet.toList]

theorem congr (h : ts.Registers cs)
    (same : ∀ t k, (∃ c ∈ cs, c.tableKey? = some t ∧ c.key = k) ↔
      ∃ c ∈ ds, c.tableKey? = some t ∧ c.key = k) : ts.Registers ds :=
  ⟨h.proper, h.own, fun t k => (h.columns t k).trans (same t.key k), h.factors⟩

theorem touch (h : ts.Registers cs) (t : Schema) : (ts.touch t).Registers cs := by
  unfold Readings.touch
  split
  · exact h
  · rename_i new
    have same : ∀ u, reading (ts.set t .empty) u = ts.reading u := by
      intro u
      rw [reading_set]
      split
      · rename_i hk
        rw [← reading_congr ts hk, reading, new]
        rfl
      · rfl
    exact ⟨fun u => same u ▸ h.proper u, fun u => same u ▸ h.own u, fun u => same u ▸ h.columns u,
      fun u => same u ▸ h.factors u⟩

theorem addColumn (h : ts.Registers cs) {c : Feature} {u : Schema} (hc : c.table? = some u) :
    (ts.addColumn c).Registers (cs ++ [c]) := by
  have added : ts.addColumn c
      = ts.set u { ts.reading u with columns := (ts.reading u).columns.add c } := by
    unfold Readings.addColumn
    rw [hc]
  have keys : c.tableKey? = some u.key := by rw [Feature.tableKey?, hc]; rfl
  rw [added]
  refine ⟨fun t => ?_, fun t => ?_, fun t k => ?_, fun t => ?_⟩ <;> rw [reading_set] <;> split
  · exact (h.proper u).add c
  · exact h.proper t
  · rename_i hk
    intro d hd
    rw [← hk]
    rcases KeyedSet.mem_toList_add hd with rfl | hd
    · exact keys
    · exact h.own u d hd
  · exact h.own t
  · rename_i hk
    rw [KeyedSet.hasKey_add, Bool.or_eq_true, beq_iff_eq, h.columns u k]
    simp only [List.mem_append, List.mem_singleton, or_and_right, exists_or, exists_eq_left, keys, hk,
      true_and, eq_comm (a := k)]
    exact or_comm
  · rename_i hk
    simp [h.columns t k, or_and_right, exists_or, keys, hk]
  · intro q hq d hd
    show ((ts.reading u).columns.add c).hasKey d.key = true
    rw [KeyedSet.hasKey_add, h.factors u q hq d hd, Bool.or_true]
  · exact h.factors t

theorem addFactor (h : ts.Registers cs) (u : Schema) {p : Feature}
    (hp : ∀ c ∈ p.columns, (ts.reading u).columns.hasKey c.key = true) :
    (ts.addFactor u p).Registers cs := by
  have same : ∀ t, ((ts.addFactor u p).reading t).columns = (ts.reading t).columns := by
    intro t
    rw [Readings.addFactor, reading_set]
    split
    · rename_i hk
      rw [← reading_congr ts hk]
    · rfl
  refine ⟨fun t => same t ▸ h.proper t, fun t => same t ▸ h.own t, fun t => same t ▸ h.columns t,
    fun t q hq => ?_⟩
  rw [same]
  rw [Readings.addFactor, reading_set] at hq
  split at hq
  · rename_i hk
    rw [← reading_congr ts hk]
    rcases KeyedSet.mem_toList_add hq with rfl | hq
    · exact hp
    · exact h.factors u q hq
  · exact h.factors t q hq

theorem addColumns (h : ts.Registers cs) {ds : List Feature}
    (hds : ∀ d ∈ ds, d.table?.isSome = true) : (ds.foldl Readings.addColumn ts).Registers (cs ++ ds) := by
  induction ds generalizing ts cs with
  | nil => simpa using h
  | cons d r ih =>
    obtain ⟨hd, hr⟩ := List.forall_mem_cons.1 hds
    obtain ⟨u, hu⟩ := Option.isSome_iff_exists.1 hd
    simpa using ih (h.addColumn hu) hr

theorem select (h : ts.Registers cs) {fs : List Feature} (hfs : ∀ f ∈ fs, f.Obeys .distinct) :
    (ts.select fs).Registers (cs ++ columnsOf fs) := by
  have added : (ts.select fs).Registers (cs ++ columnsIn fs) :=
    h.addColumns fun d hd => (List.mem_filter.1 hd).2
  refine added.congr fun t k => ?_
  simp only [List.mem_append, or_and_right, exists_or]
  refine or_congr Iff.rfl ?_
  -- The one list has a column of each key in the other, and the key tells the table.
  have told : ∀ c d, c ∈ columnsOf fs → d ∈ columnsOf fs → d.key = c.key →
      d.tableKey? = c.tableKey? := by
    intro c d hc hd same
    obtain ⟨f, hf, hc⟩ := mem_columnsOf.1 hc
    obtain ⟨g, hg, hd⟩ := mem_columnsOf.1 hd
    exact Feature.tableKey?_eq_of_key ((hfs g hg).columns d hd) ((hfs f hf).columns c hc) same
  constructor
  · rintro ⟨c, hc, table, key⟩
    exact ⟨c, mem_columnsIn hc, table, key⟩
  · rintro ⟨c, hc, table, rfl⟩
    obtain ⟨d, hd, same⟩ := (key_mem_columnsIn hfs).2 ⟨c, hc, rfl⟩
    exact ⟨d, hd, (told c d hc (mem_columnsIn hd) same).trans table, same⟩

theorem filter (h : ts.Registers cs) {p : Feature} (hp : p.Obeys .distinct) :
    (ts.filter p).Registers (cs ++ p.columns) := by
  have selected : (ts.select [p]).Registers (cs ++ p.columns) := by
    simpa [columnsOf] using h.select (show ∀ f ∈ [p], f.Obeys .distinct by simpa using hp)
  have factors : ∀ e ∈ p.factors.toList, p.Speaks e.1 e.2 := fun e he =>
    Feature.factor_columns p hp e.2 ((Feature.factors_proper p).get?_of_mem he)
  unfold Readings.filter
  generalize p.factors.toList = es at factors
  generalize ts.select [p] = us at selected
  induction es generalizing us with
  | nil => exact selected
  | cons e r ih =>
    obtain ⟨he, hr⟩ := List.forall_mem_cons.1 factors
    refine ih hr _ (selected.addFactor e.1 fun c hc => ?_)
    obtain ⟨inside, table⟩ := he c hc
    exact (selected.columns e.1 c.key).2 ⟨c, List.mem_append_right _ inside, table, rfl⟩

/-- Conditions of joins register the columns inside them. -/
theorem filterBy (h : ts.Registers cs) {c : Option Feature} (hc : ∀ p ∈ c, p.Obeys .distinct) :
    (ts.filterBy c).Registers (cs ++ columnsOf c.toList) := by
  cases c with
  | none => simpa [columnsOf, Readings.filterBy] using h
  | some p => simpa [columnsOf, Readings.filterBy] using h.filter (hc p rfl)

/-- **Statements register the columns inside their clauses.** -/
theorem registerClauses {outputs : List Feature} {pre : Option Feature} {grp : List Feature}
    {post : Option Feature} {ord : List OrderTerm} (houtputs : ∀ f ∈ outputs, f.Obeys .distinct)
    (hpre : ∀ f ∈ pre, f.Obeys .distinct) (hgrp : ∀ f ∈ grp, f.Obeys .distinct)
    (hpost : ∀ f ∈ post, f.Obeys .distinct) (hord : ∀ o ∈ ord, o.feature.Obeys .distinct) :
    (Translation.registerClauses outputs pre grp post ord .empty).Registers
      (columnsOf (outputs ++ pre.toList ++ post.toList ++ grp ++ ord.map OrderTerm.feature)) := by
  have hord : ∀ f ∈ ord.map OrderTerm.feature, f.Obeys .distinct := List.forall_mem_map.2 hord
  have outs : (Readings.select .empty outputs).Registers (columnsOf outputs) := by
    simpa using empty.select houtputs
  have filtered := outs.filterBy hpre
  have grouped : ∀ {us : Readings} {ds : List Feature}, us.Registers ds →
      ((us.select grp).select (ord.map OrderTerm.feature)).Registers
        (ds ++ columnsOf grp ++ columnsOf (ord.map OrderTerm.feature)) :=
    fun h => (h.select hgrp).select hord
  simp only [columnsOf_append]
  unfold Translation.registerClauses
  cases post with
  | none =>
    rw [show columnsOf (none : Option Feature).toList = [] from rfl, List.append_nil]
    cases pre <;> exact grouped filtered
  | some p =>
    have posted := filtered.select (show ∀ f ∈ [p], f.Obeys .distinct by simpa using hpost p rfl)
    cases pre <;> exact grouped posted

/-- The columns that a scan of a table reads. -/
theorem fields (h : ts.Registers cs) (t : Schema) {k : String} :
    (∃ c ∈ (ts.reading t).fields, c.key = k) ↔ ∃ c ∈ cs, c.tableKey? = some t.key ∧ c.key = k := by
  rw [← h.columns t k, (h.proper t).hasKey]
  simp only [Reading.fields, mem_ordered]
  rfl

/-- The columns inside the predicate of a scan are among those that it reads. -/
theorem predicate (h : ts.Registers cs) (t : Schema) :
    ∀ q ∈ (ts.reading t).predicate, ∀ c ∈ q.columns,
      ∃ d ∈ cs, d.tableKey? = some t.key ∧ d.key = c.key := by
  refine anyOf_forall (P := fun q => ∀ c ∈ q.columns, ∃ d ∈ cs, d.tableKey? = some t.key ∧
    d.key = c.key) (fun op _ a b ha hb c hc => ?_)
    fun q hq c hc => (h.columns t c.key).1 (h.factors t q hq c hc)
  rw [Feature.columns_eq rfl] at hc
  rcases (by simpa [Feature.children] using hc : c ∈ a.columns ∨ c ∈ b.columns) with hc | hc
  · exact ha c hc
  · exact hb c hc

end Registers

end Readings

end Translation

end QueryAlgebra
