import QueryAlgebra.Proofs.Evaluation.Grouping
import QueryAlgebra.Proofs.Translation.Replay
import QueryAlgebra.Proofs.Tree.Revised

/-!
# Pages of a statement

A row limit is applied to the positions of rows that are filtered, grouped and ordered, and before they
are projected. So it takes a slice of the rows of the statement and sees no other data than the statement
itself, and slices of one size put one after the other are the rows.

* `Answers`: a translator makes of a source a plan that gives data.
* `projected_iff`: the rows of a batch, ordered, limited and projected.
* `projected_limited`: a row limit takes a slice.
* `flatMap_slices`: a list is put together of its slices.
* `rows_of_pages`: the pages of a statement.
-/

namespace QueryAlgebra.Evaluation

open Translation Dataset

/-- The translator makes of the source a plan by which the catalog gives the data. -/
def Answers (t : Translator SourcePlan FeaturePlan) (q : Source) (catalog : Catalog) (d : Dataset) :
    Prop :=
  ∃ plan t', t.serve (.finish (.source q)) = (.ok (some (.source plan)), t') ∧ plan catalog = .ok d

theorem Answers.unique {t : Translator SourcePlan FeaturePlan} {q : Source} {catalog : Catalog}
    {d d' : Dataset} (h : Answers t q catalog d) (h' : Answers t q catalog d') : d = d' := by
  obtain ⟨plan, _, compiled, evaluated⟩ := h
  obtain ⟨plan', _, compiled', evaluated'⟩ := h'
  rw [compiled] at compiled'
  cases compiled'
  exact Except.ok.inj (evaluated.symm.trans evaluated')

/-! ### Projections -/

/-- Chosen rows of columns. -/
def chosenRows (refs : List ColumnId) (columns : List (List Value)) (positions : List Nat) : Dataset :=
  ⟨refs, columns.map fun c => positions.map (item c), positions.length⟩

theorem rows_chosenRows (refs : List ColumnId) (columns : List (List Value)) (positions : List Nat) :
    (chosenRows refs columns positions).rows = positions.map fun i => columns.map fun c => item c i := by
  refine List.ext_getElem (by simp [rows, chosenRows]) fun k _ bound => ?_
  have inside : k < positions.length := by simpa using bound
  simp [rows, row, chosenRows, item, inside]

theorem ofColumns_chosenRows {refs : List ColumnId} {columns : List (List Value)}
    (width : refs.length = columns.length) (positions : List Nat) :
    ofColumns refs (columns.map fun c => positions.map (item c)) (some positions.length)
      = .ok (chosenRows refs columns positions) := by
  have checked : (refs.zip (columns.map fun c => positions.map (item c))).forM
      (checkColumn positions.length) = .ok () := by
    refine forM_ok fun p hp => if_pos ?_
    obtain ⟨c, -, same⟩ := List.mem_map.1 (List.of_mem_zip hp).2
    rw [← same, List.length_map]
  unfold ofColumns
  rw [if_pos (by simpa using width)]
  exact bind_eq_ok.2 ⟨(), checked, rfl⟩

theorem mapM_values (xs : List FeaturePlan) (b : Batch) (g : List Value → List Value) :
    (xs.mapM fun x => do return g (← x.values b)) = (do return (← xs.mapM fun x => x.values b).map g) := by
  induction xs with
  | nil => rfl
  | cons x r ih => simp only [List.mapM_cons, ih, bind_assoc, pure_bind, List.map_cons]

/-- **The rows of a batch, ordered, limited and projected.** -/
theorem projected_iff {xs : List FeaturePlan} {zs : List (OrderSymbol FeaturePlan)}
    {rows : Option RowRange} {b : Batch} {d : Dataset} :
    projected xs zs rows b = .ok d ↔ ∃ keys order columns, FeaturePlan.sortKeys zs b = .ok keys ∧
      arrange (List.range b.size) keys = .ok order ∧ (xs.mapM fun x => x.values b) = .ok columns ∧
      d = chosenRows (SourcePlan.outputRefs xs) columns (SourcePlan.limited rows order) := by
  have width : ∀ columns, (xs.mapM fun x => x.values b) = .ok columns →
      (SourcePlan.outputRefs xs).length = columns.length := fun columns h => by
    rw [← (mapM_eq_ok h).length_eq]
    simp [SourcePlan.outputRefs]
  unfold projected
  simp only [mapM_values, bind_assoc, pure_bind, bind_eq_ok]
  constructor
  · rintro ⟨keys, hkeys, order, horder, columns, hcolumns, made⟩
    rw [ofColumns_chosenRows (width columns hcolumns)] at made
    exact ⟨keys, order, columns, hkeys, horder, hcolumns, (Except.ok.inj made).symm⟩
  · rintro ⟨keys, order, columns, hkeys, horder, hcolumns, rfl⟩
    exact ⟨keys, hkeys, order, horder, columns, hcolumns, ofColumns_chosenRows (width columns hcolumns) _⟩

/-- **A row limit takes a slice of the rows.** -/
theorem projected_limited {xs : List FeaturePlan} {zs : List (OrderSymbol FeaturePlan)} {b : Batch}
    {d : Dataset} (h : projected xs zs none b = .ok d) (r : RowRange) :
    ∃ d', projected xs zs (some r) b = .ok d' ∧ d'.refs = d.refs ∧
      d'.length = min r.count (d.length - r.offset) ∧ d'.rows = (d.rows.drop r.offset).take r.count := by
  obtain ⟨keys, order, columns, hkeys, horder, hcolumns, rfl⟩ := projected_iff.1 h
  refine ⟨_, projected_iff.2 ⟨keys, order, columns, hkeys, horder, hcolumns, rfl⟩, rfl, ?_, ?_⟩
  · simp [chosenRows, SourcePlan.limited]
  · simp [rows_chosenRows, SourcePlan.limited, List.map_take, List.map_drop]

/-! ### Slices -/

/-- The first slices of a list are its first items. -/
theorem flatMap_slices {α : Type} (as : List α) (c n : Nat) :
    ((List.range n).flatMap fun k => (as.drop (k * c)).take c) = as.take (n * c) := by
  induction n with
  | zero => simp
  | succ n ih => rw [List.range_succ, List.flatMap_append, ih, Nat.succ_mul, List.take_add]; simp

/-- **The slices before the first empty one are the whole list.** -/
theorem exists_slices {α : Type} (as : List α) {c : Nat} (positive : 1 ≤ c) :
    ∃ n, (as.drop (n * c)).take c = [] ∧ (∀ k < n, (as.drop (k * c)).take c ≠ []) ∧
      ((List.range n).flatMap fun k => (as.drop (k * c)).take c) = as := by
  have empty_iff : ∀ k, (as.drop (k * c)).take c = [] ↔ as.length ≤ k * c := fun k => by
    rw [List.take_eq_nil_iff, List.drop_eq_nil_iff]
    omega
  have reached : ∃ n, as.length ≤ n * c := ⟨as.length, Nat.le_mul_of_pos_right _ positive⟩
  refine ⟨Nat.find reached, (empty_iff _).2 (Nat.find_spec reached), fun k less => ?_, ?_⟩
  · exact mt (empty_iff k).1 (Nat.find_min reached less)
  · rw [flatMap_slices, List.take_of_length_le (Nat.find_spec reached)]

/-! ### Pages -/

section

variable {sources : KeyedMap Source SourcePlan} {features : KeyedMap Feature FeaturePlan}
  {s : Source} {sel : List Feature} {pre : Option Feature} {grp : List Feature} {post : Option Feature}
  {ord : List OrderTerm}

/-- A statement gives data where its parts are evaluated. -/
theorem answers_statement {t : Translator SourcePlan FeaturePlan}
    (made : t.backend = backend sources features) (clean : t.state.Clean) {rows : Option RowRange}
    (unprovided : sources.get? (.query s sel pre grp post ord rows) = none) {catalog : Catalog}
    {d : Dataset} : Answers t (.query s sel pre grp post ord rows) catalog d ↔
      ∃ p, t.Yields s sel pre grp post ord p ∧
        SourcePlan.query p.source p.features p.filter p.groupby p.having p.orderby rows catalog
          = .ok d := by
  have finished := fun x => @Translator.finished_statement _ _ t s sel pre grp post ord clean rows
    (by rw [made]; exact unprovided) x
  constructor
  · rintro ⟨plan, t', compiled, evaluated⟩
    obtain ⟨p, yields, rfl⟩ := (finished plan).1 ⟨t', compiled⟩
    rw [made] at evaluated
    exact ⟨p, yields, evaluated⟩
  · rintro ⟨p, yields, evaluated⟩
    obtain ⟨t', compiled⟩ := (finished (p.query t.backend rows)).2 ⟨p, yields, rfl⟩
    refine ⟨_, t', compiled, ?_⟩
    rw [made]
    exact evaluated

/-- Before a page is asked for, a translator has been given nothing, or the statement itself or a page of
it, and then anything. -/
def Resumed (q : Option RowRange → Source) (later : List Tree) : Prop :=
  later = [] ∨ ∃ rows more, later = .source (q rows) :: more

/-- A statement with a row limit gives a slice of the rows of the statement without one. -/
theorem page_of_rows {t : Translator SourcePlan FeaturePlan} (made : t.backend = backend sources features)
    (clean : t.state.Clean) (unprovided : ∀ rows, sources.get? (.query s sel pre grp post ord rows) = none)
    {catalog : Catalog} {d : Dataset} (evaluated : Answers t (.query s sel pre grp post ord none) catalog d)
    {later : List Tree} (resumed : Resumed (.query s sel pre grp post ord) later) (r : RowRange) :
    ∃ d', Answers (t.after later) (.query s sel pre grp post ord (some r)) catalog d' ∧
      d'.refs = d.refs ∧ d'.length = min r.count (d.length - r.offset) ∧
      d'.rows = (d.rows.drop r.offset).take r.count := by
  obtain ⟨p, yields, all⟩ := (answers_statement made clean (unprovided none)).1 evaluated
  rw [query_eq] at all
  obtain ⟨data, kept, all⟩ := bind_eq_ok.1 all
  obtain ⟨b, batch, projects⟩ := bind_eq_ok.1 all
  obtain ⟨d', slice, shown⟩ := projected_limited projects r
  obtain ⟨same, still, -⟩ := Translator.after_keeps later clean
  have parts : (t.after later).Yields s sel pre grp post ord p := by
    obtain rfl | ⟨rows, more, rfl⟩ := resumed
    · exact yields
    · exact yields.again clean rows more
  refine ⟨d', (answers_statement (same.trans made) still (unprovided _)).2 ⟨p, parts, ?_⟩, shown⟩
  rw [query_eq]
  exact bind_eq_ok.2 ⟨data, kept, bind_eq_ok.2 ⟨b, batch, slice⟩⟩

/-- **The pages of a statement lose and repeat nothing.** A row limit leaves a slice of the rows that the
statement has without it, whether the translator compiles it at once or after the statement and other
pages; and the pages of one size, put one after the other up to the first empty one, are all rows. -/
theorem rows_of_pages {history : List Tree} (built : (Source.query s sel pre grp post ord none).Built)
    (unprovided : ∀ rows, sources.get? (.query s sel pre grp post ord rows) = none) {catalog : Catalog}
    {d : Dataset} (evaluated : Answers ((Translator.ofBackend (backend sources features)).after history)
      (.query s sel pre grp post ord none) catalog d) :
    let q := Source.query s sel pre grp post ord
    let t := fun later => (Translator.ofBackend (backend sources features)).after (history ++ later)
    (∀ (count offset : Value) (c o : Nat), count.natural? = some c → offset.natural? = some o →
      (q none).limit count offset = .ok (q (some ⟨c, o⟩))) ∧
    (∀ (c o : Nat) (later : List Tree), Resumed q later →
      ∃ d', Answers (t later) (q (some ⟨c, o⟩)) catalog d' ∧ d'.refs = d.refs ∧
        d'.length = min c (d.length - o) ∧ d'.rows = (d.rows.drop o).take c) ∧
    ∀ c : Nat, 1 ≤ c → ∀ (later : Nat → List Tree) (pages : Nat → Dataset),
      (∀ k, Resumed q (later k) ∧ Answers (t (later k)) (q (some ⟨c, k * c⟩)) catalog (pages k)) →
      ∃ n, (pages n).rows = [] ∧ (∀ k < n, (pages k).rows ≠ []) ∧
        ((List.range n).flatMap fun k => (pages k).rows) = d.rows := by
  intro q t
  obtain ⟨made, clean, -⟩ := Translator.after_keeps history
    (t := .ofBackend (backend sources features)) State.clean_fresh
  have slice : ∀ (c o : Nat) (later : List Tree), Resumed q later →
      ∃ d', Answers (t later) (q (some ⟨c, o⟩)) catalog d' ∧ d'.refs = d.refs ∧
        d'.length = min c (d.length - o) ∧ d'.rows = (d.rows.drop o).take c := fun c o later resumed => by
    have after : t later = Translator.after _ later := List.foldl_append
    rw [after]
    exact page_of_rows made clean unprovided evaluated resumed ⟨c, o⟩
  refine ⟨fun count offset c o hc ho => Source.limit_eq built hc ho, slice,
    fun c positive later pages answers => ?_⟩
  have rows : ∀ k, (pages k).rows = (d.rows.drop (k * c)).take c := fun k => by
    obtain ⟨d', hd', -, -, shown⟩ := slice c (k * c) (later k) (answers k).1
    rw [(answers k).2.unique hd', shown]
  simpa only [rows] using exists_slices d.rows positive

end

/-- Names in descending order, two to a page: on the second page is the last one. -/
theorem rows_of_pages_of_names :
    let q := Source.query (named "people") [nameIn "people"] none [] none
      [.by (nameIn "people") .descending]
    let catalog : Catalog := [("people", ⟨[⟨"name", none⟩],
      [[.text "Bob", .text "Cid", .text "Ann"]], 3⟩)]
    let t := (Translator.ofBackend (backend .empty .empty)).after
    (q none).Built ∧ (∀ rows, KeyedMap.empty.get? (q rows) = (none : Option SourcePlan)) ∧
      ∃ d, Answers (t []) (q none) catalog d ∧ textsOfRows d = [["Cid"], ["Bob"], ["Ann"]] ∧
        ∃ d', Answers (t [.source (q none)]) (q (some ⟨2, 2⟩)) catalog d' ∧ d'.length = 1 ∧
          textsOfRows d' = [["Ann"]] := by
  intro q catalog t
  have name := nameIn_built "people"
  have built : (q none).Built := by
    refine .query (c := ⟨[.feature (nameIn "people")], none, [], none,
      [.term (.by (nameIn "people") .descending)], none⟩) (named_built "people") (.mk ?_ nofun nofun nofun ?_) rfl
    · simpa using .feature name
    · simpa using .term (.by .descending name)
  have rows : (dataOf ((t []).serve (.finish (.source (q none)))).1 catalog).map
      (fun d => (textsOfRows d, d.length)) = some ([["Cid"], ["Bob"], ["Ann"]], 3) := by decide +kernel
  obtain ⟨plan, t', d, compiled, evaluated, shown⟩ := evaluated_of_dataOf rows
  obtain ⟨texts, three⟩ := Prod.mk.inj shown
  have answers : Answers (t []) (q none) catalog d := ⟨plan, t', compiled, evaluated⟩
  obtain ⟨-, slice, -⟩ := rows_of_pages built (fun _ => rfl) answers
  obtain ⟨d', page, -, length, last⟩ := slice 2 2 [.source (q none)] (.inr ⟨none, [], rfl⟩)
  refine ⟨built, fun _ => rfl, d, answers, texts, d', page, by rw [length, three]; rfl, ?_⟩
  rw [textsOfRows, last, List.map_take, List.map_drop, show d.rows.map _ = _ from texts]
  rfl

end QueryAlgebra.Evaluation
