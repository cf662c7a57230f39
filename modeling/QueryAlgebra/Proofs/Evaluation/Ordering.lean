import QueryAlgebra.Proofs.Evaluation.Determinacy
import QueryAlgebra.Proofs.Evaluation.Pages
import QueryAlgebra.Proofs.Evaluation.Peers

/-!
# Ordered statements

A statement is ordered after its rows are filtered and grouped and before they are projected. So an
ordering only rearranges the rows that the statement has without it: they are sorted by what the terms
are on them, and rows that tie stay in their order.

* `Gathers`: the rows or groups that a statement is evaluated on.
* `Rearranged`: data that has the rows of other data in another order.
* `projected_rearranged`: sorting keys rearrange the rows of a batch.
* `same_batch`: an ordering has no effect on what a statement is evaluated on.
* `ordered_rows`: the rows of an ordered statement.
* `orders_confused`: rows that are sorted by another table's names.
-/

namespace QueryAlgebra

open Evaluation Translation Dataset

/-! ### Statements without ordering -/

/-- A statement of these clauses is evaluated on groups, whatever it is ordered by. -/
def Grouped (grp : List Feature) (post : Option Feature) (fs : List Feature) : Prop :=
  grp ≠ [] ∨ post ≠ none ∨ Aggregated fs []

/-- The rows that a statement is evaluated on are those that pass its filter. If it is grouped, it is
evaluated on the groups of these rows that its group filter leaves. -/
structure Gathers (sources : KeyedMap Source SourcePlan) (catalog : Catalog) (s : Source)
    (pre : Option Feature) (grp : List Feature) (post : Option Feature) (fs : List Feature) (b : Batch) :
    Prop where
  rows    : ∃ all, s.Data sources catalog all ∧ Passing pre all b.data
  rowWise : ¬Grouped grp post fs → b.groups = none
  grouped : Grouped grp post fs → ∃ groups left, b.groups = some left ∧
    Remaining post b.data groups left ∧ (grp = [] → groups = [List.range b.data.length]) ∧
    (grp ≠ [] → ∃ columns keys, RowKeys grp b.data columns keys ∧ groups = keyGroups keys)

/-- The second data has the rows of the first one, each once, in the order of some positions. -/
structure Rearranged (d d' : Dataset) (order : List Nat) : Prop where
  perm   : order.Perm (List.range d.length)
  refs   : d'.refs = d.refs
  length : d'.length = d.length
  rows   : d'.rows = order.map d.row

/-- Nothing is rearranged where all rows tie on all keys. -/
theorem Rearranged.rows_of_tied {d d' : Dataset} {order : List Nat} (h : Rearranged d d' order)
    {keys : List SortKey} (arranged : Arranged keys order)
    (tied : ∀ i < d.length, ∀ j < d.length, Tied keys i j) : d'.rows = d.rows := by
  have inside : ∀ i ∈ order, i < d.length := fun i hi => List.mem_range.1 (h.perm.mem_iff.1 hi)
  have ascending : order.Pairwise (· < ·) := arranged.imp_of_mem fun {i j} hi hj before =>
    (before.resolve_left (tied i (inside i hi) j (inside j hj)).not_sortsBefore).2
  have same : order = List.range d.length :=
    h.perm.eq_of_pairwise (fun _ _ _ _ less more => absurd less more.asymm) ascending
      List.pairwise_lt_range
  rw [h.rows, same, Dataset.rows]

/-- A statement that only selects, and does not aggregate, is evaluated on the rows of its source. -/
theorem Gathers.ofData {sources : KeyedMap Source SourcePlan} {catalog : Catalog} {s : Source}
    {fs : List Feature} {b : Batch} (h : Gathers sources catalog s none [] none fs b)
    (single : ∀ f ∈ fs, f.hasAggregate = false) :
    ∃ all, s.Data sources catalog all ∧ b = .ofData all := by
  obtain ⟨all, made, passing⟩ := h.rows
  have rowWise : ¬Grouped [] none fs := by
    rintro (keyed | filtered | ⟨f, hf, aggregate⟩)
    · exact keyed rfl
    · exact filtered rfl
    · simp [single f (by simpa using hf)] at aggregate
  obtain ⟨data, groups⟩ := b
  obtain rfl : groups = none := h.rowWise rowWise
  obtain rfl : data = all := passing.1 rfl
  exact ⟨data, made, rfl⟩

namespace Evaluation

/-- **Sorting keys rearrange the rows of a batch.** -/
theorem projected_rearranged {xs : List FeaturePlan} {zs : List (OrderSymbol FeaturePlan)} {b : Batch}
    {d d' : Dataset} (plain : projected xs [] none b = .ok d) (ordered : projected xs zs none b = .ok d') :
    d.length = b.size ∧ ∃ keys order, FeaturePlan.sortKeys zs b = .ok keys ∧
      arrange (List.range b.size) keys = .ok order ∧ Rearranged d d' order := by
  obtain ⟨_, _, columns, unkeyed, own, hcolumns, rfl⟩ := projected_iff.1 plain
  obtain rfl := pure_eq_ok.1 unkeyed
  obtain rfl := Except.ok.inj ((arrange_unkeyed b.size).symm.trans own)
  obtain ⟨keys, order, _, hkeys, horder, hcolumns', rfl⟩ := projected_iff.1 ordered
  obtain rfl := Except.ok.inj (hcolumns.symm.trans hcolumns')
  have perm := arrange_perm horder
  have height : (chosenRows (SourcePlan.outputRefs xs) columns (List.range b.size)).length = b.size := by
    simp [chosenRows]
  refine ⟨height, keys, order, hkeys, horder, height.symm ▸ perm, rfl, ?_, ?_⟩
  · exact perm.length_eq
  · refine (rows_chosenRows _ _ _).trans (List.map_congr_left fun i hi => ?_)
    have inside : i < b.size := List.mem_range.1 (perm.subset hi)
    simp [row, chosenRows, SourcePlan.limited, item, inside]

section

variable {sources : KeyedMap Source SourcePlan} {kinds : String → Kind} {labels : String → String}
  {literals : String → Value} {m : List (String × FeaturePlan)}

/-- What a statement is evaluated on, by the plans that are remembered for its parts. -/
theorem gathers_of_batched (hm : Grounded sources kinds labels m) {s : Source} {pre : Option Feature}
    {grp : List Feature} {post : Option Feature} {fs : List Feature}
    (hpre : ∀ p ∈ pre, p.Obeys (.faithful kinds labels)) (hgrp : ∀ g ∈ grp, g.Obeys (.faithful kinds labels))
    (hpost : ∀ p ∈ post, p.Obeys (.faithful kinds labels)) {y z : Option FeaturePlan}
    {ys : List FeaturePlan} (hy : Remembered m pre.toList y.toList) (hys : Remembered m grp ys)
    (hz : Remembered m post.toList z.toList) {catalog : Catalog} {all data : Dataset} {b : Batch}
    (source : s.Data sources catalog all) (kept : filtered y all = .ok data) {groups? : Bool}
    (flag : groups? = true ↔ Grouped grp post fs) (batch : batched groups? ys z data = .ok b) :
    Gathers sources catalog s pre grp post fs b := by
  obtain ⟨onGroups, onRows⟩ := batched_eq_ok batch
  have passing := passing_of_filtered hm hpre hy kept
  have gathered : b.data = data := by
    cases groups? with
    | true =>
      obtain ⟨_, _, -, -, rfl⟩ := onGroups rfl
      rfl
    | false => rw [onRows rfl]; rfl
  subst gathered
  refine ⟨⟨all, source, passing⟩, fun rowWise => ?_, fun grouped => ?_⟩
  · rw [onRows (Bool.eq_false_iff.2 (mt flag.1 rowWise))]
    rfl
  · obtain ⟨groups, left, made, rest, same⟩ := onGroups (flag.2 grouped)
    obtain ⟨absent, present⟩ := option_of_remembered hz
    obtain ⟨whole, masked⟩ := remaining_eq_ok rest
    refine ⟨groups, left, by rw [same], ⟨fun none => whole (absent none), fun p hp => ?_⟩,
      fun keyless => ?_, fun keyed => ?_⟩
    · obtain ⟨x, hx, remembered⟩ := present p hp
      obtain ⟨mask, values, left⟩ := masked x hx
      exact ⟨mask, ⟨x, plans_of_remembered hm p (hpost p hp) x remembered, values⟩, left⟩
    · subst keyless
      cases hys
      exact (Except.ok.inj made).symm
    · have present : ys ≠ [] := by
        rintro rfl
        cases hys
        exact keyed rfl
      obtain ⟨columns, hcolumns, hgroups⟩ := allGroups_of_keys present made
      obtain ⟨keys, hkeys, rfl⟩ := groupRows_eq_ok hgroups
      exact ⟨columns, keys, ⟨forall₂_through (plans_of_grounded hm hgrp hys) (mapM_eq_ok hcolumns), hkeys⟩, rfl⟩

/-! ### Statements with and without ordering -/

variable {catalog : Catalog} {s : Source} {sel : List Feature} {pre : Option Feature}
  {grp : List Feature} {post : Option Feature} {ord : List OrderTerm} {d d' : Dataset}

/-- The data was made of the clauses of a statement step by step, by the plans that are remembered for
them. -/
inductive Stepwise (sources : KeyedMap Source SourcePlan) (kinds : String → Kind)
    (labels : String → String) (literals : String → Value) (catalog : Catalog) (s : Source)
    (fs : List Feature) (pre : Option Feature) (grp : List Feature) (post : Option Feature)
    (ord : List OrderTerm) (d : Dataset) : Prop where
  | mk {m : List (String × FeaturePlan)} {x : SourcePlan} {xs ys : List FeaturePlan}
      {y z : Option FeaturePlan} {zs : List (OrderSymbol FeaturePlan)} {all data : Dataset} {b : Batch}
      (source : Composed (backend sources .empty) (Told sources kinds labels literals) s x)
      (told : Told sources kinds labels literals m) (hsel : Remembered m fs xs)
      (hpre : Remembered m pre.toList y.toList) (hgrp : Remembered m grp ys)
      (hpost : Remembered m post.toList z.toList) (hord : RememberedTerms m ord zs)
      (whole : x catalog = .ok all) (kept : filtered y all = .ok data)
      (batch : batched (SourcePlan.isGrouped xs ys z zs) ys z data = .ok b)
      (shown : projected xs zs none b = .ok d)

theorem stepwise_of_answers {history : List Tree}
    (known : ∀ tree ∈ history, tree.Obeys (.exact kinds labels literals))
    (obeys : (Source.query s sel pre grp post ord none).Obeys (.exact kinds labels literals))
    (unprovided : sources.get? (.query s sel pre grp post ord none) = none)
    (answers : Answers (translatorAfter sources history) (.query s sel pre grp post ord none) catalog d) :
    Stepwise sources kinds labels literals catalog s (Source.query s sel pre grp post ord none).features
      pre grp post ord d := by
  obtain ⟨plan, t, compiled, evaluated⟩ := answers
  cases told_of_compiled known obeys compiled with
  | query source told hsel hpre hgrp hpost hord =>
    have provided : (backend sources .empty).sources.get? (.query s sel pre grp post ord none) = none :=
      unprovided
    rw [provided] at evaluated
    replace evaluated : SourcePlan.query _ _ _ _ _ _ none catalog = .ok d := evaluated
    rw [query_eq] at evaluated
    obtain ⟨data, kept, evaluated⟩ := bind_eq_ok.1 evaluated
    obtain ⟨all, whole, kept⟩ := bind_eq_ok.1 kept
    obtain ⟨b, batch, shown⟩ := bind_eq_ok.1 evaluated
    exact .mk source told hsel hpre hgrp hpost hord whole kept batch shown

/-- Terms without aggregates have no effect on whether a statement is grouped, nor have any on one that is
grouped without them. -/
theorem grouped_iff {fs : List Feature}
    (rowWise : (∀ o ∈ ord, o.feature.hasAggregate = false) ∨ Grouped grp post fs) :
    grp ≠ [] ∨ post ≠ none ∨ Aggregated fs ord ↔ Grouped grp post fs := by
  refine ⟨fun h => rowWise.elim (fun none => h.imp_right (Or.imp_right ?_)) id,
    Or.imp_right (Or.imp_right ?_)⟩
  · rintro ⟨f, hf, aggregate⟩
    refine ⟨f, ?_, aggregate⟩
    rcases List.mem_append.1 hf with hf | hf
    · exact List.mem_append_left _ hf
    · obtain ⟨o, ho, rfl⟩ := List.mem_map.1 hf
      exact absurd aggregate (by simp [none o ho])
  · rintro ⟨f, hf, aggregate⟩
    exact ⟨f, List.mem_append_left _ (by simpa using hf), aggregate⟩

/-- The clauses that statements with and without ordering share have the same plans. So they are
evaluated on the same rows or groups, if they agree on which. -/
theorem same_batch (obeys : (Source.query s sel pre grp post ord none).Obeys (.exact kinds labels literals))
    (rowWise : (∀ o ∈ ord, o.feature.hasAggregate = false) ∨
      Grouped grp post (Source.query s sel pre grp post ord none).features)
    (plain : Stepwise sources kinds labels literals catalog s
      (Source.query s sel pre grp post ord none).features pre grp post [] d)
    (ordered : Stepwise sources kinds labels literals catalog s
      (Source.query s sel pre grp post ord none).features pre grp post ord d') :
    ∃ m xs zs b, Told sources kinds labels literals m ∧
      Remembered m (Source.query s sel pre grp post ord none).features xs ∧ RememberedTerms m ord zs ∧
      projected xs [] none b = .ok d ∧ projected xs zs none b = .ok d' ∧
      Gathers sources catalog s pre grp post (Source.query s sel pre grp post ord none).features b := by
  have clauses := obeys.statement
  have features := Source.Obeys.features Rules.exact_offered _ obeys
  cases plain with
  | @mk _ x xs _ _ _ _ _ _ b source told hsel hpre hgrp hpost hord whole kept batch shown =>
  cases ordered with
  | @mk m _ _ _ _ _ zs _ _ _ source' told' hsel' hpre' hgrp' hpost' hord' whole' kept' batch' shown' =>
  have one := plan_unique told told'
  cases hord
  -- Up to the groups, both are computed by the same plans.
  obtain rfl := composed_unique source clauses.source _ source'
  obtain rfl := plans_unique (fun f hf => one f (features f hf)) hsel hsel'
  obtain rfl := option_unique (fun f hf => one f (clauses.prefilter f hf)) hpre hpre'
  obtain rfl := plans_unique (fun f hf => one f (clauses.grouping f hf)) hgrp hgrp'
  obtain rfl := option_unique (fun f hf => one f (clauses.postfilter f hf)) hpost hpost'
  obtain rfl := Except.ok.inj (whole.symm.trans whole')
  obtain rfl := Except.ok.inj (kept.symm.trans kept')
  have hm := grounded_of_told told'
  have faithful := Source.Obeys.mono Rules.exact_faithful _ obeys
  have fair := faithful.statement
  have offered := Source.Obeys.features Rules.faithful_offered _ faithful
  have flag {ord : List OrderTerm} {zs : List (OrderSymbol FeaturePlan)} :=
    @isGrouped_iff _ _ (plans_of_grounded hm offered hsel') _ _ (plans_of_grounded hm fair.grouping hgrp')
      _ _ (plans_of_grounded hm (fun p hp => fair.postfilter p (by simpa using hp)) hpost') ord zs
  have among := flag (plans_of_grounded hm (List.forall_mem_map.2 fair.ordering)
    (remembered_of_terms hord').1)
  have agree := Bool.eq_iff_iff.2 ((@flag [] [] .nil).trans ((grouped_iff rowWise).symm.trans among.symm))
  rw [agree] at batch
  obtain rfl := Except.ok.inj (batch.symm.trans batch')
  have planned := plans_of_composed (source.mono fun _ => grounded_of_told) fair.source
  exact ⟨m, xs, zs, b, told', hsel', hord', shown, shown', gathers_of_batched hm fair.prefilter
    fair.grouping fair.postfilter hpre' hgrp' hpost' ⟨x, planned, whole⟩ kept
    (among.trans (grouped_iff rowWise)) batch⟩

/-- **The rows of an ordered statement are those of the statement without ordering**, none lost and none
repeated, whatever was translated before the one and before the other. They are sorted by the columns of
the terms, each in its direction, and rows that tie on all terms stay in their order, where the values of
each term are in a total preorder. Empty values come first where a term ascends, and last where it
descends. -/
theorem ordered_rows {history history' : List Tree}
    (known : ∀ tree ∈ history ++ history', tree.Built ∧ tree.Obeys (Rules.structFree.and
      ((Rules.told kinds).and ((Rules.labelled labels).and (.literals (ToldLiteral literals))))))
    (built : (Source.query s sel pre grp post [] none).Built) {specs : List OrderSpec}
    (given : ∀ o ∈ specs, o.Built) {q : Source}
    (ordered : (Source.query s sel pre grp post [] none).orderby specs = .ok q)
    (obeys : q.Obeys (Rules.structFree.and
      ((Rules.told kinds).and ((Rules.labelled labels).and (.literals (ToldLiteral literals))))))
    (terms : OrderTerm.make specs = .ok ord)
    (rowWise : (∀ o ∈ ord, o.feature.hasAggregate = false) ∨
      Grouped grp post (Source.query s sel pre grp post [] none).features)
    (unprovided : ∀ q' ∈ [.query s sel pre grp post [] none, q], sources.get? q' = none)
    (plain : Answers (translatorAfter sources history) (.query s sel pre grp post [] none) catalog d)
    (sorted : Answers (translatorAfter sources history') q catalog d') :
    let fs := (Source.query s sel pre grp post [] none).features
    ∃ b keys order, Gathers sources catalog s pre grp post fs b ∧ Shows fs b (List.range b.size) d ∧
      List.Forall₂ (fun o k => o.feature.Column b k.1 ∧ k.2 = o.direction) ord keys ∧
      Rearranged d d' order ∧
      ((∀ k ∈ keys, KeyOrdered (· < d.length) k) → Arranged keys order) ∧
      ∀ k ∈ keys, ∀ i j, item k.1 i = .null → item k.1 j ≠ .null → match k.2 with
        | .ascending => Rises k i j
        | _          => Rises k j i := by
  intro fs
  obtain ⟨_, made, rfl⟩ := Source.orderby_eq_ok built ordered
  obtain rfl := Except.ok.inj (terms.symm.trans made)
  obtain ⟨own, others⟩ := List.forall_mem_cons.1 unprovided
  have hq := Source.Built.obeys Rules.ensures_exact _ (Source.orderby_built built given ordered) obeys
  have hq₀ : (Source.query s sel pre grp post [] none).Obeys (.exact kinds labels literals) :=
    ⟨hq.1, hq.2.1, hq.2.2.1, hq.2.2.2.1, hq.2.2.2.2.1, hq.2.2.2.2.2.1, trivial⟩
  have exact : ∀ tree ∈ history ++ history', tree.Obeys (.exact kinds labels literals) :=
    fun tree htree => (known tree htree).1.obeys Rules.ensures_exact (known tree htree).2
  obtain ⟨m, xs, zs, b, told, hsel, hord, shown, shown', gathers⟩ := same_batch hq rowWise
    (stepwise_of_answers (fun tree h => exact tree (List.mem_append_left _ h)) hq₀ own plain)
    (stepwise_of_answers (fun tree h => exact tree (List.mem_append_right _ h)) hq
      (others _ (List.mem_singleton_self _)) sorted)
  have hm := grounded_of_told told
  have faithful := Source.Obeys.mono Rules.exact_faithful _ hq
  obtain ⟨features, directions⟩ := remembered_of_terms hord
  obtain ⟨height, keys, order, hkeys, horder, rearranged⟩ := projected_rearranged shown shown'
  obtain ⟨_, inOrder, length, rows⟩ := projected_rows hsel (.nil : RememberedTerms m [] []) shown
  obtain rfl := inOrder.2 rfl
  refine ⟨b, keys, order, gathers,
    shows_of_rows hm (Source.Obeys.features Rules.faithful_offered _ faithful) length rows,
    keyed_of_sortKeys (plans_of_grounded hm (List.forall_mem_map.2 faithful.statement.ordering) features)
      directions hkeys, rearranged, fun order => ?_, fun k _ i j => rises_of_null⟩
  exact arrange_pairwise order (fun i hi => height ▸ List.mem_range.1 hi) List.nodup_range horder

end

/-- Scores by school, the second school first: the scores of one school stay in their order. -/
theorem ordered_rows_of_scores :
    let school := scoredField "school"
    let q : Source := .query scored [school, scoredField "score"] none [] none [] none
    let q' : Source := .query scored [school, scoredField "score"] none [] none [.by school .descending] none
    let numbers := fun ns : List Nat => ns.map fun n => Value.number (.ofNat n)
    let catalog : Catalog := [("scored", ⟨[⟨"school", none⟩, ⟨"score", none⟩],
      [numbers [1, 2, 1], numbers [20, 10, 5]], 3⟩)]
    q.Built ∧ q.orderby [.term (.by school .descending)] = .ok q' ∧ ∃ d d',
      Answers (translatorAfter .empty []) q catalog d ∧
      Answers (translatorAfter .empty [.source q]) q' catalog d' ∧
      textsOfRows d = [["1", "20"], ["2", "10"], ["1", "5"]] ∧
      textsOfRows d' = [["2", "10"], ["1", "20"], ["1", "5"]] ∧
      ∃ keys order, Rearranged d d' order ∧ keys = [(numbers [1, 2, 1], .descending)] ∧
        Arranged keys order := by
  intro school q q' numbers catalog
  have field (name : String) (h : scored.get name = .ok (scoredField name)) : (scoredField name).Built :=
    .element scored_built h
  have hschool := field "school" rfl
  have built : q.Built := scored_built.selecting
    (by simpa using ⟨hschool, field "score" rfl⟩) (by decide +kernel)
  let rules := Rules.structFree.and ((Rules.told fun _ => .primitive .integer).and
    ((Rules.labelled fun _ => "scored").and (.literals (ToldLiteral fun _ => .null))))
  have source : scored.Obeys rules :=
    ⟨structFree_table rfl, told_table rfl, by simp [Rules.labelled], trivial⟩
  have ofield (name : String) : (scoredField name).Obeys rules := ⟨⟨trivial, rfl, rfl, trivial⟩, source⟩
  have obeys : ∀ ord : List OrderTerm, (ord = [] ∨ ord = [.by school .descending]) →
      (Source.query scored [school, scoredField "score"] none [] none ord none).Obeys rules := by
    rintro ord (rfl | rfl)
    · exact ⟨⟨trivial, trivial, trivial, trivial⟩, source, ⟨ofield _, ofield _, trivial⟩, trivial, trivial,
        trivial, trivial⟩
    · exact ⟨⟨trivial, trivial, trivial, trivial⟩, source, ⟨ofield _, ofield _, trivial⟩, trivial, trivial,
        trivial, ⟨ofield _, trivial⟩⟩
  have ordered : q.orderby [.term (.by school .descending)] = .ok q' := rfl
  obtain ⟨plan, t, d, compiled, evaluated, texts⟩ := evaluated_of_dataOf
    (show (dataOf ((translatorAfter .empty []).serve (.finish (.source q))).1 catalog).map
      (fun d => (textsOfRows d, d.length)) = some ([["1", "20"], ["2", "10"], ["1", "5"]], 3) by
      decide +kernel)
  obtain ⟨plan', t', d', compiled', evaluated', texts'⟩ := evaluated_of_dataOf
    (show (dataOf ((translatorAfter .empty [.source q]).serve (.finish (.source q'))).1 catalog).map
      textsOfRows = some [["2", "10"], ["1", "20"], ["1", "5"]] by decide +kernel)
  obtain ⟨texts, height⟩ := Prod.mk.inj texts
  have plain : Answers (translatorAfter .empty []) q catalog d := ⟨plan, t, compiled, evaluated⟩
  have sorted : Answers (translatorAfter .empty [.source q]) q' catalog d' :=
    ⟨plan', t', compiled', evaluated'⟩
  have known : ∀ tree ∈ ([] ++ [.source q] : List Tree), tree.Built ∧ tree.Obeys rules := by
    simpa using ⟨built, obeys [] (.inl rfl)⟩
  obtain ⟨b, keys, order, gathers, -, keyed, rearranged, arranged, -⟩ :=
    ordered_rows known built (by simpa using .term (.by _ hschool)) ordered (obeys _ (.inr rfl)) rfl
      (.inl (List.forall_mem_singleton.2 rfl)) (by simpa using ⟨rfl, rfl⟩) plain sorted
  obtain ⟨all, ⟨x, planned, whole⟩, rfl⟩ := gathers.ofData (by decide +kernel)
  obtain ⟨⟨values, direction⟩, rest, ⟨read, rfl⟩, others, rfl⟩ := List.forall₂_cons_left_iff.1 keyed
  cases others
  obtain rfl : numbers [1, 2, 1] = values := by
    cases planned
    obtain rfl := Except.ok.inj whole
    exact Except.ok.inj read.read
  refine ⟨built, ordered, d, d', plain, sorted, texts, texts', _, order, rearranged, rfl, arranged ?_⟩
  exact List.forall_mem_singleton.2 (height ▸ @scores_ordered [1, 2, 1] (by decide) .descending)

/-- **Rows are sorted by another table's names**, which have the same key: the rows tie on the name that
they are ordered by, and do not stay in their order. -/
theorem orders_confused :
    let both := crossed "school" "twin"
    let q : Source := .query both [nameIn "school"] none [] none [] none
    let q' : Source := .query both [nameIn "school"] none [] none [.by (nameIn "twin") .ascending] none
    let catalog : Catalog := [("school", ⟨[⟨"name", none⟩], [[.text "Beta", .text "Alpha"]], 2⟩),
      ("twin", ⟨[⟨"name", none⟩], [[.text "Gamma"]], 1⟩)]
    q.Built ∧ q.orderby [.term (.by (nameIn "twin") .ascending)] = .ok q' ∧ ∃ d d',
      Answers (translatorAfter .empty []) q catalog d ∧
      Answers (translatorAfter .empty []) q' catalog d' ∧
      textsOfRows d = [["Beta"], ["Alpha"]] ∧ textsOfRows d' = [["Alpha"], ["Beta"]] ∧
      ¬∃ b keys order, Gathers .empty catalog both none [] none q.features b ∧
        List.Forall₂ (fun o k => o.feature.Column b k.1 ∧ k.2 = o.direction)
          [OrderTerm.by (nameIn "twin") .ascending] keys ∧ Rearranged d d' order ∧
        ((∀ k ∈ keys, KeyOrdered (· < d.length) k) → Arranged keys order) := by
  intro both q q' catalog
  have hboth : both.Built :=
    @Source.Built.joined _ _ _ none none (named_built "school") (named_built "twin") (by simp) rfl
  have built : q.Built := hboth.selecting (by simpa using nameIn_built "school") (by decide +kernel)
  obtain ⟨plan, t, d, compiled, evaluated, texts⟩ := evaluated_of_dataOf
    (show (dataOf ((translatorAfter .empty []).serve (.finish (.source q))).1 catalog).map
      (fun d => (textsOfRows d, d.length)) = some ([["Beta"], ["Alpha"]], 2) by decide +kernel)
  obtain ⟨plan', t', d', compiled', evaluated', texts'⟩ := evaluated_of_dataOf
    (show (dataOf ((translatorAfter .empty []).serve (.finish (.source q'))).1 catalog).map
      textsOfRows = some [["Alpha"], ["Beta"]] by decide +kernel)
  obtain ⟨texts, height⟩ := Prod.mk.inj texts
  refine ⟨built, rfl, d, d', ⟨plan, t, compiled, evaluated⟩, ⟨plan', t', compiled', evaluated'⟩, texts,
    texts', ?_⟩
  rintro ⟨b, keys, order, gathers, keyed, rearranged, arranged⟩
  obtain ⟨all, made, rfl⟩ := gathers.ofData (by decide +kernel)
  obtain ⟨⟨values, direction⟩, rest, ⟨read, rfl⟩, others, rfl⟩ := List.forall₂_cons_left_iff.1 keyed
  cases others
  obtain rfl : [.text "Gamma", .text "Gamma"] = values := by
    obtain rfl := Except.ok.inj (data_of_crossed made)
    exact Except.ok.inj read.read
  have gamma : ∀ i < d.length, item [.text "Gamma", .text "Gamma"] i = .text "Gamma" := fun i hi => by
    obtain rfl | rfl : i = 0 ∨ i = 1 := by omega
    · rfl
    · rfl
  have textual : KeyOrdered (· < d.length) ([.text "Gamma", .text "Gamma"], Direction.ascending) := by
    refine (Scale.preordered .texts).mono ?_
    rintro _ ⟨i, hi, rfl⟩
    exact (gamma i hi).symm ▸ ⟨⟨_, .text _⟩, nofun⟩
  -- Both rows are called Gamma in the second table, so they tie.
  have unchanged := rearranged.rows_of_tied (arranged (List.forall_mem_singleton.2 textual))
    fun i hi j hj => List.forall_mem_singleton.2 (by
      show valueOrder _ _ = _
      rw [gamma i hi, gamma j hj]
      rfl)
  rw [textsOfRows, unchanged] at texts'
  exact absurd (texts.symm.trans texts') (by decide)

end Evaluation

end QueryAlgebra
