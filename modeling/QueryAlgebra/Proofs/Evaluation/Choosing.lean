import QueryAlgebra.Proofs.Evaluation.Locality

/-!
# Choosing rows

A feature without aggregates and windows has on rows that are chosen, in any order and with repetitions,
the values that it has for them among all rows, and for a group it has the value of its first row. So
rows may be filtered by two predicates in turn or by their conjunction.

* `shows_groups`: groups show their first rows.
* `filter_filter`: two filters in turn leave the rows for which both masks are true.
* `truePositions_and`: so does the mask of a conjunction, if the masks of its sides are three-valued.
* `values_of_choice`: what a translator makes of such a feature, on chosen rows and on groups, and of a
  conjunction and its sides.
-/

namespace QueryAlgebra

open Evaluation Translation Dataset

namespace Evaluation

/-- Groups of rows show the first row of each. -/
theorem shows_groups {d : Dataset} {groups : List (List Nat)}
    (inside : ∀ g ∈ groups, g ≠ [] ∧ ∀ i ∈ g, i < d.length) :
    (Batch.mk d (some groups)).Shows d (groups.map fun g => g.headD 0) where
  size := by simp [Batch.size]
  inside i hi := by
    obtain ⟨g, hg, rfl⟩ := List.mem_map.1 hi
    obtain ⟨occupied, bounds⟩ := inside g hg
    cases g with
    | nil => exact absurd rfl occupied
    | cons i r => exact bounds i List.mem_cons_self
  elements s n column evaluated := by
    obtain ⟨c, read, made⟩ := bind_eq_ok.1 evaluated
    obtain rfl := pure_eq_ok.1 made
    refine bind_eq_ok.2 ⟨c, read, congrArg Except.ok ?_⟩
    rw [List.map_map]
    refine List.map_congr_left fun g hg => ?_
    cases g with
    | nil => exact absurd rfl (inside [] hg).1
    | cons i r => rfl

/-! ### Filters -/

/-- The positions in a list at which a test holds, followed into the list, are its items that pass. -/
theorem map_getD_filter_range (rows : List Nat) (test : Nat → Bool) :
    ((List.range rows.length).filter fun k => test (rows.getD k 0)).map (rows.getD · 0)
      = rows.filter test := by
  have items : (List.range rows.length).map (rows.getD · 0) = rows := by
    refine List.ext_getElem (by simp) fun k bound _ => ?_
    have bound : k < rows.length := by simpa using bound
    simp [bound]
  calc ((List.range rows.length).filter fun k => test (rows.getD k 0)).map (rows.getD · 0)
    _ = ((List.range rows.length).map (rows.getD · 0)).filter test := by rw [List.filter_map]; rfl
    _ = rows.filter test := by rw [items]

/-- Rows chosen among chosen rows. -/
theorem only_only (d : Dataset) {rows positions : List Nat} (inside : ∀ k ∈ positions, k < rows.length) :
    (d.only rows).only positions = d.only (positions.map (rows.getD · 0)) := by
  simp only [only, take, List.map_map, List.length_map, Dataset.mk.injEq, true_and, and_true]
  refine List.map_congr_left fun c _ => List.map_congr_left fun k hk => ?_
  simp [chosen, item, inside k hk]

/-- Where a mask on chosen rows has their items, it is true at the places of rows whose items are. -/
theorem truePositions_map (rows : List Nat) (vs : List Value) :
    truePositions (rows.map (item vs))
      = (List.range rows.length).filter fun k => (item vs (rows.getD k 0)).isBool true := by
  unfold truePositions
  rw [List.length_map]
  refine List.filter_congr fun k hk => ?_
  have bound := List.mem_range.1 hk
  simp [item, bound]

/-- **Two filters in turn leave the rows for which both masks are true**, where the second mask has on the
rows that are left the items of those rows. -/
theorem filter_filter (d : Dataset) (us vs : List Value) :
    (d.filter us).filter ((truePositions us).map (item vs))
      = d.only ((truePositions us).filter fun i => (item vs i).isBool true) := by
  have inside : ∀ k ∈ truePositions ((truePositions us).map (item vs)), k < (truePositions us).length :=
    fun k hk => by
      rw [truePositions_map] at hk
      exact List.mem_range.1 (List.mem_filter.1 hk).1
  refine (only_only d inside).trans (congrArg d.only ?_)
  rw [truePositions_map]
  exact map_getD_filter_range (truePositions us) fun i => (item vs i).isBool true

/-- **The mask of a conjunction is true where both sides are**, if the sides are three-valued. -/
theorem truePositions_and {us vs : List Value} (same : us.length = vs.length)
    (truth : ∀ v ∈ us ++ vs, Truth v) :
    truePositions ((List.range us.length).map fun i =>
        FeaturePlan.connective .and [item us i, item vs i])
      = (truePositions us).filter fun i => (item vs i).isBool true := by
  unfold truePositions
  rw [List.filter_filter, List.length_map, List.length_range]
  refine List.filter_congr fun i hi => ?_
  have bound := List.mem_range.1 hi
  have left := truth _ (List.mem_append_left vs (item_mem bound))
  have right := truth _ (List.mem_append_right us (item_mem (same ▸ bound)))
  have read : item ((List.range us.length).map fun i =>
      FeaturePlan.connective .and [item us i, item vs i]) i
        = FeaturePlan.connective .and [item us i, item vs i] := by
    simp [item, bound]
  rw [read]
  rcases left with left | ⟨_ | _, left⟩ <;> rcases right with right | ⟨_ | _, right⟩ <;>
    rw [left, right] <;> rfl

/-! ### Translations -/

section

variable {sources : KeyedMap Source SourcePlan} {history : List Tree}

/-- The symbols of the sides of a conjunction are asked for behind it: its mask is made of theirs. -/
theorem sides_of_conjunction {p q : Feature} {target : Option Kind}
    (single : (Feature.expression .and [p, q] target).Throughout fun g => g.isCollective = false)
    (clear : Untangled history (.expression .and [p, q] target)) {x : FeaturePlan}
    {t : Translator SourcePlan FeaturePlan} (made : (translatorAfter sources history).serve
      (.finish (.feature (.expression .and [p, q] target))) = (.ok (some (.feature x)), t)) :
    ∃ y z k, t.serve (.symbolOf (.feature p)) = (.ok (some (.feature y)), t.cleared) ∧
      t.cleared.serve (.symbolOf (.feature q)) = (.ok (some (.feature z)), t.cleared.cleared) ∧
      y.RowWise ∧ z.RowWise ∧ x = .rowWise .and [y, z] k := by
  obtain ⟨⟨o, gives⟩, parts⟩ := clear.finished single made
  generalize hr : Except.ok x = r at gives
  cases gives with
  | expression known =>
    obtain ⟨y, ys, hy, hys, rfl⟩ := List.forall₂_cons_left_iff.1 known
    obtain ⟨z, zs, hz, hzs, rfl⟩ := List.forall₂_cons_left_iff.1 hys
    obtain rfl := List.forall₂_nil_left_iff.1 hzs
    refine ⟨y, z, (Feature.expression .and [p, q] target).kind, Translator.serve_remembered hy,
      Translator.serve_remembered hz, parts p (by simp [Feature.children]) y hy,
      parts q (by simp [Feature.children]) z hz, ?_⟩
    exact Except.ok.inj hr

/-- **Features without aggregates and windows are evaluated row by row.** What a translator makes of such a
feature, having nothing translated before that is taken for it, has values on data in which it has any:
on rows that are chosen, in any order and with repetitions, it has their values, and for groups with rows
the values of their first rows. The sides of a conjunction have values as well, which filter the data in
turn as the conjunction does, if they are truth values or empty. -/
theorem values_of_choice {f : Feature} (single : f.Throughout fun g => g.isCollective = false)
    (clear : Untangled history f) {x : FeaturePlan} {t : Translator SourcePlan FeaturePlan}
    (made : (translatorAfter sources history).Makes f x t) {d : Dataset} (regular : d.Regular)
    {column : List Value} (evaluated : x.values (.ofData d) = .ok column) :
    column.length = d.length ∧
    (∀ rows : List Nat, (∀ i ∈ rows, i < d.length) →
      x.values (.ofData (d.take (rows.map some))) = .ok (rows.map (item column))) ∧
    (∀ groups : List (List Nat), (∀ g ∈ groups, g ≠ [] ∧ ∀ i ∈ g, i < d.length) →
      x.values ⟨d, some groups⟩ = .ok (groups.map fun g => item column (g.headD 0))) ∧
    ∀ (p q : Feature) (target : Option Kind), f = .expression .and [p, q] target →
      (translatorAfter sources history).serve (.finish (.feature f)) = (.ok (some (.feature x)), t) →
      ∃ y z t₁ t₂ us vs ws, t.serve (.symbolOf (.feature p)) = (.ok (some (.feature y)), t₁) ∧
        t₁.serve (.symbolOf (.feature q)) = (.ok (some (.feature z)), t₂) ∧
        y.values (.ofData d) = .ok us ∧ z.values (.ofData d) = .ok vs ∧
        z.values (.ofData (d.filter us)) = .ok ws ∧
        ((∀ v ∈ us ++ vs, Truth v) → (d.filter us).filter ws = d.filter column) := by
  have rowWise := rowWise_of_makes single clear made
  refine ⟨rowWise.length_values regular column evaluated, fun rows inside =>
    rowWise.values_of_shows (shows_only regular inside) column evaluated, fun groups inside => ?_, ?_⟩
  · have shown := rowWise.values_of_shows (shows_groups inside) column evaluated
    rwa [List.map_map] at shown
  · rintro p q target rfl finished
    obtain ⟨y, z, k, hy, hz, plainy, plainz, rfl⟩ := sides_of_conjunction single clear finished
    obtain ⟨us, vs, left, right, rfl⟩ := (FeaturePlan.rowWise_values (by decide) y z k _ _).1 evaluated
    have lengthy := plainy.length_values regular us left
    have lengthz := plainz.length_values regular vs right
    have inside : ∀ i ∈ truePositions us, i < d.length := fun i hi =>
      lengthy ▸ List.mem_range.1 (List.mem_filter.1 hi).1
    have among := plainz.values_of_shows (shows_only regular inside) vs right
    refine ⟨y, z, _, _, us, vs, _, hy, hz, left, right, among, fun truth => ?_⟩
    have both := truePositions_and (lengthy.trans lengthz.symm) truth
    rw [filter_filter, ← both, lengthy]
    rfl

end

/-- A conjunction on rows in another order, on groups, and beside the filters of its sides. -/
theorem values_of_choice_conjunction :
    let item : Schema := ⟨"item", [("id", ⟨.primitive .integer, "id"⟩),
      ("ok", ⟨.primitive .boolean, "ok"⟩)]⟩
    let ok : Feature := .element (.table item) "ok" (.primitive .boolean)
    let known : Feature := .expression .notNull [.element (.table item) "id" (.primitive .integer)] none
    let both : Feature := .expression .and [ok, known] none
    let d : Dataset := ⟨[⟨"id", some "item"⟩, ⟨"ok", some "item"⟩],
      [[.number (.ofNat 1), .null, .number (.ofNat 3)], [.bool true, .bool true, .bool false]], 3⟩
    let t := translatorAfter .empty []
    (both.Throughout fun g => g.isCollective = false) ∧ Untangled [] both ∧ d.Regular ∧
      ∃ x t', t.Makes both x t' ∧ x.values (.ofData d) = .ok [.bool true, .bool false, .bool false] ∧
        x.values (.ofData (d.take [some 2, some 0, some 0]))
          = .ok [.bool false, .bool true, .bool true] ∧
        x.values ⟨d, some [[0, 2], [1]]⟩ = .ok [.bool true, .bool false] ∧
        ∃ (y z : FeaturePlan) (us ws : List Value), y.values (.ofData d) = .ok us ∧
          z.values (.ofData (d.filter us)) = .ok ws ∧
          (d.filter us).filter ws = d.filter [.bool true, .bool false, .bool false] := by
  intro item ok known both d t
  have plain : ∀ n k, (Feature.element (.table item) n k).Throughout fun g => g.isCollective = false :=
    fun _ _ => .mk rfl nofun
  have single : both.Throughout fun g => g.isCollective = false := by
    refine .mk rfl fun c hc => ?_
    rcases List.mem_pair.1 hc with rfl | rfl
    · exact plain _ _
    · exact .mk rfl fun c hc => List.mem_singleton.1 hc ▸ plain _ _
  have clear : Untangled [] both := .inl nofun
  have regular : d.Regular := ⟨rfl, by simp [d]⟩
  let y : FeaturePlan := .element (.table item) "ok"
  let z : FeaturePlan := .rowWise .notNull [.element (.table item) "id"] (.primitive .boolean)
  have hx : (t.serve (.finish (.feature both))).1
      = .ok (some (.feature (.rowWise .and [y, z] (.primitive .boolean)))) := rfl
  let t' := (t.serve (.finish (.feature both))).2
  have made : t.serve (.finish (.feature both)) = (.ok (some (.feature _)), t') := Prod.ext hx rfl
  have evaluated : FeaturePlan.values (.rowWise .and [y, z] (.primitive .boolean)) (.ofData d)
      = .ok [.bool true, .bool false, .bool false] := rfl
  obtain ⟨-, rows, groups, sides⟩ := values_of_choice single clear (.inl made) regular evaluated
  obtain ⟨y', z', _, _, us, vs, ws, hy, hz, left, right, among, filters⟩ :=
    sides ok known none rfl made
  have first : (t'.serve (.symbolOf (.feature ok))).1 = .ok (some (.feature y)) := rfl
  have second : ((t'.serve (.symbolOf (.feature ok))).2.serve (.symbolOf (.feature known))).1
      = .ok (some (.feature z)) := rfl
  rw [hy] at first second
  rw [hz] at second
  obtain rfl : y' = y := by simpa using first
  obtain rfl : z' = z := by simpa using second
  obtain rfl : [.bool true, .bool true, .bool false] = us := Except.ok.inj left
  obtain rfl : [.bool true, .bool false, .bool true] = vs := Except.ok.inj right
  refine ⟨single, clear, regular, _, _, .inl made, evaluated, rows [2, 0, 0] (by simp [d]),
    groups [[0, 2], [1]] (by simp [d]), y, z, _, ws, left, among, filters ?_⟩
  simp [Truth]

/-- A conjunction takes a number in a Boolean column for true, a filter does not: the row is left by the
conjunction, but not by both filters in turn. -/
theorem filters_differ :
    let item : Schema := ⟨"item", [("id", ⟨.primitive .integer, "id"⟩),
      ("ok", ⟨.primitive .boolean, "ok"⟩)]⟩
    let ok : Feature := .element (.table item) "ok" (.primitive .boolean)
    let known : Feature := .expression .notNull [.element (.table item) "id" (.primitive .integer)] none
    let both : Feature := .expression .and [ok, known] none
    let d : Dataset := ⟨[⟨"id", some "item"⟩, ⟨"ok", some "item"⟩],
      [[.number (.ofNat 1), .number (.ofNat 2)], [.number (.ofNat 3), .bool true]], 2⟩
    let t := translatorAfter .empty []
    both.Built ∧ both.hasCollective = false ∧ d.Regular ∧
      ∃ x y z t₁ t₂ t₃ us vs column ws, t.Makes both x t₁ ∧ t.Makes ok y t₂ ∧ t.Makes known z t₃ ∧
        x.values (.ofData d) = .ok column ∧ y.values (.ofData d) = .ok us ∧
        z.values (.ofData d) = .ok vs ∧ z.values (.ofData (d.filter us)) = .ok ws ∧
        (d.filter column).length = 2 ∧ ((d.filter us).filter ws).length = 1 := by
  intro item ok known both d t
  have table : (Source.table item).Built := .of_distinct rfl
  have hok : ok.Built := .element table (show (Source.table item).get "ok" = _ from rfl)
  have hknown : known.Built := built_test table rfl rfl
  refine ⟨built_pair hok hknown rfl, by decide +kernel, ⟨rfl, by simp [d]⟩, ?_⟩
  let y : FeaturePlan := .element (.table item) "ok"
  let z : FeaturePlan := .rowWise .notNull [.element (.table item) "id"] (.primitive .boolean)
  let x : FeaturePlan := .rowWise .and [y, z] (.primitive .boolean)
  have hx : (t.serve (.finish (.feature both))).1 = .ok (some (.feature x)) := rfl
  have hy : (t.serve (.finish (.feature ok))).1 = .ok (some (.feature y)) := rfl
  have hz : (t.serve (.finish (.feature known))).1 = .ok (some (.feature z)) := rfl
  exact ⟨x, y, z, _, _, _, [.number (.ofNat 3), .bool true], [.bool true, .bool true],
    [.bool true, .bool true], [.bool true], .inl (Prod.ext hx rfl), .inl (Prod.ext hy rfl),
    .inl (Prod.ext hz rfl), rfl, rfl, rfl, rfl, rfl, rfl⟩

end Evaluation

end QueryAlgebra
