import QueryAlgebra.Proofs.Evaluation.Pushdown
import QueryAlgebra.Proofs.Evaluation.Rows

/-!
# Plans that go row by row

A plan of constants, elements and row-wise operators has a value for each row, whatever the other rows
are. So where other data shows some rows of given data in the columns of elements, it shows the values of
those rows in the column of every such plan.

* `FeaturePlan.RowWise`: the plans without aggregates and windows.
* `Batch.Shows`: a batch that has rows of given data, as far as elements tell.
* `FeaturePlan.RowWise.values_of_shows`: it has the values of those rows.
* `Translator.Makes`: what a translator makes of a feature; `Untangled`: what it may have translated before.
* `rowWise_of_makes`: of a feature without aggregates and windows it makes a plan without them.
-/

namespace QueryAlgebra

open Evaluation Translation Dataset

namespace Evaluation

/-! ### Plans -/

/-- A plan without aggregates and windows. -/
inductive FeaturePlan.RowWise : FeaturePlan → Prop where
  | constant (v : Value) : RowWise (.constant v false none)
  | element (s : Source) (n : String) : RowWise (.element s n)
  | aliased {x : FeaturePlan} (n : String) (h : RowWise x) : RowWise (x.aliased n)
  | rowWise (op : Operator) {xs : List FeaturePlan} (k : Kind) (h : ∀ x ∈ xs, RowWise x) :
    RowWise (.rowWise op xs k)

/-- The batch shows rows of data, in an order: it has as many rows or groups, and the column of an element
has the items of those rows. -/
structure Batch.Shows (b : Batch) (d : Dataset) (rows : List Nat) : Prop where
  size     : b.size = rows.length
  inside   : ∀ i ∈ rows, i < d.length
  elements : ∀ s n column, (FeaturePlan.element s n).values (.ofData d) = .ok column →
    (FeaturePlan.element s n).values b = .ok (rows.map (item column))

/-- Columns of plans that each have the items of the rows shown. -/
theorem columns_of_shows {xs : List FeaturePlan} {d : Dataset} {b : Batch} {rows : List Nat}
    (each : ∀ x ∈ xs, ∀ column, x.values (.ofData d) = .ok column →
      x.values b = .ok (rows.map (item column))) {columns : List (List Value)}
    (evaluated : xs.mapM (fun x => x.values (.ofData d)) = .ok columns) :
    xs.mapM (fun x => x.values b) = .ok (columns.map fun c => rows.map (item c)) := by
  refine mapM_of_forall₂ (List.forall₂_map_right_iff.2 ?_)
  exact ((List.forall₂_and_left _ _).2 ⟨each, mapM_eq_ok evaluated⟩).imp fun x c h => h.1 c h.2

namespace FeaturePlan

/-- **A batch that shows rows of data shows the values of those rows** in the column of a plan without
aggregates and windows. -/
theorem RowWise.values_of_shows {x : FeaturePlan} (hx : x.RowWise) {d : Dataset} {b : Batch}
    {rows : List Nat} (shows : b.Shows d rows) :
    ∀ column, x.values (.ofData d) = .ok column → x.values b = .ok (rows.map (item column)) := by
  induction hx with
  | constant v =>
    intro column evaluated
    obtain rfl := Except.ok.inj evaluated
    refine congrArg Except.ok (List.ext_getElem (by simp [shows.size]) fun i _ bound => ?_)
    have row : i < rows.length := by simpa using bound
    simp [item, Batch.size, Batch.ofData, shows.inside _ (List.getElem_mem row)]
  | element s n => exact shows.elements s n
  | aliased n _ ih => exact ih
  | @rowWise op xs k _ ih =>
    intro column evaluated
    obtain ⟨columns, arguments, evaluated⟩ := bind_eq_ok.1 evaluated
    have all : Tabulates d.length _ column := .of_mapM evaluated
    have listed : rows.map (item column)
        = (List.range b.size).map fun i => item column (rows.getD i 0) := by
      refine List.ext_getElem (by simp [shows.size]) fun i bound _ => ?_
      have bound : i < rows.length := by simpa using bound
      simp [bound]
    rw [listed]
    refine bind_eq_ok.2 ⟨_, columns_of_shows ih arguments, mapM_eq_map fun i hi => ?_⟩
    have bound : i < rows.length := shows.size ▸ List.mem_range.1 hi
    have row : rows.getD i 0 < d.length := by
      rw [List.getD_eq_getElem _ _ bound]
      exact shows.inside _ (List.getElem_mem bound)
    rw [← all.item _ row]
    simp [item, bound, Function.comp_def]

/-- The column of such a plan is as long as the data, if that is regular. -/
theorem RowWise.length_values {x : FeaturePlan} (hx : x.RowWise) {d : Dataset} (regular : d.Regular) :
    ∀ column, x.values (.ofData d) = .ok column → column.length = d.length := by
  induction hx with
  | constant v =>
    intro column evaluated
    obtain rfl := Except.ok.inj evaluated
    exact List.length_replicate
  | element s n =>
    intro column evaluated
    obtain ⟨c, found, made⟩ := bind_eq_ok.1 evaluated
    obtain rfl := pure_eq_ok.1 made
    exact regular.height _ (mem_of_column regular found)
  | aliased n _ ih => exact ih
  | rowWise op k _ _ =>
    intro column evaluated
    obtain ⟨columns, -, evaluated⟩ := bind_eq_ok.1 evaluated
    exact (Tabulates.of_mapM evaluated).length

end FeaturePlan

end Evaluation

/-! ### Translations -/

/-- The translator makes the plan of the feature, asked for the feature as a whole or for its symbol, and
goes on as the other one. -/
def Translation.Translator.Makes (t : Translator SourcePlan FeaturePlan) (f : Feature) (x : FeaturePlan)
    (t' : Translator SourcePlan FeaturePlan) : Prop :=
  t.serve (.finish (.feature f)) = (.ok (some (.feature x)), t') ∨
    t.serve (.symbolOf (.feature f)) = (.ok (some (.feature x)), t')

namespace Evaluation

/-- No aggregate that was translated before is taken for a part of the feature: all before were features
without aggregates and windows, or keys tell all that was translated. -/
def Untangled (history : List Tree) (f : Feature) : Prop :=
  (∀ tree ∈ history, ∃ g : Feature, tree = .feature g ∧ g.Throughout fun h => h.isCollective = false) ∨
    f.Obeys .distinct ∧ ∀ tree ∈ history, tree.Obeys .distinct

/-- What is remembered under the keys of features of a sort goes row by row. -/
def rowWiseMemo (p : Rules) (P : Feature → Prop) : Invariant SourcePlan FeaturePlan where
  rules := p
  memo m := ∀ g, P g → ∀ x, Remembers m g.key x → x.RowWise
  origins _ := True
  source _ _ := True
  fault _ := True

section

variable {sources : KeyedMap Source SourcePlan}

/-- What a node without aggregates and windows gives goes row by row, if what is remembered for its parts
does. -/
theorem rowWise_of_gives {m : List (String × FeaturePlan)} {o : KeyedMap Source SourcePlan} {f : Feature}
    {x : FeaturePlan} (gives : (backend sources .empty).Gives m o f (.ok x))
    (single : f.isCollective = false)
    (parts : ∀ c ∈ f.children, ∀ y, Remembers m c.key y → y.RowWise) : x.RowWise := by
  generalize hr : Except.ok x = r at gives
  cases gives with
  | aliased h =>
    obtain rfl := Except.ok.inj hr
    exact (parts _ (List.mem_singleton_self _) _ h).aliased _
  | literal =>
    obtain rfl := Except.ok.inj hr
    exact .constant _
  | element =>
    obtain ⟨_, -, rfl⟩ := map_eq_ok.1 hr.symm
    exact .element _ _
  | @expression op args t xs h =>
    have own : op.aggregates = false := by
      simpa [Feature.isCollective, Feature.isWindow, Feature.aggregates] using single
    obtain ⟨y, made, rfl⟩ := map_eq_ok.1 hr.symm
    obtain rfl := Except.ok.inj made
    have plain : (FeaturePlan.expression op xs (Feature.expression op args t).kind).RowWise := by
      simp only [FeaturePlan.expression, own, Bool.false_eq_true, if_false]
      unfold Remembered at h
      exact .rowWise op _ (forall_of_forall₂ (P := fun c : Feature => ∀ y, Remembers m c.key y → y.RowWise)
        (fun _ x known row => row x known) h parts)
    exact plain
  | window => simp [Feature.isCollective, Feature.isWindow] at single

/-- One more symbol is remembered. -/
theorem rowWiseMemo_put {p : Rules} {P : Feature → Prop} {m : List (String × FeaturePlan)}
    (hm : (rowWiseMemo p P).memo m) {f : Feature} {x : FeaturePlan}
    (given : ∀ g, P g → g.key = f.key → x.RowWise) :
    (rowWiseMemo p P).memo (Assoc.put (· == ·) f.key x m) := by
  intro g hg y hy
  by_cases same : g.key = f.key
  · rw [Remembers, same, Assoc.find?_put_self] at hy
    exact Option.some.inj hy ▸ given g hg same
  · rw [Remembers, Assoc.find?_put_of_ne _ _ same] at hy
    exact hm g hg y hy

/-- Features without aggregates and windows leave nothing else in a memo. -/
theorem rowWise_kept : (rowWiseMemo .none (Feature.Throughout fun g => g.isCollective = false)).KeptBy
    (backend sources .empty) (Feature.Throughout fun g => g.isCollective = false) where
  parts hf := hf.parts
  put hf hm _ _ _ gives := rowWiseMemo_put hm fun _ _ _ =>
    rowWise_of_gives gives hf.own fun c hc => hm c (hf.parts c hc)
  refused _ _ _ _ := trivial

/-- Where keys tell features, what is remembered for a feature without aggregates and windows goes row by
row, whatever else was translated. -/
theorem rowWise_lawful : (rowWiseMemo .distinct fun g =>
    g.Obeys .distinct ∧ g.Throughout fun h => h.isCollective = false).Lawful (backend sources .empty) where
  selected := Rules.distinct_offered.selected
  connective _ _ _ _ _ _ := nofun
  nowhere := trivial
  put := by
    intro f m o x hf hm _ _ _ gives
    refine rowWiseMemo_put hm fun g ⟨distinct, single⟩ same => rowWise_of_gives gives ?_ fun c hc => ?_
    · rw [← Feature.isCollective_eq_of_key distinct hf same]
      exact single.own
    · -- A part has the key of a part of the feature that is without aggregates and windows.
      have part : c.canonical ∈ g.children.map Feature.canonical := by
        rw [← Feature.children_canonical, Feature.canonical_eq_of_key distinct hf same,
          Feature.children_canonical]
        exact List.mem_map_of_mem hc
      obtain ⟨c', hc', canonical⟩ := List.mem_map.1 part
      have key : c'.key = c.key := by rw [← c'.key_canonical, canonical, c.key_canonical]
      rw [← key]
      exact hm c' ⟨distinct.children c' hc', single.parts c' hc'⟩
  refused _ _ _ _ := trivial
  table _ _ := ⟨fun _ _ => trivial, fun _ _ => trivial⟩
  noTable _ := trivial
  reference _ _ := ⟨fun _ _ => trivial, trivial⟩
  join _ _ _ _ _ := trivial
  set _ _ _ := trivial
  query _ _ _ _ _ _ _ _ := trivial

variable {history : List Tree} {f : Feature} (single : f.Throughout fun g => g.isCollective = false)
  (clear : Untangled history f) {x : FeaturePlan} {t : Translator SourcePlan FeaturePlan}
include single clear

/-- Behind trees that are not taken for the feature, what is remembered for it goes row by row. -/
theorem Untangled.kept (sources : KeyedMap Source SourcePlan) : ∃ (p : Rules) (P Q : Feature → Prop),
    (rowWiseMemo p P).KeptBy (backend sources .empty) Q ∧ Q f ∧ P f ∧ (∀ c ∈ f.children, P c) ∧
      (translatorAfter sources history).backend = backend sources .empty ∧
      (translatorAfter sources history).state.Clean ∧
      (rowWiseMemo p P).Holds (translatorAfter sources history).state.bench := by
  rcases clear with features | ⟨distinct, known⟩
  · refine ⟨_, _, _, rowWise_kept, single, single, single.parts, Invariant.holds_after
      (fun tree ht w hw => ?_) rfl State.clean_fresh ⟨nofun, trivial, Readings.All.empty⟩⟩
    obtain ⟨g, rfl, plain⟩ := features tree ht
    exact rowWise_kept.finish_holds plain hw
  · exact ⟨_, _, _, rowWise_lawful.keptBy, distinct, ⟨distinct, single⟩,
      fun c hc => ⟨distinct.children c hc, single.parts c hc⟩, rowWise_lawful.after_holds known rfl
        State.clean_fresh ⟨nofun, trivial, Readings.All.empty⟩⟩

/-- A feature as a whole is made of what is remembered for its parts. -/
theorem Untangled.finished
    (made : (translatorAfter sources history).serve (.finish (.feature f)) = (.ok (some (.feature x)), t)) :
    (∃ o, (backend sources .empty).Gives t.state.memo o f (.ok x)) ∧
      ∀ c ∈ f.children, ∀ y, Remembers t.state.memo c.key y → y.RowWise := by
  obtain ⟨p, P, Q, kept, hq, -, parts, hb, clean, holds⟩ := clear.kept single sources
  obtain ⟨-, -, holds, gives⟩ := kept.finished hb clean holds hq made
  exact ⟨⟨_, gives⟩, fun c hc => holds.memo c (parts c hc)⟩

/-- **Of a feature without aggregates and windows a translator makes a plan without them**, if it takes
nothing that it has translated before for a part of it. -/
theorem rowWise_of_makes (made : (translatorAfter sources history).Makes f x t) : x.RowWise := by
  rcases made with made | made
  · obtain ⟨⟨o, gives⟩, parts⟩ := clear.finished single made
    exact rowWise_of_gives gives single.own parts
  · obtain ⟨p, P, Q, kept, hq, hp, -, hb, clean, holds⟩ := clear.kept single sources
    obtain ⟨-, -, holds, remembered⟩ := kept.recalled hb clean holds hq made
    exact holds.memo f hp x remembered

end

end Evaluation

end QueryAlgebra
