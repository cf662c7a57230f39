import QueryAlgebra.Proofs.Evaluation.Alarms
import QueryAlgebra.Proofs.Evaluation.Frames
import QueryAlgebra.Proofs.Translation.Pairs
import QueryAlgebra.Proofs.Tree.Accepted

/-!
# The widths of columns

A translator that makes plans with alarms goes the same way as one that makes plans without them, and
their plans match node by node. So the columns of a statement are as wide as their batches wherever no
aggregate is evaluated on rows.

* `Rules.layered`: no aggregate stands for rows inside of an aggregate or in the clauses of a window.
* `Rules.ensures_calm`: wherever else a column is read row by row, the constructors refuse aggregates.
* `MatchedMemo`: what is remembered are plans with matching ones; `matched_of_gives`: every node makes such
  plans, `watchedWell_lawful`: so does every source.
* `columns_fill_batches`: no alarm is raised unless an aggregate is evaluated on rows; its column may have
  a single value, and where features are layered there is none.
* `aggregate_narrow`: a window that is partitioned by an aggregate on rows.
-/

namespace QueryAlgebra

open Evaluation Translation Dataset

/-! ### Features in layers -/

/-- Whether a feature has an aggregate outside of windows is kept by its key. -/
theorem Feature.hasAggregate_canonical : ∀ f : Feature, f.canonical.hasAggregate = f.hasAggregate := by
  refine childInduction fun f ih => ?_
  cases f with
  | aliased f n => exact ih f (List.mem_singleton_self f)
  | literal => rfl
  | element => rfl
  | expression op args t =>
    have parts : (canonicalFeatures args).any hasAggregate = args.any hasAggregate := by
      rw [canonicalFeatures_eq_map, List.any_map, Bool.eq_iff_iff, List.any_eq_true, List.any_eq_true]
      exact exists_congr fun c => and_congr_right fun hc => by rw [Function.comp_apply, ih c hc]
    simp only [canonical, hasAggregate, anyAggregate_eq, parts]
  | window => rfl

/-- No aggregate or window means no aggregate. -/
theorem Feature.hasAggregate_of_refused {f : Feature} (hf : f.Obeys .distinct)
    (h : f.refuseCollective = .ok ()) : f.hasAggregate = false := by
  refine childInduction (P := fun f => (f.Throughout fun g => g.isCollective = false) →
    f.hasAggregate = false) (fun f ih none => ?_) f ((refuseCollective_eq_ok_iff hf).1 h)
  have own := none.own
  simp only [isCollective, Bool.or_eq_false_iff] at own
  rw [hasAggregate_eq, own.2, own.1, Bool.false_or, Bool.not_false, Bool.true_and, List.any_eq_false]
  exact fun c hc => by simp [ih c hc (none.parts c hc)]

namespace Rules

/-- No aggregate stands for rows inside of an aggregate, or in the clauses of a window. -/
def layered : Rules where
  feature
    | .expression op args _ => op.aggregates = true → ∀ a ∈ args, a.hasAggregate = false
    | .window _ ps os _     =>
      (∀ p ∈ ps, p.hasAggregate = false) ∧ ∀ o ∈ os, o.feature.hasAggregate = false
    | _                     => True
  source _ := True

/-- What rows are joined, filtered and grouped by is neither an aggregate nor a window. -/
def singular : Rules where
  feature _ := True
  source
    | .join _ _ _ c            => ∀ p ∈ c, p.refuseCollective = .ok ()
    | .query _ _ pre grp _ _ _ =>
      (∀ p ∈ pre, p.refuseCollective = .ok ()) ∧ ∀ f ∈ grp, f.refuseCollective = .ok ()
    | _                        => True

/-- Rules that are asked for unless they are waived. -/
def waivedIf (waived : Bool) (p : Rules) : Rules where
  feature f := waived = false → p.feature f
  source s  := waived = false → p.source s

theorem implies_waivedIf (waived : Bool) (p : Rules) : p.Implies (p.waivedIf waived) :=
  ⟨fun _ h _ => h, fun _ h _ => h⟩

theorem waivedIf_false (p : Rules) : (p.waivedIf false).Implies p := ⟨fun _ h => h rfl, fun _ h => h rfl⟩

theorem waivedIf_true (p : Rules) : Rules.none.Implies (p.waivedIf true) :=
  ⟨fun _ _ => nofun, fun _ _ => nofun⟩

/-- Under these rules no aggregate is evaluated on rows. -/
def calm : Rules := distinct.and (layered.and singular)

theorem calm_distinct : calm.Implies distinct := and_left _ _

/-- The constructors see to filters, conditions and keys. -/
theorem ensures_calm : (structFree.and layered).Ensures calm where
  feature _ _ h := ⟨h.own.1, h.own.2, trivial⟩
  source s hb h := by
    refine ⟨((structFree_and_ensures _).source s hb h).1, trivial, ?_⟩
    cases s with
    | join l r k c => exact fun p hp => (hb.inv_join.2.2.2 p hp).checked
    | query s sel pre grp post ord rows =>
      exact ⟨fun p hp => (hb.inv_query.prefilter p hp).checked,
        fun f hf => (hb.inv_query.grouping f hf).2.2.1⟩
    | _ => trivial

end Rules

namespace Evaluation

/-! ### Translations -/

/-- The pairs of plans and watched plans. -/
abbrev watchedPairs (alarm : Fault) (single : Bool) (sources : KeyedMap Source SourcePlan) :
    Backend (SourcePlan × SourcePlan) (FeaturePlan × FeaturePlan) :=
  (backend sources .empty).beside (watching alarm single sources) (sources.mapValues fun x => (x, x))
    .empty

theorem watching_inStep (alarm : Fault) (single : Bool) (sources : KeyedMap Source SourcePlan) :
    InStep (backend sources .empty) (watching alarm single sources)
      (sources.mapValues fun x => (x, x)) .empty where
  sources s := by simp [KeyedMap.get?_mapValues, backend, Function.comp_def]
  sources' s := by simp [KeyedMap.get?_mapValues, watching, backend, Function.comp_def]
  features _ := rfl
  features' _ := rfl
  table _ _ _ := .ok _ _
  literal _ _ := .ok _ _
  expression _ _ _ _ := .ok _ _
  window x x' xs xs' ys ys' fr := by
    show Agree (FeaturePlan.window x xs ys fr)
      ((FeaturePlan.window x' xs' ys' fr).map (·.watched alarm single))
    unfold FeaturePlan.window
    split
    · split
      · exact .ok _ _
      · exact .error _
    · exact .ok _ _

variable {single : Bool} {m : List (String × FeaturePlan × FeaturePlan)}

/-- What is remembered are plans with watched ones that match. Keys tell which of them aggregate, if that
matters. -/
structure MatchedMemo (single : Bool) (m : List (String × FeaturePlan × FeaturePlan)) : Prop where
  matched : ∀ k p, Remembers m k p → FeaturePlan.Matched single p
  told    : single = false → ∀ f : Feature, f.Obeys .distinct → ∀ p, Remembers m f.key p →
    p.1.aggregate = f.hasAggregate

namespace MatchedMemo

variable (hm : MatchedMemo single m)
include hm

theorem each {fs : List Feature} {ps : List (FeaturePlan × FeaturePlan)} (h : Remembered m fs ps) :
    ∀ p ∈ ps, FeaturePlan.Matched single p :=
  forall_right_of_forall₂ (fun _ p => hm.matched _ p) h

theorem option {c : Option Feature} {z : Option (FeaturePlan × FeaturePlan)}
    (h : Remembered m c.toList z.toList) : ∀ p ∈ z, FeaturePlan.Matched single p :=
  fun p hp => hm.each h p (Option.mem_toList.2 hp)

theorem terms {os : List OrderTerm} {ys : List (OrderSymbol (FeaturePlan × FeaturePlan))}
    (h : RememberedTerms m os ys) : ∀ o ∈ ys, FeaturePlan.Matched single o.1 :=
  forall_right_of_forall₂ (fun _ _ h => hm.matched _ _ h.1) h

/-- Where a feature has no aggregate, its plan does not aggregate. -/
theorem flat {f : Feature} (none : single = false → f.Obeys .distinct ∧ f.hasAggregate = false)
    {p : FeaturePlan × FeaturePlan} (h : Remembers m f.key p) :
    single = true ∨ p.1.aggregate = false := by
  cases hs : single with
  | true => exact .inl rfl
  | false => exact .inr ((hm.told hs f (none hs).1 p h).trans (none hs).2)

theorem flat_each {fs : List Feature} {ps : List (FeaturePlan × FeaturePlan)} (h : Remembered m fs ps)
    (none : single = false → ∀ f ∈ fs, f.Obeys .distinct ∧ f.hasAggregate = false) :
    ∀ p ∈ ps, single = true ∨ p.1.aggregate = false :=
  forall_of_forall₂ (fun _ _ h none => hm.flat none h) h fun f hf hs => none hs f hf

theorem flat_option {c : Option Feature} {z : Option (FeaturePlan × FeaturePlan)}
    (h : Remembered m c.toList z.toList)
    (none : single = false → ∀ f ∈ c, f.Obeys .distinct ∧ f.hasAggregate = false) :
    ∀ p ∈ z, single = true ∨ p.1.aggregate = false :=
  fun p hp => hm.flat_each h (fun hs f hf => none hs f (Option.mem_toList.1 hf)) p (Option.mem_toList.2 hp)

theorem flat_terms {os : List OrderTerm} {ys : List (OrderSymbol (FeaturePlan × FeaturePlan))}
    (h : RememberedTerms m os ys)
    (none : single = false → ∀ o ∈ os, o.feature.Obeys .distinct ∧ o.feature.hasAggregate = false) :
    ∀ o ∈ ys, single = true ∨ o.1.1.aggregate = false :=
  forall_of_forall₂ (fun _ _ h none => hm.flat none h.1) h fun o ho hs => none hs o ho

end MatchedMemo

section

variable {alarm : Fault} {sources : KeyedMap Source SourcePlan}
  {o : KeyedMap Source (SourcePlan × SourcePlan)} {f : Feature} {x : FeaturePlan × FeaturePlan}
  (gives : (watchedPairs alarm single sources).Gives m o f (.ok x))
include gives

/-- Whether the plan of a node aggregates is told by its feature, where it is for its parts. -/
theorem aggregate_of_gives
    (parts : ∀ c ∈ f.children, ∀ p, Remembers m c.key p → p.1.aggregate = c.hasAggregate) :
    x.1.aggregate = f.hasAggregate := by
  generalize hr : Except.ok x = r at gives
  cases gives with
  | aliased h =>
    cases hr
    have part := parts _ (List.mem_singleton_self _) _ h
    exact part
  | literal =>
    cases hr
    rfl
  | @element s n k =>
    obtain ⟨y, -, rfl⟩ := map_eq_ok.1
      (show ((watchedPairs alarm single sources).origin o s).map _ = .ok x from hr.symm)
    rfl
  | @expression op args t xs h =>
    cases hr
    have arguments : (xs.map (·.1)).any FeaturePlan.aggregate = args.any Feature.hasAggregate := by
      unfold Remembered at h
      induction h with
      | nil => rfl
      | cons hx _ ih =>
        rw [List.map_cons, List.any_cons, List.any_cons, parts _ List.mem_cons_self _ hx,
          ih fun c hc => parts c (List.mem_cons_of_mem _ hc)]
    show (FeaturePlan.expression op (xs.map (·.1)) _).aggregate = _
    rw [Feature.hasAggregate, Feature.anyAggregate_eq, ← arguments]
    unfold FeaturePlan.expression
    cases op.aggregates <;> rfl
  | @window fn ps os fr y xs ys hfn hps hos =>
    obtain ⟨y', made, rfl⟩ := map_eq_ok.1 hr.symm
    obtain ⟨z, first, made⟩ := bind_eq_ok.1 made
    obtain ⟨z', -, made⟩ := bind_eq_ok.1 made
    obtain rfl := pure_eq_ok.1 made
    exact window_eq_ok first ▸ rfl

/-- **Every node gives a plan with a watched one that matches.** -/
theorem matched_of_gives (hm : MatchedMemo single m) (hf : f.Obeys (Rules.calm.waivedIf single)) :
    FeaturePlan.Matched single x := by
  have calm : single = false → f.Obeys .calm := by
    rintro rfl
    exact Feature.Obeys.mono (Rules.waivedIf_false _) f hf
  have distinct : single = false → ∀ c ∈ f.children, c.Obeys .distinct := fun hs c hc =>
    Feature.Obeys.mono Rules.calm_distinct c ((calm hs).children c hc)
  generalize hr : Except.ok x = r at gives
  cases gives with
  | aliased h =>
    cases hr
    exact ((hm.matched _ _ h).aliased _).watched alarm
  | literal =>
    cases hr
    exact (FeaturePlan.Matched.constant _).watched alarm
  | @element s n k =>
    obtain ⟨y, -, rfl⟩ := map_eq_ok.1
      (show ((watchedPairs alarm single sources).origin o s).map _ = .ok x from hr.symm)
    exact (FeaturePlan.Matched.element s n).watched alarm
  | @expression op args t xs h =>
    cases hr
    refine FeaturePlan.Matched.watched (x := .expression op (xs.map (·.1)) _)
      (y := .expression op (xs.map (·.2)) _) ?_ alarm
    cases aggregates : op.aggregates with
    | true =>
      have flat := hm.flat_each h fun hs a ha => ⟨distinct hs a ha, (calm hs).1.2.1 aggregates a ha⟩
      simp only [FeaturePlan.expression, aggregates, if_true, List.head?_map]
      exact .aggregateOf op (fun p hp => hm.each h p (List.mem_of_mem_head? hp))
        fun p hp => flat p (List.mem_of_mem_head? hp)
    | false =>
      simp only [FeaturePlan.expression, aggregates, Bool.false_eq_true, if_false]
      exact .rowWise op _ (hm.each h)
  | @window fn ps os fr y xs ys hfn hps hos =>
    obtain ⟨y', made, rfl⟩ := map_eq_ok.1 hr.symm
    obtain ⟨z, first, made⟩ := bind_eq_ok.1 made
    obtain ⟨z', watched, made⟩ := bind_eq_ok.1 made
    obtain rfl := pure_eq_ok.1 made
    obtain ⟨w, second, rfl⟩ := map_eq_ok.1 watched
    obtain rfl := window_eq_ok first
    obtain rfl := window_eq_ok second
    refine (FeaturePlan.Matched.windowValues fr (hm.matched _ _ hfn) (hm.each hps) (hm.terms hos)
      (hm.flat_each hps fun hs p hp => ⟨distinct hs p ?_, (calm hs).1.2.1.1 p hp⟩)
      (hm.flat_terms hos fun hs o ho => ⟨distinct hs o.feature ?_, (calm hs).1.2.1.2 o ho⟩)).watched alarm
    · simp [Feature.children, hp]
    · exact List.mem_cons_of_mem _ (List.mem_append_right _ (List.mem_map_of_mem ho))

end

/-- Everything that was translated is a plan with a watched one that does the same. -/
def watchedWell (single : Bool) :
    Invariant (SourcePlan × SourcePlan) (FeaturePlan × FeaturePlan) where
  rules := Rules.calm.waivedIf single
  memo := MatchedMemo single
  origins _ := True
  source _ := SourcePlan.Same
  fault _ := True

/-- A plan that is provided does what it does beside any other. -/
theorem same_of_provided {alarm : Fault} {sources : KeyedMap Source SourcePlan}
    (provided : ∀ s x, sources.get? s = some x → x.Rectangular) (s : Source)
    {x : SourcePlan × SourcePlan} (h : SourcePlan.Same x) :
    SourcePlan.Same (((watchedPairs alarm single sources).sources.get? s).getD x) := by
  show SourcePlan.Same (((sources.mapValues fun x => (x, x)).get? s).getD x)
  rw [KeyedMap.get?_mapValues]
  cases found : sources.get? s with
  | none => exact h
  | some y => exact .refl (provided s y found)

/-- Where aggregates are refused, there are none. -/
theorem flat_of_refused {f : Feature} (hf : f.Obeys (Rules.calm.waivedIf single))
    (refused : single = false → f.refuseCollective = .ok ()) :
    single = false → f.Obeys .distinct ∧ f.hasAggregate = false := by
  rintro rfl
  have distinct := Feature.Obeys.mono Rules.calm_distinct f (Feature.Obeys.mono (Rules.waivedIf_false _) f hf)
  exact ⟨distinct, Feature.hasAggregate_of_refused distinct (refused rfl)⟩

/-- **Every node makes such plans**, of features as well as of sources. -/
theorem watchedWell_lawful (alarm : Fault) {sources : KeyedMap Source SourcePlan}
    (provided : ∀ s x, sources.get? s = some x → x.Rectangular) :
    (watchedWell single).Lawful (watchedPairs alarm single sources) where
  selected := Rules.selected_of_element fun _ _ _ _ => ⟨trivial, trivial, trivial⟩
  connective op hop f g _ _ _ := by
    have plain : ∀ op ∈ connectives, op.aggregates = false := by decide
    refine ⟨nofun, fun aggregates => ?_, trivial⟩
    cases (plain op hop).symm.trans aggregates
  nowhere := trivial
  put := by
    intro f m o x hf hm _ _ _ gives
    refine ⟨fun k p hk => ?_, fun hs g hg p hp => ?_⟩
    · by_cases same : k = f.key
      · subst same
        obtain rfl : x = p := by
          rw [Remembers, Assoc.find?_put_self] at hk
          exact Option.some.inj hk
        exact matched_of_gives gives hm hf
      · rw [Remembers, Assoc.find?_put_of_ne _ _ same] at hk
        exact hm.matched k p hk
    · by_cases same : g.key = f.key
      · subst hs
        obtain rfl : x = p := by
          rw [Remembers, same, Assoc.find?_put_self] at hp
          exact Option.some.inj hp
        have distinct := Feature.Obeys.mono Rules.calm_distinct f
          (Feature.Obeys.mono (Rules.waivedIf_false _) f hf)
        rw [Feature.told_eq_of_key Feature.hasAggregate_canonical hg distinct same]
        exact aggregate_of_gives gives fun c hc p hp => hm.told rfl c (distinct.children c hc) p hp
      · rw [Remembers, Assoc.find?_put_of_ne _ _ same] at hp
        exact hm.told hs g hg p hp
  refused _ _ _ _ := trivial
  table := by
    intro t x _ hx
    cases hx
    refine ⟨fun _ _ => trivial, fun _ _ => ?_⟩
    show SourcePlan.Same
      (SourcePlan.qualified ((((sources.mapValues fun x => (x, x)).get? (.table t)).map (·.1)).getD _) t.name,
       SourcePlan.qualified ((((sources.mapValues fun x => (x, x)).get? (.table t)).map (·.2)).getD _) t.name)
    rw [KeyedMap.get?_mapValues]
    cases found : sources.get? (.table t) with
    | none => exact .refl ((SourcePlan.rectangular_scan t.name).qualified t.name)
    | some y => exact .refl ((provided _ y found).qualified t.name)
  noTable _ := trivial
  reference _ hx := ⟨fun _ _ => trivial, hx.qualified _⟩
  join obeys hm hx hy hz := by
    have condition := optionObeys_iff.1 obeys.2.2.2
    exact same_of_provided provided _ (hx.join hy (hm.option hz) (hm.flat_option hz fun hs p hp =>
      flat_of_refused (condition p hp) (fun hs => (obeys.1 hs).2.2 p hp) hs) _)
  set _ hx hy := same_of_provided provided _ (hx.set hy _)
  query obeys hm hx hxs hy hys hz hzs := by
    have clauses := obeys.statement
    exact same_of_provided provided _ (hx.query (hm.each hxs) (hm.option hy)
      (hm.flat_option hy fun hs p hp =>
        flat_of_refused (clauses.prefilter p hp) (fun hs => (obeys.1 hs).2.2.1 p hp) hs)
      (hm.each hys)
      (hm.flat_each hys fun hs f hf =>
        flat_of_refused (clauses.grouping f hf) (fun hs => (obeys.1 hs).2.2.2 f hf) hs)
      (hm.option hz) (hm.terms hzs) _)

/-- A translator that makes plans with alarms, behind whole translations. -/
def watchingAfter (alarm : Fault) (single : Bool) (sources : KeyedMap Source SourcePlan)
    (history : List Tree) : Translator SourcePlan FeaturePlan :=
  (Translator.ofBackend (watching alarm single sources)).after history

/-- **Columns fill their batches.** While a statement is evaluated, behind whichever other trees it was
translated, the column of every feature has a value for each row or group of its batch, or it is that of
an aggregate on rows, with a single value: an alarm that is raised otherwise is not raised. Where no
aggregate stands for rows inside of an aggregate or in the clauses of a window, there is no such exception,
as the constructors refuse aggregates wherever else rows are looked at one by one. -/
theorem columns_fill_batches (alarm : Fault) {sources : KeyedMap Source SourcePlan}
    (provided : ∀ s x, sources.get? s = some x → x.Rectangular) {history : List Tree} {s : Source}
    {x : SourcePlan} {t : Translator SourcePlan FeaturePlan}
    (compiled : (translatorAfter sources history).serve (.finish (.source s))
      = (.ok (some (.source x)), t)) :
    (∃ x' t', (watchingAfter alarm true sources history).serve (.finish (.source s))
        = (.ok (some (.source x')), t') ∧
      ∀ catalog : Catalog, catalog.Rectangular → x' catalog = x catalog) ∧
    ((∀ tree ∈ (.source s :: history : List Tree), tree.Built ∧ tree.Obeys (Rules.structFree.and .layered)) →
      ∃ x' t', (watchingAfter alarm false sources history).serve (.finish (.source s))
          = (.ok (some (.source x')), t') ∧
        ∀ catalog : Catalog, catalog.Rectangular → x' catalog = x catalog) := by
  have watched : ∀ single : Bool,
      (∀ tree ∈ (.source s :: history : List Tree), tree.Obeys (Rules.calm.waivedIf single)) →
      ∃ x' t', (watchingAfter alarm single sources history).serve (.finish (.source s))
          = (.ok (some (.source x')), t') ∧
        ∀ catalog : Catalog, catalog.Rectangular → x' catalog = x catalog := by
    intro single obeys
    obtain ⟨own, known⟩ := List.forall_mem_cons.1 obeys
    have lawful : (watchedWell single).Lawful _ := watchedWell_lawful alarm provided
    obtain ⟨x', t', compiled', same⟩ := (watching_inStep alarm single sources).source_compiled lawful
      ⟨nofun, fun _ _ _ _ => nofun⟩ known own compiled
    exact ⟨x', t', compiled', same.2⟩
  refine ⟨watched true fun tree _ => tree.obeys_none.mono (Rules.waivedIf_true _),
    fun known => watched false fun tree htree => ?_⟩
  obtain ⟨built, obeys⟩ := known tree htree
  exact (built.obeys Rules.ensures_calm obeys).mono (Rules.implies_waivedIf _ _)

/-! ### Columns of given statements -/

/-- The fault that a plan ends in, if a translation ends in a plan that cannot be evaluated. -/
def faultOf (r : Except Fault (Option (Translation.Symbol SourcePlan FeaturePlan))) (catalog : Catalog) :
    Option Fault :=
  match r with
  | .ok (some (.source plan)) =>
    match plan catalog with
    | .ok _    => none
    | .error e => some e
  | _ => none

theorem raised_of_faultOf {p : Except Fault (Option (Translation.Symbol SourcePlan FeaturePlan)) ×
      Translator SourcePlan FeaturePlan} {catalog : Catalog} {test : Fault → Bool}
    (h : (faultOf p.1 catalog).any test = true) :
    ∃ plan t e, p = (.ok (some (.source plan)), t) ∧ plan catalog = .error e ∧ test e = true := by
  obtain ⟨r, t⟩ := p
  obtain ⟨e, he, passed⟩ := (Option.any_eq_true _ _).1 h
  dsimp only [faultOf] at he
  split at he
  · rename_i plan
    split at he
    · cases he
    · rename_i raised
      exact ⟨plan, t, e, rfl, Option.some.inj he ▸ raised, passed⟩
  · cases he

/-- A statement that selects a window over the rows of some schools, and the scores of the rows. -/
def scoredWindow (fn : Feature) (ps : List Feature) : Source :=
  .query scored [.window fn ps [] none] none [] none [] none

theorem rectangular_scored (school score : List Nat) (same : score.length = school.length) :
    Catalog.Rectangular [("scored", scoredData school score)] := by
  intro name d found
  unfold Assoc.find? at found
  split at found
  · obtain rfl := Option.some.inj found
    exact ⟨rfl, by simp [scoredData, same]⟩
  · cases found

/-- The scores of a school are summed up for each of its rows. -/
theorem columns_fill_batches_of_school :
    let q := scoredWindow (.expression .sum [scoredField "score"] none) [scoredField "school"]
    let catalog : Catalog := [("scored", scoredData [1, 1, 2] [10, 20, 5])]
    ∃ x t d x' t', (translatorAfter .empty []).serve (.finish (.source q)) = (.ok (some (.source x)), t) ∧
      x catalog = .ok d ∧ textsOfRows d = [["30"], ["30"], ["5"]] ∧
      (watchingAfter .prematureFetch false .empty []).serve (.finish (.source q))
        = (.ok (some (.source x')), t') ∧ x' catalog = .ok d := by
  intro q catalog
  have hfield (name : String) (h : scored.get name = .ok (scoredField name)) : (scoredField name).Built :=
    .element scored_built h
  have hsum : (Feature.expression .sum [scoredField "score"] none).Built :=
    built_single (hfield "score" rfl) rfl
  have hwindow : (Feature.window (.expression .sum [scoredField "score"] none) [scoredField "school"] []
      none).Built :=
    @Feature.Built.window _ [.feature (scoredField "school")] [] none _ hsum
      (by simpa using .feature (hfield "school" rfl)) (by simp) rfl
  have built : q.Built := scored_built.selecting (by simpa using hwindow) (by decide +kernel)
  have source : scored.Obeys (Rules.structFree.and .layered) := ⟨structFree_table rfl, trivial⟩
  have field (name : String) : (scoredField name).Obeys (Rules.structFree.and .layered) :=
    ⟨⟨trivial, trivial⟩, source⟩
  have untyped : ∀ k ∈ (none : Option Kind), k.StructFree := by simp
  have window : (Feature.window (.expression .sum [scoredField "score"] none) [scoredField "school"] []
      none).Obeys (Rules.structFree.and .layered) :=
    ⟨⟨trivial, List.forall_mem_singleton.2 rfl, nofun⟩,
      ⟨⟨untyped, fun _ => List.forall_mem_singleton.2 rfl⟩, field _, trivial⟩,
      ⟨field _, trivial⟩, trivial⟩
  have obeys : q.Obeys (Rules.structFree.and .layered) :=
    ⟨⟨trivial, trivial⟩, source, ⟨window, trivial⟩, trivial, trivial, trivial, trivial⟩
  obtain ⟨x, t, d, compiled, evaluated, texts⟩ := evaluated_of_dataOf
    (show (dataOf ((translatorAfter .empty []).serve (.finish (.source q))).1 catalog).map
      textsOfRows = some [["30"], ["30"], ["5"]] by decide +kernel)
  have nothing : ∀ s x, (KeyedMap.empty : KeyedMap Source SourcePlan).get? s = some x → x.Rectangular :=
    fun s x (h : none = some x) => nomatch h
  obtain ⟨x', t', watched, same⟩ := (columns_fill_batches .prematureFetch nothing compiled).2
    (List.forall_mem_singleton.2 ⟨built, obeys⟩)
  exact ⟨x, t, d, x', t', compiled, evaluated, texts, watched,
    (same catalog (rectangular_scored _ _ rfl)).trans evaluated⟩

/-- **A window that is partitioned by an aggregate** looks at a column with one value for all rows, so that
the first row is in a partition of its own. -/
theorem aggregate_narrow :
    let count : Feature := .expression .count [] none
    let q := scoredWindow count [count]
    let catalog : Catalog := [("scored", scoredData [1, 1, 2] [10, 20, 5])]
    q.Built ∧ q.Obeys .structFree ∧ catalog.Rectangular ∧
    (∃ x t d, (translatorAfter .empty []).serve (.finish (.source q)) = (.ok (some (.source x)), t) ∧
      x catalog = .ok d ∧ textsOfRows d = [["1"], ["2"], ["2"]]) ∧
    ∃ x t, (watchingAfter .prematureFetch false .empty []).serve (.finish (.source q))
        = (.ok (some (.source x)), t) ∧ x catalog = .error .prematureFetch := by
  intro count q catalog
  have hcount : count.Built := built_count
  have hwindow : (Feature.window count [count] [] none).Built :=
    @Feature.Built.window count [.feature count] [] none _ hcount (by simpa using .feature hcount)
      (by simp) rfl
  have built : q.Built := scored_built.selecting (by simpa using hwindow) (by decide +kernel)
  have alarmed : (faultOf ((watchingAfter .prematureFetch false .empty []).serve (.finish (.source q))).1
      catalog).any (fun | .prematureFetch => true | _ => false) = true := by decide +kernel
  obtain ⟨x, t, e, compiled, raised, test⟩ := raised_of_faultOf alarmed
  obtain rfl : e = .prematureFetch := by cases e <;> first | rfl | cases test
  have untyped : count.Obeys .structFree := ⟨nofun, trivial⟩
  have free : q.Obeys .structFree := ⟨trivial, structFree_table rfl,
    ⟨⟨trivial, untyped, ⟨untyped, trivial⟩, trivial⟩, trivial⟩, trivial, trivial, trivial, trivial⟩
  exact ⟨built, free, rectangular_scored _ _ rfl, evaluated_of_dataOf (by decide +kernel), x, t, compiled,
    raised⟩

end Evaluation

end QueryAlgebra
