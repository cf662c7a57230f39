import QueryAlgebra.Proofs.Evaluation.Composition

/-!
# Plans by recursion

A tree tells what it is evaluated to by recursion over it, without a memo and without a stack. Where
the keys of elements tell their kinds and the names of their tables, a translator gives such plans,
whatever it has translated before.

* `Feature.Plans`, `Source.Plans`: the plans of a tree.
* `Feature.Column`, `Source.Data`: what they are evaluated to.
* `Rules.faithful`: the keys of elements tell their kinds and labels.
* `plans_of_remembered`, `plans_of_composed`: what is remembered for a feature, and what a source is
  translated to, are plans of it; `plans_of_compiled_window`: so is what a window is translated to.
-/

namespace QueryAlgebra

open Evaluation Translation

/-! ### Plans -/

/-- A plan of a feature, made from plans of its parts. Which sign a zero has, be it in a literal or in
a frame, is left open, as it is by keys. -/
inductive Feature.Plans : Feature → FeaturePlan → Prop where
  | aliased {f : Feature} {n : String} {y : FeaturePlan} (h : Plans f y) :
    Plans (.aliased f n) (y.aliased n)
  | literal {v w : Value} {k : Kind} (same : w.canonical = v.canonical) :
    Plans (.literal v k) (.constant w false none)
  | element {s : Source} {n : String} {k : Kind} : Plans (.element s n k) (.element s n)
  | expression {op : Operator} {args : List Feature} {t : Option Kind} {xs : List FeaturePlan}
      (h : List.Forall₂ Plans args xs) :
    Plans (.expression op args t) (.expression op xs (Feature.expression op args t).kind)
  | window {fn : Feature} {ps : List Feature} {os : List OrderTerm} {fr fr' : Option Frame}
      {y z : FeaturePlan} {xs : List FeaturePlan} {ys : List (OrderSymbol FeaturePlan)}
      (hfn : Plans fn y) (hps : List.Forall₂ Plans ps xs)
      (hos : List.Forall₂ Plans (os.map OrderTerm.feature) (ys.map (·.1)))
      (directions : ys.map (·.2) = os.map OrderTerm.direction)
      (frame : fr'.map Frame.canonical = fr.map Frame.canonical)
      (made : FeaturePlan.window y xs ys fr' = .ok z) : Plans (.window fn ps os fr) z

/-- A plan of a source, made from plans of its parts. The plan that is provided for a table is what its
name stands for, and that for a join, a set operation or a statement is taken in its place. -/
inductive Source.Plans (sources : KeyedMap Source SourcePlan) : Source → SourcePlan → Prop where
  | table {t : Schema} : Plans sources (.table t)
      (((sources.get? (.table t)).getD (.scan t.name)).qualified t.name)
  | reference {s : Source} {n : String} {x : SourcePlan} (h : Plans sources s x) :
    Plans sources (.reference s n) (x.qualified n)
  | join {l r : Source} {k : JoinType} {c : Option Feature} {x y : SourcePlan}
      {z : Option FeaturePlan} (hl : Plans sources l x) (hr : Plans sources r y)
      (hc : List.Forall₂ Feature.Plans c.toList z.toList) :
    Plans sources (.join l r k c) ((sources.get? (.join l r k c)).getD (.join x y z k))
  | set {l r : Source} {k : SetOp} {x y : SourcePlan} (hl : Plans sources l x)
      (hr : Plans sources r y) :
    Plans sources (.set l r k) ((sources.get? (.set l r k)).getD (.set x y k))
  | query {s : Source} {sel : List Feature} {pre : Option Feature} {grp : List Feature}
      {post : Option Feature} {ord : List OrderTerm} {rows : Option RowRange} {x : SourcePlan}
      {xs : List FeaturePlan} {y : Option FeaturePlan} {ys : List FeaturePlan}
      {z : Option FeaturePlan} {zs : List (OrderSymbol FeaturePlan)} (hs : Plans sources s x)
      (hsel : List.Forall₂ Feature.Plans (Source.query s sel pre grp post ord rows).features xs)
      (hpre : List.Forall₂ Feature.Plans pre.toList y.toList)
      (hgrp : List.Forall₂ Feature.Plans grp ys)
      (hpost : List.Forall₂ Feature.Plans post.toList z.toList)
      (hord : List.Forall₂ Feature.Plans (ord.map OrderTerm.feature) (zs.map (·.1)))
      (directions : zs.map (·.2) = ord.map OrderTerm.direction) :
    Plans sources (.query s sel pre grp post ord rows)
      ((sources.get? (.query s sel pre grp post ord rows)).getD (.query x xs y ys z zs rows))

/-- The feature has the column for a batch: a plan of it gives these values. -/
def Feature.Column (f : Feature) (b : Batch) (values : List Value) : Prop :=
  ∃ x, f.Plans x ∧ x.values b = .ok values

/-- The column of an element on rows is read from their data. -/
theorem Feature.Column.read {s : Source} {n : String} {k : Kind} {d : Dataset} {values : List Value}
    (h : (Feature.element s n k).Column (.ofData d) values) : d.column n (some s.label) = .ok values := by
  obtain ⟨x, plan, evaluated⟩ := h
  cases plan
  simpa [FeaturePlan.element, Batch.ofData] using evaluated

/-- The source has the data for a catalog: a plan of it gives this data. -/
def Source.Data (s : Source) (sources : KeyedMap Source SourcePlan) (catalog : Catalog)
    (d : Dataset) : Prop :=
  ∃ x, s.Plans sources x ∧ x catalog = .ok d

/-- **A plan aggregates exactly if its feature has an aggregate** outside of windows. -/
theorem Feature.Plans.aggregate : ∀ (f : Feature) (x : FeaturePlan), f.Plans x →
    x.aggregate = f.hasAggregate := by
  refine Feature.childInduction fun f ih x h => ?_
  cases h with
  | aliased h =>
    have part := ih _ (List.mem_singleton_self _) _ h
    exact part
  | literal => rfl
  | element => rfl
  | @expression op args t xs h =>
    have each : ∀ c ∈ args, ∀ x, c.Plans x → x.aggregate = c.hasAggregate := ih
    have parts : xs.any FeaturePlan.aggregate = anyAggregate args := by
      clear ih
      induction h with
      | nil => rfl
      | cons hx _ rest =>
        rw [List.any_cons, anyAggregate, each _ List.mem_cons_self _ hx,
          rest fun c hc => each c (List.mem_cons_of_mem _ hc)]
    unfold FeaturePlan.expression
    by_cases own : op.aggregates = true
    · simp [own, FeaturePlan.aggregateOf, hasAggregate]
    · simp [own, FeaturePlan.rowWise, hasAggregate, parts]
  | window _ _ _ _ _ made =>
    unfold FeaturePlan.window at made
    split at made
    · split at made
      · cases made
        rfl
      · cases made
    · cases made
      rfl

/-! ### Keys that tell what is read -/

/-- The keys of elements tell the labels of their sources. -/
def Rules.labelled (labels : String → String) : Rules where
  feature
    | .element s n k => s.label = labels (Feature.element s n k).key
    | _              => True
  source
    | .table t       => ∀ c ∈ t.fields, t.name
      = labels (Feature.element (.table t) (t.resolve c).name (t.resolve c).kind).key
    | .reference s n => ∀ c ∈ s.fields, n
      = labels (Feature.element (.reference s n) (s.resolve c).name (s.resolve c).kind).key
    | _              => True

/-- No struct occurs, and the keys of elements tell their kinds and labels. -/
def Rules.faithful (kinds : String → Kind) (labels : String → String) : Rules :=
  (Rules.plain kinds fun _ _ => True).and (.labelled labels)

section

variable {kinds : String → Kind} {labels : String → String}

theorem Rules.faithful_plain :
    (Rules.faithful kinds labels).Implies (.plain kinds fun _ _ => True) := Rules.and_left _ _

theorem Rules.faithful_distinct : (Rules.faithful kinds labels).Implies .distinct where
  feature f h := Rules.plain_distinct.feature f h.1
  source s h := Rules.plain_distinct.source s h.1

theorem Rules.faithful_offered : (Rules.faithful kinds labels).Offered where
  table t h c hc :=
    ⟨Rules.plain_offered.table t (Source.Obeys.mono Rules.faithful_plain _ h) c hc, h.2 c hc⟩
  reference s n h c hc :=
    ⟨Rules.plain_offered.reference s n (Source.Obeys.mono Rules.faithful_plain _ h) c hc, h.1.2 c hc⟩

/-- Row limits are numbers where constructors have checked them. -/
theorem Rules.ensures_faithful :
    (Rules.structFree.and ((Rules.told kinds).and (.labelled labels))).Ensures
      (.faithful kinds labels) :=
  (structFree_and_ensures _).weaken {
    feature := fun f h => ⟨⟨⟨h.1, h.2.1⟩, by cases f <;> trivial⟩, h.2.2⟩
    source  := fun _ h => ⟨⟨⟨h.1, h.2.1⟩, trivial⟩, h.2.2⟩ }

namespace Evaluation

variable {sources : KeyedMap Source SourcePlan} {m : List (String × FeaturePlan)}

/-! ### What translators give -/

/-- All that is remembered was given by nodes. -/
abbrev Grounded (sources : KeyedMap Source SourcePlan) (kinds : String → Kind)
    (labels : String → String) (m : List (String × FeaturePlan)) : Prop :=
  Rooted (backend sources .empty) (.faithful kinds labels) m

/-- What is remembered for a feature is what its node makes of what is remembered for its parts. -/
theorem made_of_grounded (hm : Grounded sources kinds labels m) {f : Feature}
    (hf : f.Obeys (.faithful kinds labels)) {x : FeaturePlan} (hx : Remembers m f.key x) :
    Made (fun _ _ => True) m f x := by
  have plain : Rooted (backend sources .empty) (.plain kinds fun _ _ => True) m := fun k y hy => by
    obtain ⟨g, o, hg, key, gives⟩ := hm k y hy
    exact ⟨g, o, Feature.Obeys.mono Rules.faithful_plain _ hg, key, gives⟩
  exact made_of_remembered plain (Feature.Obeys.mono Rules.faithful_plain _ hf) hx

/-- What is remembered for an element reads its own column. -/
theorem element_of_grounded (hm : Grounded sources kinds labels m) {s : Source} {n : String} {k : Kind}
    (hf : (Feature.element s n k).Obeys (.faithful kinds labels)) {x : FeaturePlan}
    (hx : Remembers m (Feature.element s n k).key x) : x = .element s n := by
  obtain ⟨g, o, hg, key, gives⟩ := hm _ _ hx
  have same := Feature.canonical_eq_of_key (Feature.Obeys.mono Rules.faithful_distinct _ hg)
    (Feature.Obeys.mono Rules.faithful_distinct _ hf) key
  cases g with
  | element u n' l =>
    have label : u.label = s.label := by
      rw [show u.label = _ from hg.1.2, show s.label = _ from hf.1.2, key]
    obtain ⟨-, rfl, -⟩ := Feature.element.inj same
    generalize hr : Except.ok x = r at gives
    cases gives
    obtain ⟨y, -, rfl⟩ := map_eq_ok.1 hr.symm
    show FeaturePlan.element u n' = FeaturePlan.element s n'
    simp only [FeaturePlan.element, label]
  | _ => simp [Feature.canonical] at same

/-- What is remembered for features is planned for them, where it is for each. -/
theorem plans_of_each {fs : List Feature} {xs : List FeaturePlan}
    (each : ∀ f ∈ fs, ∀ x, Remembers m f.key x → f.Plans x) (h : Remembered m fs xs) :
    List.Forall₂ Feature.Plans fs xs :=
  ((List.forall₂_and_left _ _).2 ⟨each, h⟩).imp fun _ x h => h.1 x h.2

theorem remembered_of_terms {os : List OrderTerm} {ys : List (OrderSymbol FeaturePlan)}
    (h : RememberedTerms m os ys) : Remembered m (os.map OrderTerm.feature) (ys.map (·.1)) ∧
      ys.map (·.2) = os.map OrderTerm.direction := by
  unfold RememberedTerms at h
  induction h with
  | nil => exact ⟨.nil, rfl⟩
  | cons h _ ih => exact ⟨.cons h.1 ih.1, congrArg₂ List.cons h.2 ih.2⟩

/-- What the node of a window makes is planned, where what is remembered for its parts is. -/
theorem plans_of_made_window {L : Value → Kind → Prop} {fn : Feature} {ps : List Feature}
    {os : List OrderTerm} {fr : Option Frame} {x : FeaturePlan}
    (part : ∀ c ∈ (Feature.window fn ps os fr).children, ∀ y, Remembers m c.key y → c.Plans y)
    (h : Made L m (.window fn ps os fr) x) : (Feature.window fn ps os fr).Plans x := by
  cases h with
  | window hfn hps hos frame made =>
    obtain ⟨features, directions⟩ := remembered_of_terms hos
    refine .window (part fn (by simp [Feature.children]) _ hfn) (plans_of_each (fun c hc => ?_) hps)
      (plans_of_each (fun c hc => ?_) features) directions frame made
    · exact part c (by simp [Feature.children, hc])
    · exact part c (by simpa [Feature.children] using .inr (.inr (List.mem_map.1 hc)))

/-- **What is remembered for a feature is a plan of it.** -/
theorem plans_of_remembered (hm : Grounded sources kinds labels m) : ∀ f : Feature,
    f.Obeys (.faithful kinds labels) → ∀ x, Remembers m f.key x → f.Plans x := by
  refine Feature.childInduction fun f ih hf x hx => ?_
  have part : ∀ c ∈ f.children, ∀ y, Remembers m c.key y → c.Plans y :=
    fun c hc y hy => ih c hc (hf.children c hc) y hy
  cases made_of_grounded hm hf hx with
  | aliased hy => exact .aliased (part _ (List.mem_singleton_self _) _ hy)
  | literal same => exact .literal same
  | element => exact element_of_grounded hm hf hx ▸ .element
  | expression hxs => exact .expression (plans_of_each part hxs)
  | window => exact plans_of_made_window part (made_of_grounded hm hf hx)

theorem plans_of_grounded (hm : Grounded sources kinds labels m) {fs : List Feature}
    (hfs : ∀ f ∈ fs, f.Obeys (.faithful kinds labels)) {xs : List FeaturePlan}
    (h : Remembered m fs xs) : List.Forall₂ Feature.Plans fs xs :=
  plans_of_each (fun f hf => plans_of_remembered hm f (hfs f hf)) h

/-- **What a source is translated to is a plan of it.** -/
theorem plans_of_composed {s : Source} {x : SourcePlan}
    (h : Composed (backend sources .empty) (Grounded sources kinds labels) s x) :
    s.Obeys (.faithful kinds labels) → s.Plans sources x := by
  induction h with
  | table hx =>
    intro _
    obtain rfl := Except.ok.inj hx
    exact .table
  | reference _ ih => exact fun hs => .reference (ih hs.2)
  | join _ _ hm hz ihl ihr =>
    intro hs
    have obeys := optionObeys_iff.1 hs.2.2.2
    have condition := plans_of_grounded hm (fun p hp => obeys p (by simpa using hp)) hz
    exact .join (ihl hs.2.1) (ihr hs.2.2.1) condition
  | set _ _ ihl ihr => exact fun hs => .set (ihl hs.2.1) (ihr hs.2.2)
  | query _ hm hsel hpre hgrp hpost hord ih =>
    intro hs
    have clauses := hs.statement
    obtain ⟨ordering, directions⟩ := remembered_of_terms hord
    refine .query (ih clauses.source)
      (plans_of_grounded hm (Source.Obeys.features Rules.faithful_offered _ hs) hsel)
      (plans_of_grounded hm (fun p hp => clauses.prefilter p (by simpa using hp)) hpre)
      (plans_of_grounded hm clauses.grouping hgrp)
      (plans_of_grounded hm (fun p hp => clauses.postfilter p (by simpa using hp)) hpost)
      (plans_of_grounded hm (List.forall_mem_map.2 clauses.ordering) ordering) directions

/-- What a source is translated to behind other trees is composed of what is remembered. -/
theorem composed_of_compiled {history : List Tree}
    (known : ∀ tree ∈ history, tree.Obeys (.faithful kinds labels)) {s : Source}
    (hs : s.Obeys (.faithful kinds labels)) {x : SourcePlan} {t : Translator SourcePlan FeaturePlan}
    (compiled : (translatorAfter sources history).serve (.finish (.source s))
      = (.ok (some (.source x)), t)) :
    Composed (backend sources .empty) (Grounded sources kinds labels) s x :=
  (rooted_lawful (backend sources .empty) Rules.faithful_offered.selected
    fun _ _ _ _ => ⟨⟨⟨nofun, trivial⟩, trivial⟩, trivial⟩).source_compiled (I := rooted _ _)
      (fun _ _ => nofun) known hs compiled

/-- What a window is translated to behind other trees is a plan of it. -/
theorem plans_of_compiled_window {history : List Tree}
    (known : ∀ tree ∈ history, tree.Obeys (.faithful kinds labels)) {fn : Feature} {ps : List Feature}
    {os : List OrderTerm} {fr : Option Frame}
    (hf : (Feature.window fn ps os fr).Obeys (.faithful kinds labels)) {x : FeaturePlan}
    {t : Translator SourcePlan FeaturePlan}
    (compiled : (translatorAfter sources history).serve (.finish (.feature (.window fn ps os fr)))
      = (.ok (some (.feature x)), t)) : (Feature.window fn ps os fr).Plans x := by
  obtain ⟨m, o, hm, -, gives⟩ := (rooted_lawful (backend sources .empty) Rules.faithful_offered.selected
    fun _ _ _ _ => ⟨⟨⟨nofun, trivial⟩, trivial⟩, trivial⟩).feature_compiled (I := rooted _ _)
      (fun _ _ => nofun) known hf compiled
  have plain := Feature.Obeys.mono Rules.faithful_plain _ hf
  exact plans_of_made_window (fun c hc => plans_of_remembered hm c (hf.children c hc))
    (made_of_gives plain plain rfl gives)

end Evaluation

end

end QueryAlgebra
