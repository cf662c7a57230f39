import QueryAlgebra.Proofs.Kind.Key
import QueryAlgebra.Proofs.Number.Whole
import QueryAlgebra.Proofs.Tree.Built

/-!
# Rules that all nodes of a tree keep

* `Rules`: what is asked of every node of a tree.
* `Feature.Obeys`, `OrderTerm.Obeys`, `Source.Obeys`: every node of a tree keeps the rules.
* `Feature.Obeys.mono`, `Source.Obeys.mono`: trees that keep rules keep weaker ones.
* `Rules.none`: rules that ask nothing, which all trees keep.
* `Feature.Built.obeys`, `Source.Built.obeys`: built trees keep what the constructors ensure.
* `Source.Obeys.features`: what a source offers keeps the rules that the source keeps;
  `Rules.Selected`: what a statement gives keeps the rules that the statement keeps.
* `Rules.structFree`: no struct occurs; `Rules.distinct`: moreover, row limits are numbers, as they
  are in built trees.
-/

namespace QueryAlgebra

/-- What is asked of the features and of the sources in a tree. -/
structure Rules where
  feature : Feature → Prop
  source  : Source → Prop

/-- Nodes that keep the rules keep the others. -/
structure Rules.Implies (p q : Rules) : Prop where
  feature : ∀ f, p.feature f → q.feature f
  source  : ∀ s, p.source s → q.source s

section

variable (p : Rules)

mutual

/-- All nodes of the feature keep the rules. -/
def Feature.Obeys : Feature → Prop
  | .aliased f n          => p.feature (.aliased f n) ∧ f.Obeys
  | .literal v k          => p.feature (.literal v k)
  | .element s n k        => p.feature (.element s n k) ∧ s.Obeys
  | .expression op args t => p.feature (.expression op args t) ∧ featuresObey args
  | .window fn ps os fr   =>
    p.feature (.window fn ps os fr) ∧ fn.Obeys ∧ featuresObey ps ∧ termsObey os

def featuresObey : List Feature → Prop
  | []     => True
  | f :: r => f.Obeys ∧ featuresObey r

/-- All nodes of the feature to order by keep the rules. -/
def OrderTerm.Obeys : OrderTerm → Prop
  | .by f _ => f.Obeys

def termsObey : List OrderTerm → Prop
  | []     => True
  | o :: r => o.Obeys ∧ termsObey r

def optionObeys : Option Feature → Prop
  | none   => True
  | some f => f.Obeys

/-- All nodes of the source keep the rules. -/
def Source.Obeys : Source → Prop
  | .table schema  => p.source (.table schema)
  | .reference s n => p.source (.reference s n) ∧ s.Obeys
  | .join l r k c  => p.source (.join l r k c) ∧ l.Obeys ∧ r.Obeys ∧ optionObeys c
  | .set l r k     => p.source (.set l r k) ∧ l.Obeys ∧ r.Obeys
  | .query s sel pre grp post ord rows =>
    p.source (.query s sel pre grp post ord rows) ∧ s.Obeys ∧ featuresObey sel ∧
      optionObeys pre ∧ featuresObey grp ∧ optionObeys post ∧ termsObey ord

end

variable {p} {q : Rules}

theorem featuresObey_iff {fs : List Feature} : featuresObey p fs ↔ ∀ f ∈ fs, f.Obeys p := by
  induction fs with
  | nil => simp [featuresObey]
  | cons f r ih => simp [featuresObey, ih]

theorem termsObey_iff {os : List OrderTerm} : termsObey p os ↔ ∀ o ∈ os, o.Obeys p := by
  induction os with
  | nil => simp [termsObey]
  | cons o r ih => simp [termsObey, ih]

theorem optionObeys_iff {o : Option Feature} : optionObeys p o ↔ ∀ f ∈ o, f.Obeys p := by
  cases o <;> simp [optionObeys]

theorem OrderTerm.obeys_iff {o : OrderTerm} : o.Obeys p ↔ o.feature.Obeys p := by
  cases o; rfl

/-- The source and all clauses of a statement keep the rules. -/
structure Source.StatementObeys (s : Source) (p : Rules) (sel : List Feature) (pre : Option Feature)
    (grp : List Feature) (post : Option Feature) (ord : List OrderTerm) : Prop where
  source     : s.Obeys p
  selection  : ∀ f ∈ sel, f.Obeys p
  prefilter  : ∀ f ∈ pre, f.Obeys p
  grouping   : ∀ f ∈ grp, f.Obeys p
  postfilter : ∀ f ∈ post, f.Obeys p
  ordering   : ∀ o ∈ ord, o.feature.Obeys p

theorem Source.Obeys.statement {s : Source} {sel : List Feature} {pre : Option Feature}
    {grp : List Feature} {post : Option Feature} {ord : List OrderTerm} {rows : Option RowRange}
    (h : (query s sel pre grp post ord rows).Obeys p) : s.StatementObeys p sel pre grp post ord where
  source     := h.2.1
  selection  := featuresObey_iff.1 h.2.2.1
  prefilter  := optionObeys_iff.1 h.2.2.2.1
  grouping   := featuresObey_iff.1 h.2.2.2.2.1
  postfilter := optionObeys_iff.1 h.2.2.2.2.2.1
  ordering o ho := OrderTerm.obeys_iff.1 (termsObey_iff.1 h.2.2.2.2.2.2 o ho)

/-- The feature keeps the rules itself. -/
theorem Feature.Obeys.own : ∀ {f : Feature}, f.Obeys p → p.feature f
  | .aliased .., h    => h.1
  | .literal .., h    => h
  | .element .., h    => h.1
  | .expression .., h => h.1
  | .window .., h     => h.1

/-- The source keeps the rules itself. -/
theorem Source.Obeys.own : ∀ {s : Source}, s.Obeys p → p.source s
  | .table _, h      => h
  | .reference .., h => h.1
  | .join .., h      => h.1
  | .set .., h       => h.1
  | .query .., h     => h.1

mutual

/-- A feature that keeps rules keeps weaker ones. -/
theorem Feature.Obeys.mono (w : p.Implies q) : ∀ f : Feature, f.Obeys p → f.Obeys q
  | .aliased f _, h => ⟨w.feature _ h.1, Feature.Obeys.mono w f h.2⟩
  | .literal _ _, h => w.feature _ h
  | .element s _ _, h => ⟨w.feature _ h.1, Source.Obeys.mono w s h.2⟩
  | .expression _ args _, h => ⟨w.feature _ h.1, featuresObey.mono w args h.2⟩
  | .window fn ps os _, h =>
    ⟨w.feature _ h.1, Feature.Obeys.mono w fn h.2.1, featuresObey.mono w ps h.2.2.1,
      termsObey.mono w os h.2.2.2⟩

theorem featuresObey.mono (w : p.Implies q) :
    ∀ fs : List Feature, featuresObey p fs → featuresObey q fs
  | [], _ => trivial
  | f :: r, h => ⟨Feature.Obeys.mono w f h.1, featuresObey.mono w r h.2⟩

theorem termsObey.mono (w : p.Implies q) :
    ∀ os : List OrderTerm, termsObey p os → termsObey q os
  | [], _ => trivial
  | .by f _ :: r, h => ⟨Feature.Obeys.mono w f h.1, termsObey.mono w r h.2⟩

theorem optionObeys.mono (w : p.Implies q) :
    ∀ o : Option Feature, optionObeys p o → optionObeys q o
  | none, _ => trivial
  | some f, h => Feature.Obeys.mono w f h

/-- A source that keeps rules keeps weaker ones. -/
theorem Source.Obeys.mono (w : p.Implies q) : ∀ s : Source, s.Obeys p → s.Obeys q
  | .table _, h => w.source _ h
  | .reference s _, h => ⟨w.source _ h.1, Source.Obeys.mono w s h.2⟩
  | .join l r _ c, h =>
    ⟨w.source _ h.1, Source.Obeys.mono w l h.2.1, Source.Obeys.mono w r h.2.2.1,
      optionObeys.mono w c h.2.2.2⟩
  | .set l r _, h => ⟨w.source _ h.1, Source.Obeys.mono w l h.2.1, Source.Obeys.mono w r h.2.2⟩
  | .query s sel pre grp post ord _, h => by
    obtain ⟨hq, hs, hsel, hpre, hgrp, hpost, hord⟩ := h
    exact ⟨w.source _ hq, Source.Obeys.mono w s hs, featuresObey.mono w sel hsel,
      optionObeys.mono w pre hpre, featuresObey.mono w grp hgrp, optionObeys.mono w post hpost,
      termsObey.mono w ord hord⟩

end

end

/-! ### No rules -/

/-- Nothing is asked. -/
def Rules.none : Rules := ⟨fun _ => True, fun _ => True⟩

mutual

/-- Every feature keeps rules that ask nothing. -/
theorem Feature.obeys_none : ∀ f : Feature, f.Obeys .none
  | .aliased f _           => ⟨trivial, f.obeys_none⟩
  | .literal _ _           => trivial
  | .element s _ _         => ⟨trivial, s.obeys_none⟩
  | .expression _ args _   => ⟨trivial, featuresObey_none args⟩
  | .window fn ps os _     =>
    ⟨trivial, fn.obeys_none, featuresObey_none ps, termsObey_none os⟩

theorem featuresObey_none : ∀ fs : List Feature, featuresObey .none fs
  | []     => trivial
  | f :: r => ⟨f.obeys_none, featuresObey_none r⟩

theorem termsObey_none : ∀ os : List OrderTerm, termsObey .none os
  | []          => trivial
  | .by f _ :: r => ⟨f.obeys_none, termsObey_none r⟩

theorem optionObeys_none : ∀ o : Option Feature, optionObeys .none o
  | .none   => trivial
  | .some f => f.obeys_none

/-- So does every source. -/
theorem Source.obeys_none : ∀ s : Source, s.Obeys .none
  | .table _       => trivial
  | .reference s _ => ⟨trivial, s.obeys_none⟩
  | .join l r _ c  => ⟨trivial, l.obeys_none, r.obeys_none, optionObeys_none c⟩
  | .set l r _     => ⟨trivial, l.obeys_none, r.obeys_none⟩
  | .query s sel pre grp post ord _ =>
    ⟨trivial, s.obeys_none, featuresObey_none sel, optionObeys_none pre, featuresObey_none grp,
      optionObeys_none post, termsObey_none ord⟩

end

/-! ### Two sets of rules -/

/-- What is asked by either of two sets of rules. -/
def Rules.and (p q : Rules) : Rules where
  feature f := p.feature f ∧ q.feature f
  source s  := p.source s ∧ q.source s

theorem Rules.and_left (p q : Rules) : (p.and q).Implies p := ⟨fun _ h => h.1, fun _ h => h.1⟩

/-! ### Row limits and structs -/

/-- Both numbers of the row limit are numbers of the language. -/
def RowRange.Exact (r : RowRange) : Prop := Number.Exact r.count ∧ Number.Exact r.offset

theorem Limit.exact_of_toRange {l : Limit} {owner : String} {r : RowRange}
    (h : l.toRange owner = .ok r) : r.Exact := by
  unfold toRange at h
  split at h
  · cases h
    exact ⟨Value.exact_of_natural? ‹_›, Value.exact_of_natural? ‹_›⟩
  · simp at h

namespace Rules

/-- No struct occurs, be it the kind of a literal, the target of a cast or the kind of a field. -/
def structFree : Rules where
  feature
    | .literal _ k      => k.StructFree
    | .expression _ _ t => ∀ k ∈ t, k.StructFree
    | _                 => True
  source
    | .table schema => ∀ f ∈ schema.fields, f.kind.StructFree
    | _             => True

/-- No struct occurs, and row limits are numbers. -/
def distinct : Rules where
  feature := structFree.feature
  source
    | .query _ _ _ _ _ _ rows => ∀ r ∈ rows, r.Exact
    | s                       => structFree.source s

end Rules

/-- A table whose fields are of primitive kinds has no structs. -/
theorem structFree_table {schema : Schema}
    (h : (schema.fields.all fun f => f.kind.primitive?.isSome) = true) :
    (Source.table schema).Obeys .structFree := by
  intro f hf
  have hkind := List.all_eq_true.1 h f hf
  cases hk : f.kind with
  | primitive p => trivial
  | _ => simp [hk, Kind.primitive?] at hkind

/-! ### Rules that constructors enforce -/

/-- Built trees that keep the rules keep the others at their root. -/
structure Rules.Ensures (p q : Rules) : Prop where
  feature : ∀ f : Feature, f.Built → f.Obeys p → q.feature f
  source  : ∀ s : Source, s.Built → s.Obeys p → q.source s

section

variable {p q r : Rules}

theorem Rules.Ensures.weaken (w : p.Ensures q) (v : q.Implies r) : p.Ensures r where
  feature f hb h := v.feature f (w.feature f hb h)
  source s hb h := v.source s (w.source s hb h)

mutual

/-- **A built feature that keeps rules keeps those that constructors then ensure.** -/
theorem Feature.Built.obeys (w : p.Ensures q) : ∀ f : Feature, f.Built → f.Obeys p → f.Obeys q
  | .aliased f _, hb, h => ⟨w.feature _ hb h, Feature.Built.obeys w f hb.inv_aliased.1 h.2⟩
  | .literal _ _, hb, h => w.feature _ hb h
  | .element s _ _, hb, h => ⟨w.feature _ hb h, Source.Built.obeys w s hb.inv_element.1 h.2⟩
  | .expression _ args _, hb, h =>
    ⟨w.feature _ hb h, featuresObey_of_built w args (fun f hf => (hb.inv_expression.1 f hf).1) h.2⟩
  | .window fn ps os _, hb, h =>
    ⟨w.feature _ hb h, Feature.Built.obeys w fn hb.inv_window.1 h.2.1,
      featuresObey_of_built w ps (fun f hf => (hb.inv_window.2.2.1 f hf).1) h.2.2.1,
      termsObey_of_built w os hb.inv_window.2.2.2 h.2.2.2⟩

theorem featuresObey_of_built (w : p.Ensures q) :
    ∀ fs : List Feature, (∀ f ∈ fs, f.Built) → featuresObey p fs → featuresObey q fs
  | [], _, _ => trivial
  | f :: r, hb, h =>
    ⟨Feature.Built.obeys w f (hb f (by simp)) h.1,
      featuresObey_of_built w r (fun g hg => hb g (by simp [hg])) h.2⟩

theorem termsObey_of_built (w : p.Ensures q) :
    ∀ os : List OrderTerm, (∀ o ∈ os, o.feature.Built) → termsObey p os → termsObey q os
  | [], _, _ => trivial
  | .by f _ :: r, hb, h =>
    ⟨Feature.Built.obeys w f (hb _ List.mem_cons_self) h.1,
      termsObey_of_built w r (fun o ho => hb o (by simp [ho])) h.2⟩

theorem optionObeys_of_built (w : p.Ensures q) :
    ∀ o : Option Feature, (∀ f ∈ o, f.Built) → optionObeys p o → optionObeys q o
  | none, _, _ => trivial
  | some f, hb, h => Feature.Built.obeys w f (hb f rfl) h

/-- **A built source that keeps rules keeps those that constructors then ensure.** -/
theorem Source.Built.obeys (w : p.Ensures q) : ∀ s : Source, s.Built → s.Obeys p → s.Obeys q
  | .table _, hb, h => w.source _ hb h
  | .reference s _, hb, h => ⟨w.source _ hb h, Source.Built.obeys w s hb.inv_reference.1 h.2⟩
  | .join l r _ c, hb, h =>
    ⟨w.source _ hb h, Source.Built.obeys w l hb.inv_join.1 h.2.1,
      Source.Built.obeys w r hb.inv_join.2.1 h.2.2.1,
      optionObeys_of_built w c (fun p hp => (hb.inv_join.2.2.2 p hp).built) h.2.2.2⟩
  | .set l r _, hb, h =>
    ⟨w.source _ hb h, Source.Built.obeys w l hb.inv_set.1 h.2.1,
      Source.Built.obeys w r hb.inv_set.2.1 h.2.2⟩
  | .query s sel pre grp post ord _, hb, h => by
    have hq := hb.inv_query
    have hown := w.source _ hb h
    obtain ⟨-, hs, hsel, hpre, hgrp, hpost, hord⟩ := h
    exact ⟨hown, Source.Built.obeys w s hq.source hs,
      featuresObey_of_built w sel (fun f hf => (hq.selection f hf).1) hsel,
      optionObeys_of_built w pre (fun p hp => (hq.prefilter p hp).built) hpre,
      featuresObey_of_built w grp (fun f hf => (hq.grouping f hf).1) hgrp,
      optionObeys_of_built w post (fun p hp => (hq.postfilter p hp).built) hpost,
      termsObey_of_built w ord (fun t ht => (hq.ordering t ht).1) hord⟩

end

end

/-- The elements that tables and references offer keep the rules. -/
structure Rules.Offered (p : Rules) : Prop where
  table : ∀ t : Schema, (Source.table t).Obeys p → ∀ c ∈ t.fields,
    p.feature (.element (.table t) (t.resolve c).name (t.resolve c).kind)
  reference : ∀ (s : Source) (n : String), (Source.reference s n).Obeys p → ∀ c ∈ s.fields,
    p.feature (.element (.reference s n) (s.resolve c).name (s.resolve c).kind)

/-- Rules that ask nothing of elements. -/
theorem Rules.offered_of_element {p : Rules} (h : ∀ s n k, p.feature (.element s n k)) : p.Offered :=
  ⟨fun _ _ _ _ => h _ _ _, fun _ _ _ _ _ => h _ _ _⟩

theorem Rules.distinct_offered : Rules.distinct.Offered := offered_of_element fun _ _ _ => trivial

/-- The features of one sort that a source offers keep the rules of the source, if such elements of
tables and of references keep them. -/
theorem Source.Obeys.features_of_sort {p : Rules} {C : Feature → Prop}
    (table : ∀ t : Schema, (Source.table t).Obeys p → ∀ c ∈ t.fields,
      C (.element (.table t) (t.resolve c).name (t.resolve c).kind) →
        p.feature (.element (.table t) (t.resolve c).name (t.resolve c).kind))
    (reference : ∀ (s : Source) (n : String), (Source.reference s n).Obeys p → ∀ c ∈ s.fields,
      C (.element (.reference s n) (s.resolve c).name (s.resolve c).kind) →
        p.feature (.element (.reference s n) (s.resolve c).name (s.resolve c).kind)) :
    ∀ s : Source, s.Obeys p → ∀ f ∈ s.features, C f → f.Obeys p
  | .join l r _ _, h, f, hf => by
    obtain ⟨_, hl, hr, _⟩ := h
    rcases List.mem_append.1 (by simpa only [Source.features] using hf) with hf | hf
    · exact Source.Obeys.features_of_sort table reference l hl f hf
    · exact Source.Obeys.features_of_sort table reference r hr f hf
  | .set l _ _, h, f, hf =>
    Source.Obeys.features_of_sort table reference l h.2.1 f (by simpa only [Source.features] using hf)
  | .query s sel _ _ _ _ _, h, f, hf => by
    obtain ⟨_, hs, hsel, _⟩ := h
    simp only [Source.features] at hf
    split at hf
    · exact Source.Obeys.features_of_sort table reference s hs f hf
    · exact fun _ => featuresObey_iff.1 hsel f hf
  | .table t, h, f, hf => by
    obtain ⟨g, hg, rfl⟩ := List.mem_map.1 (by simpa only [Source.features] using hf)
    obtain ⟨c, hc, rfl⟩ := List.mem_map.1 hg
    exact fun sort => ⟨table t h c hc sort, h⟩
  | .reference s n, h, f, hf => by
    obtain ⟨g, hg, rfl⟩ := List.mem_map.1 (by simpa only [Source.features] using hf)
    obtain ⟨c, hc, rfl⟩ := List.mem_map.1 hg
    exact fun sort => ⟨reference s n h c hc sort, h⟩

/-- The features that a source offers keep the rules of the source, if the elements of tables and of
references keep them. -/
theorem Source.Obeys.features {p : Rules} (hp : p.Offered) (s : Source) (h : s.Obeys p) :
    ∀ f ∈ s.features, f.Obeys p := fun f hf =>
  Source.Obeys.features_of_sort (C := fun _ => True) (fun t ht c hc _ => hp.table t ht c hc)
    (fun u n hu c hc _ => hp.reference u n hu c hc) s h f hf trivial

/-- A statement that keeps the rules gives features that keep them. -/
structure Rules.Selected (p : Rules) : Prop where
  features : ∀ {s : Source} {sel : List Feature} {pre : Option Feature} {grp : List Feature}
    {post : Option Feature} {ord : List OrderTerm} {rows : Option RowRange},
    (Source.query s sel pre grp post ord rows).Obeys p →
      ∀ f ∈ (Source.query s sel pre grp post ord rows).features, f.Obeys p

theorem Rules.Offered.selected {p : Rules} (hp : p.Offered) : p.Selected :=
  ⟨fun h => Source.Obeys.features hp _ h⟩

theorem Rules.selected_of_element {p : Rules} (h : ∀ s n k, p.feature (.element s n k)) : p.Selected :=
  (offered_of_element h).selected

/-- Row limits are numbers where constructors have checked them. -/
theorem Rules.structFree_ensures_distinct : Rules.structFree.Ensures .distinct where
  feature _ _ h := h.own
  source s hb h := by
    cases s with
    | query s sel pre grp post ord rows =>
      intro r hr
      obtain ⟨l, hl⟩ := hb.inv_query.rows r hr
      exact Limit.exact_of_toRange hl
    | _ => exact h.own

/-- So it is where other rules are kept as well. -/
theorem Rules.structFree_and_ensures (p : Rules) : (structFree.and p).Ensures (distinct.and p) where
  feature _ _ h := h.own
  source s hb h :=
    ⟨structFree_ensures_distinct.source s hb (Source.Obeys.mono (and_left _ _) s h), h.own.2⟩

theorem Feature.Built.distinct {f : Feature} (hb : f.Built) (h : f.Obeys .structFree) :
    f.Obeys .distinct := Feature.Built.obeys Rules.structFree_ensures_distinct f hb h

theorem Source.Built.distinct {s : Source} (hb : s.Built) (h : s.Obeys .structFree) :
    s.Obeys .distinct := Source.Built.obeys Rules.structFree_ensures_distinct s hb h

end QueryAlgebra
