import QueryAlgebra.Proofs.Tree.Shape

/-!
# Trees without their strings

* `Value.blankedAs`: a value of a kind with all its strings emptied.
* `Feature.blanked`, `Source.blanked`: trees with the values of string literals emptied, wherever the
  literals stand. Two trees differ only in the values of string literals when these are the same.
* `Source.features_blanked`: what a source offers has the same names and kinds.
* `Feature.shape_blanked`, `Source.shape_blanked`: so have shapes, but for the strings.
* `Feature.pattern`, `Source.pattern`: shapes of skeletons without their strings.
-/

namespace QueryAlgebra

/-- A value of a kind with its strings emptied. -/
def Value.blankedAs : Kind → Value → Value
  | .primitive .string, .text _  => .text ""
  | .array e,           .list vs => .list (vs.map (blankedAs e))
  | _,                  v        => v

mutual

/-- A feature with the values of its string literals emptied. -/
def Feature.blanked : Feature → Feature
  | .aliased f n          => .aliased f.blanked n
  | .literal v k          => .literal (v.blankedAs k) k
  | .element s n k        => .element s.blanked n k
  | .expression op args t => .expression op (blankedFeatures args) t
  | .window fn ps os fr   => .window fn.blanked (blankedFeatures ps) (blankedTerms os) fr

def blankedFeatures : List Feature → List Feature
  | []     => []
  | f :: r => f.blanked :: blankedFeatures r

/-- A feature to order by with the values of its string literals emptied. -/
def OrderTerm.blanked : OrderTerm → OrderTerm
  | .by f d => .by f.blanked d

def blankedTerms : List OrderTerm → List OrderTerm
  | []     => []
  | o :: r => o.blanked :: blankedTerms r

def blankedOption : Option Feature → Option Feature
  | none   => none
  | some f => some f.blanked

/-- A source with the values of its string literals emptied. -/
def Source.blanked : Source → Source
  | .table t       => .table t
  | .reference s n => .reference s.blanked n
  | .join l r k c  => .join l.blanked r.blanked k (blankedOption c)
  | .set l r k     => .set l.blanked r.blanked k
  | .query s sel pre grp post ord rows =>
    .query s.blanked (blankedFeatures sel) (blankedOption pre) (blankedFeatures grp)
      (blankedOption post) (blankedTerms ord) rows

end

theorem blankedFeatures_eq_map (fs : List Feature) :
    blankedFeatures fs = fs.map Feature.blanked := by
  induction fs with
  | nil => rfl
  | cons f r ih => simp [blankedFeatures, ih]

theorem blankedTerms_eq_map (os : List OrderTerm) :
    blankedTerms os = os.map OrderTerm.blanked := by
  induction os with
  | nil => rfl
  | cons o r ih => simp [blankedTerms, ih]

theorem blankedOption_eq_map (o : Option Feature) :
    blankedOption o = o.map Feature.blanked := by
  cases o <;> rfl

theorem OrderTerm.feature_blanked (o : OrderTerm) : o.blanked.feature = o.feature.blanked := by
  cases o
  rfl

/-! ### Names and kinds -/

namespace Feature

theorem name?_blanked (f : Feature) : f.blanked.name? = f.name? := by
  cases f <;> rfl

mutual

theorem kind_blanked : ∀ f : Feature, f.blanked.kind = f.kind
  | .aliased f _ => by simp [blanked, kind, kind_blanked f]
  | .literal _ _ => rfl
  | .element _ _ _ => rfl
  | .expression op args t => by simp [blanked, kind, kinds_blanked args]
  | .window fn _ _ _ => by simp [blanked, kind, kind_blanked fn]

theorem kinds_blanked : ∀ fs : List Feature, kinds (blankedFeatures fs) = kinds fs
  | [] => rfl
  | f :: r => by simp [blankedFeatures, kinds, kind_blanked f, kinds_blanked r]

end

end Feature

theorem nameFields_blanked (fs : List Feature) (taken : List String) (i : Nat) :
    nameFields taken i (fs.map Feature.blanked) = nameFields taken i fs := by
  induction fs generalizing taken i with
  | nil => rfl
  | cons f r ih => simp [nameFields, Feature.name?_blanked, Feature.kind_blanked, ih]

namespace Source

theorem resolve_blanked (s : Source) (f : NamedField) : s.blanked.resolve f = s.resolve f := by
  cases s with
  | reference s n => cases s <;> rfl
  | _ => rfl

/-- **What a source offers** and its fields, when strings are emptied. -/
theorem offers_blanked (s : Source) :
    s.blanked.features = s.features.map Feature.blanked ∧ s.blanked.fields = s.fields := by
  cases s with
  | table t => simp [blanked, features, fields, Feature.blanked]
  | reference s n =>
    obtain ⟨-, same⟩ := offers_blanked s
    have resolved : s.blanked.resolve = s.resolve := funext s.resolve_blanked
    simp [blanked, features, fields, Feature.blanked, same, resolved]
  | join l r k c =>
    obtain ⟨hl, -⟩ := offers_blanked l
    obtain ⟨hr, -⟩ := offers_blanked r
    simp only [blanked, features, fields, hl, hr, ← List.map_append, nameFields_blanked, and_self]
  | set l r k =>
    obtain ⟨hl, same⟩ := offers_blanked l
    simp only [blanked, features, fields, hl, same, and_self]
  | query s sel pre grp post ord rows =>
    obtain ⟨hs, -⟩ := offers_blanked s
    have outputs : (if (blankedFeatures sel).isEmpty then s.blanked.features else blankedFeatures sel)
        = (if sel.isEmpty then s.features else sel).map Feature.blanked := by
      cases sel with
      | nil => exact hs
      | cons f r => simp [blankedFeatures, blankedFeatures_eq_map]
    simp only [blanked, features, fields, outputs, nameFields_blanked, and_self]

theorem features_blanked (s : Source) : s.blanked.features = s.features.map Feature.blanked :=
  (offers_blanked s).1

end Source

/-! ### Shapes -/

theorem Value.canonical_blankedAs : ∀ (k : Kind) (v : Value),
    (v.blankedAs k).canonical = v.canonical.blankedAs k
  | .primitive p, v => by cases p <;> cases v <;> rfl
  | .array e, v => by
    cases v with
    | list vs =>
      simp only [blankedAs, canonical, canonicals_eq_map, List.map_map]
      exact congrArg list (List.map_congr_left fun v _ => canonical_blankedAs e v)
    | _ => rfl
  | .map _ _, v => by cases v <;> rfl
  | .struct _, v => by cases v <;> rfl

section

variable {label : Source → String → String}

mutual

/-- The shape of a feature, when strings are emptied. -/
theorem Feature.shape_blanked (hl : ∀ s n, label s.blanked n = label s n) : ∀ f : Feature,
    f.blanked.shape label = (f.shape label).blanked
  | .aliased f n => by simp [Feature.blanked, Feature.shape, Feature.shape_blanked hl f]
  | .literal v k => by simp [Feature.blanked, Feature.shape, Value.canonical_blankedAs]
  | .element s n k => by simp [Feature.blanked, Feature.shape, Source.blanked, hl]
  | .expression op args t => by simp [Feature.blanked, Feature.shape, featureShapes_blanked hl args]
  | .window fn ps os fr => by
    simp [Feature.blanked, Feature.shape, Feature.shape_blanked hl fn, featureShapes_blanked hl ps,
      termShapes_blanked hl os]

theorem featureShapes_blanked (hl : ∀ s n, label s.blanked n = label s n) : ∀ fs : List Feature,
    featureShapes label (blankedFeatures fs) = blankedFeatures (featureShapes label fs)
  | [] => rfl
  | f :: r => by
    simp [blankedFeatures, featureShapes, Feature.shape_blanked hl f, featureShapes_blanked hl r]

theorem termShapes_blanked (hl : ∀ s n, label s.blanked n = label s n) : ∀ os : List OrderTerm,
    termShapes label (blankedTerms os) = blankedTerms (termShapes label os)
  | [] => rfl
  | .by f d :: r => by
    simp [blankedTerms, termShapes, OrderTerm.blanked, OrderTerm.shape, Feature.shape_blanked hl f,
      termShapes_blanked hl r]

end

/-- **The shape of a source**, when strings are emptied. -/
theorem Source.shape_blanked (hl : ∀ s n, label s.blanked n = label s n) (s : Source) :
    s.blanked.shape label Source.features = (s.shape label Source.features).blanked := by
  cases s with
  | table t => rfl
  | reference s n => simp [blanked, shape, Source.shape_blanked hl s]
  | join l r k c =>
    cases c <;> simp [blanked, shape, blankedOption, Source.shape_blanked hl l,
      Source.shape_blanked hl r, Feature.shape_blanked hl]
  | set l r k => simp [blanked, shape, Source.shape_blanked hl l, Source.shape_blanked hl r]
  | query s sel pre grp post ord rows =>
    have term : ∀ o : OrderTerm, o.blanked.shape label = (o.shape label).blanked := by
      rintro ⟨f, d⟩
      simp [OrderTerm.blanked, OrderTerm.shape, Feature.shape_blanked hl]
    have outputs : (Source.query s.blanked (sel.map Feature.blanked) (pre.map Feature.blanked)
        (grp.map Feature.blanked) (post.map Feature.blanked) (ord.map OrderTerm.blanked) rows).features
        = (Source.query s sel pre grp post ord rows).features.map Feature.blanked := by
      rw [← features_blanked]
      simp only [blanked, blankedFeatures_eq_map, blankedOption_eq_map, blankedTerms_eq_map]
    simp only [blanked, shape, blankedFeatures_eq_map, blankedOption_eq_map, blankedTerms_eq_map,
      outputs, Source.shape_blanked hl s, List.map_map, Option.map_map, Function.comp_def,
      Feature.shape_blanked hl, term]

end

/-! ### Elements -/

namespace Feature

theorem children_blanked (f : Feature) : f.blanked.children = f.children.map blanked := by
  cases f with
  | expression op args t => simp [blanked, children, blankedFeatures_eq_map]
  | window fn ps os fr =>
    simp [blanked, children, blankedFeatures_eq_map, blankedTerms_eq_map, OrderTerm.feature_blanked]
  | _ => rfl

theorem elements_blanked : ∀ f : Feature, f.blanked.elements = f.elements.map blanked := by
  refine childInduction fun f ih => ?_
  have sort : f.blanked.isElement = f.isElement := by cases f <;> rfl
  rw [elements_eq, elements_eq f, sort, children_blanked]
  split
  · rfl
  · rw [List.map_flatMap, List.flatMap_map]
    exact List.flatMap_congr ih

end Feature

/-! ### Patterns -/

/-- The shape of a skeleton of a feature without its strings. -/
def Feature.pattern (f : Feature) : Feature := f.ownShape.blanked

/-- The shape of a skeleton of a source without its strings. -/
def Source.pattern (s : Source) : Source := s.ownShape.blanked

theorem OrderTerm.blanked_ownShape (o : OrderTerm) :
    (o.shape fun s _ => s.handle).blanked = .by o.feature.pattern o.direction := by
  cases o
  rfl

@[simp] theorem Feature.pattern_aliased (f : Feature) (n : String) :
    (aliased f n).pattern = .aliased f.pattern n := rfl

@[simp] theorem Feature.pattern_literal (v : Value) (k : Kind) :
    (literal v k).pattern = .literal (v.canonical.blankedAs k) k := rfl

@[simp] theorem Feature.pattern_element (s : Source) (n : String) (k : Kind) :
    (element s n k).pattern = .element (.table ⟨s.handle, []⟩) n default := rfl

@[simp] theorem Feature.pattern_expression (op : Operator) (args : List Feature)
    (t : Option Kind) :
    (expression op args t).pattern = .expression op (args.map pattern) (op.castKind t) := by
  simp [pattern, ownShape, shape, blanked, featureShapes_eq_map, blankedFeatures_eq_map]

@[simp] theorem Feature.pattern_window (fn : Feature) (ps : List Feature) (os : List OrderTerm)
    (fr : Option Frame) : (window fn ps os fr).pattern
      = .window fn.pattern (ps.map pattern) (os.map fun o => .by o.feature.pattern o.direction)
        (fr.map Frame.canonical) := by
  simp [pattern, ownShape, shape, blanked, featureShapes_eq_map, blankedFeatures_eq_map,
    termShapes_eq_map, blankedTerms_eq_map, OrderTerm.blanked_ownShape]

@[simp] theorem Source.pattern_table (t : Schema) : (table t).pattern = .table ⟨t.name, []⟩ := rfl

@[simp] theorem Source.pattern_reference (s : Source) (n : String) :
    (reference s n).pattern = .reference s.pattern n := rfl

@[simp] theorem Source.pattern_join (l r : Source) (k : JoinType) (c : Option Feature) :
    (join l r k c).pattern = .join l.pattern r.pattern k (c.map Feature.pattern) := by
  cases c <;> rfl

@[simp] theorem Source.pattern_set (l r : Source) (k : SetOp) :
    (set l r k).pattern = .set l.pattern r.pattern k := rfl

@[simp] theorem Source.pattern_query (s : Source) (sel : List Feature) (pre : Option Feature)
    (grp : List Feature) (post : Option Feature) (ord : List OrderTerm) (rows : Option RowRange) :
    (query s sel pre grp post ord rows).pattern
      = .query s.pattern (sel.map Feature.pattern) (pre.map Feature.pattern)
        (grp.map Feature.pattern) (post.map Feature.pattern)
        (ord.map fun o => .by o.feature.pattern o.direction) rows := by
  simp only [pattern, ownShape, shape, blanked, selection, blankedFeatures_eq_map,
    blankedOption_eq_map, blankedTerms_eq_map, List.map_map, Option.map_map, Function.comp_def,
    OrderTerm.blanked_ownShape]
  rfl

end QueryAlgebra
