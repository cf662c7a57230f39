import QueryAlgebra.Proofs.Sql.Inline
import QueryAlgebra.Proofs.Translation.Image
import QueryAlgebra.Proofs.Tree.Names

/-!
# Skeletons of SQL

What SQL is written for a tree is not written for the tree itself: features that have one key share
what is written for the first of them, and elements go by the name under which their source was
visited. The tree that is written is the skeleton.

* `skeleton`: the backend that makes skeletons.
* `Backend.ofFeature`, `Backend.ofSource`: what a backend makes of a skeleton.
* `Spelling`: backends that make what they make of its skeleton.
* `Rules.outline`: what holds of every skeleton; `compiled_source_outline` and `compiled_feature_outline` prove it.
-/

namespace QueryAlgebra.Sql

open Translation

/-- The target that a cast names, which must have a name; no other operator names one. -/
def castTarget (op : Operator) (kind : Kind) : Except Fault (Option Kind) :=
  if op = .cast then
    if (typeName? kind).isSome then .ok (some kind) else .error (.castTarget kind.text)
  else .ok none

/-- The backend that makes skeletons. Tables and references become tables without fields where
elements belong to them. -/
def skeleton : Backend Source Feature where
  sources    := .empty
  features   := .empty
  table t p  := .ok (p.getD (.table ⟨t.name, []⟩))
  scan origin _ _ := origin
  reference s n := (.reference s n, .table ⟨n, []⟩)
  join l r c k := .join l r k c
  set        := .set
  query s sel pre grp post ord rows :=
    .query s sel pre grp post (ord.map fun o => .by o.1 o.2) rows
  element origin _ n := .element origin n default
  aliased    := .aliased
  literal v k := (literalText k v).map fun _ => .literal v k
  expression op args k := (castTarget op k).map fun t => .expression op args t
  window fn ps os fr := .ok (.window fn ps (os.map fun o => .by o.1 o.2) fr)

/-! ### What backends make of skeletons -/

/-- What a computation gives, if anything. -/
def given {α : Type} [Inhabited α] (r : Except Fault α) : α := r.toOption.getD default

section

variable {S F : Type} [Inhabited S] [Inhabited F] (b : Backend S F)

mutual

/-- What the backend makes of a skeleton of a feature. -/
def ofFeature : Feature → F
  | .aliased f n           => b.aliased (ofFeature f) n
  | .literal v k           => given (b.literal v k)
  | .element s n _         => b.element (ofSource s) s n
  | .expression op args t  => given (b.expression op (ofFeatures args) (t.getD default))
  | .window fn ps os fr    => given (b.window (ofFeature fn) (ofFeatures ps) (ofTerms os) fr)

def ofFeatures : List Feature → List F
  | []     => []
  | f :: r => ofFeature f :: ofFeatures r

def ofTerms : List OrderTerm → List (OrderSymbol F)
  | []          => []
  | .by f d :: r => (ofFeature f, d) :: ofTerms r

def ofOption : Option Feature → Option F
  | none   => none
  | some f => some (ofFeature f)

/-- What the backend makes of a skeleton of a source. -/
def ofSource : Source → S
  | .table t       => given (b.table t none)
  | .reference s n => (b.reference (ofSource s) n).1
  | .join l r k c  => b.join (ofSource l) (ofSource r) (ofOption c) k
  | .set l r k     => b.set (ofSource l) (ofSource r) k
  | .query s sel pre grp post ord rows =>
    b.query (ofSource s) (ofFeatures sel) (ofOption pre) (ofFeatures grp) (ofOption post)
      (ofTerms ord) rows

end

theorem ofFeatures_eq_map (fs : List Feature) : ofFeatures b fs = fs.map (ofFeature b) := by
  induction fs with
  | nil => rfl
  | cons f r ih => rw [ofFeatures, ih, List.map_cons]

theorem ofTerms_eq_map (os : List OrderTerm) :
    ofTerms b os = os.map fun o => (ofFeature b o.feature, o.direction) := by
  induction os with
  | nil => rfl
  | cons o r ih =>
    cases o
    rw [ofTerms, ih, List.map_cons]
    rfl

theorem ofOption_eq_map (o : Option Feature) : ofOption b o = o.map (ofFeature b) := by
  cases o <;> rfl

end

/-- A backend that refuses what has no skeleton, if literals are of the sort `L`, and otherwise
makes what it makes of the skeleton. -/
structure Spelling {S F : Type} [Inhabited S] [Inhabited F] (L : Value → Kind → Prop)
    (b : Backend S F) : Prop where
  sources    : b.sources = .empty
  features   : b.features = .empty
  table      : ∀ t p, b.table t p = .ok (p.getD (given (b.table ⟨t.name, []⟩ none)))
  scan       : ∀ x xs y, b.scan x xs y = x
  reference  : ∀ x n, (b.reference x n).2 = given (b.table ⟨n, []⟩ none)
  element    : ∀ x s s' n, b.element x s n = b.element x s' n
  literal    : ∀ v k, L v k → b.literal v k = (literalText k v).map fun _ => given (b.literal v k)
  expression : ∀ op xs k, b.expression op xs k
    = (castTarget op k).map fun t => given (b.expression op xs (t.getD default))
  window     : ∀ x xs ys fr, b.window x xs ys fr = .ok (given (b.window x xs ys fr))

/-- **A backend that spells makes images of skeletons.** -/
theorem Spelling.images {S F : Type} [Inhabited S] [Inhabited F] {L : Value → Kind → Prop}
    {b : Backend S F} (hb : Spelling L b) : Images L skeleton b (ofSource b) (ofFeature b) where
  sources s := by rw [hb.sources]; rfl
  features f := by rw [hb.features]; rfl
  table t p := by
    rw [hb.table]
    cases p <;> rfl
  scan x xs y := by rw [hb.scan]; rfl
  reference x n := Prod.ext rfl (hb.reference (ofSource b x) n)
  join x y z k := by
    rw [← ofOption_eq_map]
    rfl
  set _ _ _ := rfl
  query x xs y ys z zs rows := by
    show _ = ofSource b (.query x xs y ys z (zs.map fun o => .by o.1 o.2) rows)
    rw [ofSource, ofFeatures_eq_map, ofFeatures_eq_map, ofOption_eq_map, ofOption_eq_map,
      ofTerms_eq_map, List.map_map]
    rfl
  element x s n := hb.element (ofSource b x) s x n
  aliased _ _ := rfl
  literal v k h := by
    rw [hb.literal v k h]
    show _ = Except.map _ ((literalText k v).map _)
    cases literalText k v <;> rfl
  expression op xs k := by
    rw [hb.expression, ← ofFeatures_eq_map]
    show _ = Except.map _ ((castTarget op k).map _)
    cases castTarget op k <;> rfl
  window x xs ys fr := by
    show _ = Except.ok (ofFeature b (.window x xs (ys.map fun o => .by o.1 o.2) fr))
    rw [hb.window, ofFeature, ofFeatures_eq_map, ofTerms_eq_map, List.map_map]
    rfl

end QueryAlgebra.Sql

namespace QueryAlgebra

open Translation Sql

/-! ### What holds of skeletons -/

/-- What trees have that are to be written: names, literals and directions of a sort, and besides what
constructors ensure. -/
def Rules.writable (N : String → Prop) (L : Value → Kind → Prop) (D : Direction → Prop) : Rules where
  feature
    | .aliased _ n         => N n
    | .element _ n _       => N n
    | .literal v k         => L v k
    | .expression op args _ =>
      (∀ a ∈ args, a.bare = a) ∧ op.arity.1 ≤ args.length ∧ args.length ≤ op.arity.2
    | .window _ _ os _     => ∀ o ∈ os, D o.direction
  source
    | .table t       => N t.name ∧ ∀ c ∈ t.fields, N c.name
    | .reference s n => N n ∧ s.type ≠ "Reference"
    | .set l r _     => l.type = "Query" ∧ r.type = "Query"
    | .query _ _ _ _ _ os rows => (∀ r ∈ rows, r.Exact) ∧ ∀ o ∈ os, D o.direction
    | _              => True

/-- What skeletons have: elements belong to tables, which have no fields, literals have a text and
casts name their targets. -/
def Rules.outline (N : String → Prop) (L : Value → Kind → Prop) (D : Direction → Prop) : Rules where
  feature
    | .aliased _ n         => N n
    | .element s n _       => N n ∧ ∃ m, N m ∧ s = .table ⟨m, []⟩
    | .literal v k         => L v k ∧ ∃ t, literalText k v = .ok t
    | .expression op args t =>
      (∀ a ∈ args, a.bare = a) ∧ (op.arity.1 ≤ args.length ∧ args.length ≤ op.arity.2) ∧
        castTarget op (t.getD default) = .ok t
    | .window _ _ os _     => ∀ o ∈ os, D o.direction
  source
    | .table t       => N t.name
    | .reference s n => N n ∧ s.type ≠ "Reference"
    | .set l r _     => l.type = "Query" ∧ r.type = "Query"
    | .query _ _ _ _ _ os rows => (∀ r ∈ rows, r.Exact) ∧ ∀ o ∈ os, D o.direction
    | _              => True

variable {N : String → Prop} {L : Value → Kind → Prop} {D : Direction → Prop}

theorem Rules.writable_implies_spelled : (Rules.writable N L D).Implies (.spelled N L D) where
  feature f h := by cases f <;> first | exact h | trivial
  source s h := by
    cases s with
    | table t => exact h
    | reference s n => exact h.1
    | query s sel pre grp post ord rows => exact h.2
    | _ => trivial

theorem Rules.writable_implies_literals : (Rules.writable N L D).Implies (.literals L) where
  feature f h := by
    cases f with
    | literal v k => exact h
    | _ => trivial
  source _ _ := trivial

/-- Features with an alias are those whose sort says so. -/
theorem Feature.bare_eq_self {f : Feature} : f.bare = f ↔ f.type ≠ "Aliased" := by
  cases f with
  | aliased f n =>
    refine ⟨fun h => ?_, fun h => absurd rfl h⟩
    have := congrArg sizeOf (show f = .aliased f n from h)
    simp at this
    omega
  | _ => simp [Feature.bare, Feature.type]

/-- The constructors ensure what trees need that are to be written. -/
theorem Rules.spelled_ensures_writable : (Rules.spelled N L D).Ensures
    (.writable N (fun v k => (∃ u, k.cast u = .ok v) ∧ L v k) D) where
  feature f hb h := by
    replace h := h.own
    cases f with
    | literal v k => exact ⟨hb.inv_literal, h⟩
    | expression op args t =>
      obtain ⟨hargs, hmin, hmax, -⟩ := hb.inv_expression
      exact ⟨fun a ha => (hargs a ha).2, hmin, hmax⟩
    | _ => exact h
  source s hb h := by
    replace h := h.own
    cases s with
    | table t => exact h
    | reference s n =>
      refine ⟨h, fun hs => ?_⟩
      have hu := hb.inv_reference.2
      cases s with
      | reference s m =>
        have := congrArg sizeOf (show s = .reference s m from hu)
        simp at this
        omega
      | _ => simp [Source.type] at hs
    | set l r k => exact hb.inv_set_queries
    | query s sel pre grp post ord rows =>
      refine ⟨fun r hr => ?_, h⟩
      obtain ⟨l, hl⟩ := hb.inv_query.rows r hr
      exact Limit.exact_of_toRange hl
    | _ => trivial

namespace Sql

/-- What is remembered are skeletons, of the same sort as the features; elements belong to tables. -/
def outlining (N : String → Prop) (L : Value → Kind → Prop) (D : Direction → Prop) :
    Invariant Source Feature where
  rules := .writable N L D
  memo m := ∀ k x, Remembers m k x →
    x.Obeys (.outline N L D) ∧ ∀ f : Feature, f.key = k → x.type = f.type
  origins o := ∀ s x, o.get? s = some x → ∃ n, N n ∧ x = .table ⟨n, []⟩
  source s x := x.Obeys (.outline N L D) ∧ x.type = s.type
  fault _ := True

section

variable {m : List (String × Feature)} {o : KeyedMap Source Source}

theorem outline_features (hm : (outlining N L D).memo m) {fs xs : List Feature}
    (h : Remembered m fs xs) : featuresObey (.outline N L D) xs ∧ xs.map Feature.type = fs.map Feature.type := by
  unfold Remembered at h
  induction h with
  | nil => exact ⟨trivial, rfl⟩
  | cons hx _ ih =>
    obtain ⟨outline, same⟩ := hm _ _ hx
    exact ⟨⟨outline, ih.1⟩, by rw [List.map_cons, List.map_cons, same _ rfl, ih.2]⟩

theorem outline_terms (hm : (outlining N L D).memo m) {os : List OrderTerm}
    {ys : List (OrderSymbol Feature)} (h : RememberedTerms m os ys) :
    termsObey (.outline N L D) (ys.map fun o => .by o.1 o.2) := by
  unfold RememberedTerms at h
  induction h with
  | nil => trivial
  | cons hy _ ih => exact ⟨(hm _ _ hy.1).1, ih⟩

/-- The terms have the directions that they stand for. -/
theorem directions_of_remembered {os : List OrderTerm} {ys : List (OrderSymbol Feature)}
    (h : RememberedTerms m os ys) (sort : ∀ o ∈ os, D o.direction) :
    ∀ o ∈ ys.map fun o => OrderTerm.by o.1 o.2, D o.direction := by
  unfold RememberedTerms at h
  induction h with
  | nil => simp
  | cons hy _ ih =>
    obtain ⟨first, rest⟩ := List.forall_mem_cons.1 sort
    exact List.forall_mem_cons.2 ⟨by simpa [OrderTerm.direction, hy.2] using first, ih rest⟩

theorem outline_option (hm : (outlining N L D).memo m) {c z : Option Feature}
    (h : Remembered m c.toList z.toList) : optionObeys (.outline N L D) z := by
  cases z with
  | none => trivial
  | some z => exact featuresObey_iff.1 (outline_features hm h).1 z (by simp)

theorem table_of_origin {s x : Source} (hs : s.Obeys (.writable N L D))
    (ho : (outlining N L D).origins o) (h : skeleton.origin o s = .ok x) :
    ∃ n, N n ∧ x = .table ⟨n, []⟩ := by
  unfold Backend.origin at h
  cases visited : o.get? s with
  | some y =>
    rw [visited] at h
    cases h
    exact ho s x visited
  | none =>
    rw [visited] at h
    cases s with
    | table t =>
      cases h
      exact ⟨t.name, hs.1, rfl⟩
    | _ => cases h

theorem castTarget_getD {op : Operator} {k : Kind} {t : Option Kind} (h : castTarget op k = .ok t) :
    castTarget op (t.getD default) = .ok t := by
  unfold castTarget at h ⊢
  split at h
  · split at h
    · cases h
      simp_all
    · cases h
  · cases h
    simp_all

/-- **What a node gives for skeletons is a skeleton**, of the same sort as the node. -/
theorem outline_of_gives {f x : Feature} (hf : f.Obeys (.writable N L D)) (hm : (outlining N L D).memo m)
    (ho : (outlining N L D).origins o) (h : skeleton.Gives m o f (.ok x)) :
    x.Obeys (.outline N L D) ∧ x.type = f.type := by
  generalize hr : Except.ok x = r at h
  cases h with
  | @aliased g n y hy =>
    cases hr
    exact ⟨⟨hf.1, (hm _ _ hy).1⟩, rfl⟩
  | @literal v k =>
    obtain ⟨t, ht, rfl⟩ := map_eq_ok.1 hr.symm
    exact ⟨⟨hf, t, ht⟩, rfl⟩
  | @element s n k =>
    obtain ⟨y, hy, rfl⟩ := map_eq_ok.1 (show (skeleton.origin o s).map _ = .ok x from hr.symm)
    obtain ⟨n', hn', rfl⟩ := table_of_origin hf.2 ho hy
    exact ⟨⟨⟨hf.1, n', hn', rfl⟩, hn'⟩, rfl⟩
  | @expression op args t xs hxs =>
    obtain ⟨y, hy, rfl⟩ := map_eq_ok.1 hr.symm
    obtain ⟨u, hu, rfl⟩ := map_eq_ok.1 (show (castTarget op _).map _ = .ok y from hy)
    obtain ⟨outline, same⟩ := outline_features hm hxs
    have target : castTarget op (u.getD default) = .ok u := castTarget_getD hu
    have count : xs.length = args.length := by simpa using congrArg List.length same
    obtain ⟨⟨bare, arity⟩, -⟩ := hf
    refine ⟨⟨⟨fun a ha => Feature.bare_eq_self.2 fun ht => ?_, count ▸ arity, target⟩, outline⟩, rfl⟩
    -- An argument has the sort of the feature that it stands for, which has no alias.
    obtain ⟨c, hc, hct⟩ := List.mem_map.1 (same ▸ List.mem_map_of_mem (f := Feature.type) ha)
    exact Feature.bare_eq_self.1 (bare c hc) (hct.trans ht)
  | @window fn ps os fr y xs ys hy hxs hys =>
    obtain ⟨z, hz, rfl⟩ := map_eq_ok.1 hr.symm
    cases hz
    exact ⟨⟨directions_of_remembered hys hf.1, (hm _ _ hy).1, (outline_features hm hxs).1,
      outline_terms hm hys⟩, rfl⟩

end

/-- **Every node gives skeletons.** -/
theorem outlining_lawful (hN : Naming N) : (outlining N L D).Lawful skeleton where
  selected := Rules.Offered.selected
    ⟨fun t h c hc => (Rules.spelled_offered (L := L) (D := D) hN).table t
      (Source.Obeys.mono Rules.writable_implies_spelled _ h) c hc,
    fun s n h c hc => (Rules.spelled_offered (L := L) (D := D) hN).reference s n
      (Source.Obeys.mono Rules.writable_implies_spelled _ h) c hc⟩
  connective := by
    intro op hop f g bf bg
    refine ⟨?_, ?_⟩
    · simpa using ⟨bf, bg⟩
    · rcases List.mem_pair.1 hop with rfl | rfl <;> exact ⟨Nat.le_refl 2, Nat.le_refl 2⟩
  nowhere := by
    intro s x h
    cases h
  put := by
    intro f m o x hf hm ho _ _ gives k y hy
    obtain ⟨outline, same⟩ := outline_of_gives hf hm ho gives
    by_cases hk : k = f.key
    · subst hk
      obtain rfl : x = y := by
        rw [Remembers, Assoc.find?_put_self] at hy
        exact Option.some.inj hy
      exact ⟨outline, fun g hg => same.trans (Feature.type_eq hg.symm)⟩
    · rw [Remembers, Assoc.find?_put_of_ne _ _ hk] at hy
      exact hm k y hy
  refused _ _ _ _ := trivial
  table := by
    intro t x ht hx
    cases hx
    refine ⟨fun o ho s y hy => ?_, fun _ _ => ⟨ht.1, rfl⟩⟩
    by_cases hs : Keyed.key s = Keyed.key (Source.table t)
    · rw [KeyedMap.get?_set_of_eq _ _ hs.symm] at hy
      cases hy
      exact ⟨t.name, ht.1, rfl⟩
    · rw [KeyedMap.get?_set_of_ne _ _ hs] at hy
      exact ho s y hy
  noTable _ := trivial
  reference := by
    intro s n x hs hx
    refine ⟨fun o ho u y hy => ?_, ⟨⟨hs.1.1, ?_⟩, hx.1⟩, rfl⟩
    · by_cases hu : Keyed.key u = Keyed.key (Source.reference s n)
      · rw [KeyedMap.get?_set_of_eq _ _ hu.symm] at hy
        cases hy
        exact ⟨n, hs.1.1, rfl⟩
      · rw [KeyedMap.get?_set_of_ne _ _ hu] at hy
        exact ho u y hy
    · rw [hx.2]
      exact hs.1.2
  join := by
    intro l r k c m x y z _ hm hx hy hz
    exact ⟨⟨trivial, hx.1, hy.1, outline_option hm hz⟩, rfl⟩
  set := by
    intro l r k x y hs hx hy
    exact ⟨⟨⟨hx.2 ▸ hs.1.1, hy.2 ▸ hs.1.2⟩, hx.1, hy.1⟩, rfl⟩
  query := by
    intro s sel pre grp post ord rows m x xs y ys z zs hs hm hx hxs hy hys hz hzs
    exact ⟨⟨⟨hs.1.1, directions_of_remembered hzs hs.1.2⟩, hx.1, (outline_features hm hxs).1,
      outline_option hm hy,
      (outline_features hm hys).1, outline_option hm hz, outline_terms hm hzs⟩, rfl⟩

/-! ### Whole translations -/

theorem outlining_fresh : (outlining N L D).Holds Bench.fresh :=
  ⟨fun _ _ h => (nomatch h), fun _ _ h => (nomatch h), Readings.All.empty⟩

/-- **A translator that has done nothing yet gives the skeleton of a source**, if anything. -/
theorem compiled_source_outline (hN : Naming N) {s : Source} (h : s.Obeys (.writable N L D))
    {y : Option (Translation.Symbol Source Feature)}
    (hy : skeleton.compiled (.source s) = .ok y) :
    ∃ x : Source, y = some (.source x) ∧ x.Obeys (.outline N L D) ∧ x.type = s.type := by
  have outcome := (outlining_lawful hN).source_outcome s h outlining_fresh
  rw [Backend.compiled, Translator.serve_finish _ State.clean_fresh] at hy
  obtain ⟨_, finished⟩ := eval_directFinish_source skeleton s Bench.fresh
  obtain ⟨z, hz, rfl⟩ := map_eq_ok.1
    (show (eval (directFinish skeleton (.source s)) Bench.fresh).1.map some = .ok y from hy)
  rw [finished] at hz
  obtain ⟨x, hx, rfl⟩ := map_eq_ok.1 hz
  exact ⟨x, rfl, outcome.ok x hx⟩

/-- **A translator that has done nothing yet gives the skeleton of a feature**, if anything. -/
theorem compiled_feature_outline (hN : Naming N) {f : Feature} (h : f.Obeys (.writable N L D))
    {y : Option (Translation.Symbol Source Feature)}
    (hy : skeleton.compiled (.feature f) = .ok y) :
    ∃ x : Feature, y = some (.feature x) ∧ x.Obeys (.outline N L D) ∧ x.type = f.type := by
  have parts : ∀ c ∈ f.children, (outlining N L D).Recalls skeleton c := fun c hc =>
    (outlining_lawful hN).recalls c (h.children c hc)
  have outcome := (outlining_lawful hN).feature_outcome h parts outlining_fresh
  rw [Backend.compiled, Translator.serve_finish _ State.clean_fresh] at hy
  obtain ⟨z, hz, rfl⟩ := map_eq_ok.1
    (show (eval (directFinish skeleton (.feature f)) Bench.fresh).1.map some = .ok y from hy)
  rw [eval_directFinish_feature] at hz
  obtain ⟨x, hx, rfl⟩ := map_eq_ok.1 hz
  exact ⟨x, rfl, outline_of_gives h outcome.holds.memo outcome.holds.origins (outcome.ok x hx).1⟩

end Sql

end QueryAlgebra
