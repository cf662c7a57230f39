import QueryAlgebra.Proofs.Text.Order
import QueryAlgebra.Proofs.Tree.Identity

/-!
# Elements inside features

* `Feature.elements`: the elements inside a feature, each as often as it occurs.
* `Feature.Throughout`: a property of a feature and of all parts inside it.
* `Feature.PartOf`: a feature lies inside another one. `Feature.PartOf.down`: what passes on to direct
  parts passes on to all parts.
* `Feature.elementKeys_eq_of_key`: features without structs that have one key have the same elements
  inside, up to keys.
* `partsIn_forall`, `anyOf_forall`: what passes from features on to their parts and to disjunctions of them.
* `partOf_of_mem_partsIn`, `hasKey_of_partOf`: what is collected are parts, and their keys are those of all
  parts.
* `Feature.any_partsIn_eq_false`: what is told of no collected part is told of no part at all.
* `Feature.throughout_of_hasCollective`: what constructors find free of aggregates and windows is so.
* `mem_elementsIn`, `hasKey_elementsIn`: the set of elements inside features holds elements inside
  them, and one for each key.
* `Feature.within_iff`: which features stay within others.
-/

namespace QueryAlgebra

mutual

/-- The elements inside a feature. -/
def Feature.elements : Feature → List Feature
  | .aliased f _         => f.elements
  | .literal ..          => []
  | .element s n k       => [.element s n k]
  | .expression _ args _ => elementsOf args
  | .window fn ps os _   => fn.elements ++ elementsOf ps ++ elementsOfTerms os

def elementsOf : List Feature → List Feature
  | []     => []
  | f :: r => f.elements ++ elementsOf r

def elementsOfTerms : List OrderTerm → List Feature
  | []           => []
  | .by f _ :: r => f.elements ++ elementsOfTerms r

end

def elementsOfOption : Option Feature → List Feature
  | none   => []
  | some f => f.elements

theorem elementsOf_eq_flatMap (fs : List Feature) : elementsOf fs = fs.flatMap Feature.elements := by
  induction fs with
  | nil => rfl
  | cons f r ih => simp [elementsOf, ih]

theorem elementsOfTerms_eq_flatMap (os : List OrderTerm) :
    elementsOfTerms os = (os.map OrderTerm.feature).flatMap Feature.elements := by
  induction os with
  | nil => rfl
  | cons o r ih => cases o; simp [elementsOfTerms, ih, OrderTerm.feature]

theorem mem_elementsOf {e : Feature} {fs : List Feature} :
    e ∈ elementsOf fs ↔ ∃ f ∈ fs, e ∈ f.elements := by
  rw [elementsOf_eq_flatMap, List.mem_flatMap]

theorem mem_elementsOfTerms {e : Feature} {os : List OrderTerm} :
    e ∈ elementsOfTerms os ↔ ∃ o ∈ os, e ∈ o.feature.elements := by
  simp [elementsOfTerms_eq_flatMap, List.mem_flatMap]

theorem mem_elementsOfOption {e : Feature} {o : Option Feature} :
    e ∈ elementsOfOption o ↔ ∃ f ∈ o, e ∈ f.elements := by
  cases o <;> simp [elementsOfOption]

namespace Feature

/-! ### Direct parts -/

/-- The elements inside a feature that is no element are those inside its direct parts. -/
theorem elements_eq (f : Feature) :
    f.elements = if f.isElement then [f] else f.children.flatMap elements := by
  cases f <;> simp [elements, isElement, children, elementsOf_eq_flatMap,
    elementsOfTerms_eq_flatMap]

mutual

/-- Induction over the direct parts of features. -/
theorem childInduction {P : Feature → Prop} (step : ∀ f : Feature, (∀ c ∈ f.children, P c) → P f) :
    ∀ f : Feature, P f
  | .aliased f n => by
    have hf := childInduction step f
    exact step _ (by simpa [children] using hf)
  | .literal v k => step _ (by simp [children])
  | .element s n k => step _ (by simp [children])
  | .expression op args t => step _ (childInductionList step args)
  | .window fn ps os fr => by
    have hfn := childInduction step fn
    have hps := childInductionList step ps
    have hos := childInductionTerms step os
    refine step _ fun c hc => ?_
    rcases List.mem_append.1 hc with hc | hc
    · exact List.forall_mem_cons.2 ⟨hfn, hps⟩ c hc
    · obtain ⟨o, ho, rfl⟩ := List.mem_map.1 hc
      exact hos o ho

theorem childInductionList {P : Feature → Prop}
    (step : ∀ f : Feature, (∀ c ∈ f.children, P c) → P f) : ∀ fs : List Feature, ∀ f ∈ fs, P f
  | [] => by simp
  | f :: r => List.forall_mem_cons.2 ⟨childInduction step f, childInductionList step r⟩

theorem childInductionTerms {P : Feature → Prop}
    (step : ∀ f : Feature, (∀ c ∈ f.children, P c) → P f) :
    ∀ os : List OrderTerm, ∀ o ∈ os, P o.feature
  | [] => by simp
  | .by f _ :: r => List.forall_mem_cons.2 ⟨childInduction step f, childInductionTerms step r⟩

end

/-- The direct parts of a feature keep the rules that the feature keeps. -/
theorem Obeys.children {p : Rules} {f : Feature} (h : f.Obeys p) : ∀ c ∈ f.children, c.Obeys p := by
  cases f with
  | aliased f n => simpa [Feature.children] using h.2
  | literal v k => simp [Feature.children]
  | element s n k => simp [Feature.children]
  | expression op args t => exact featuresObey_iff.1 h.2
  | window fn ps os fr =>
    obtain ⟨_, hfn, hps, hos⟩ := h
    intro c hc
    rcases List.mem_append.1 hc with hc | hc
    · exact List.forall_mem_cons.2 ⟨hfn, featuresObey_iff.1 hps⟩ c hc
    · obtain ⟨o, ho, rfl⟩ := List.mem_map.1 hc
      exact OrderTerm.obeys_iff.1 (termsObey_iff.1 hos o ho)

/-- What holds of a feature and passes on to direct parts holds of the elements inside it. -/
theorem forall_elements {P : Feature → Prop} (down : ∀ g, P g → ∀ c ∈ g.children, P c) :
    ∀ f : Feature, P f → ∀ e ∈ f.elements, P e := by
  refine childInduction fun f ih hf e he => ?_
  rw [elements_eq] at he
  split at he
  · obtain rfl : e = f := by simpa using he
    exact hf
  · obtain ⟨c, hc, he⟩ := List.mem_flatMap.1 he
    exact ih c hc (down f hf c hc) e he

theorem Obeys.elements {p : Rules} {f : Feature} (h : f.Obeys p) : ∀ e ∈ f.elements, e.Obeys p :=
  forall_elements (fun _ => Obeys.children) f h

theorem isElement_of_mem_elements {e : Feature} : ∀ f : Feature, e ∈ f.elements →
    e.isElement = true := by
  refine childInduction fun f ih he => ?_
  rw [elements_eq] at he
  split at he
  · obtain rfl : e = f := by simpa using he
    assumption
  · obtain ⟨c, hc, he⟩ := List.mem_flatMap.1 he
    exact ih c hc he

/-- The elements inside a direct part are inside the feature. -/
theorem elements_of_child {e f c : Feature} (hc : c ∈ f.children) (he : e ∈ c.elements) :
    e ∈ f.elements := by
  rw [elements_eq]
  split
  · cases f <;> simp_all [isElement, children]
  · exact List.mem_flatMap.2 ⟨c, hc, he⟩

/-- The feature and all parts inside it have a property. -/
inductive Throughout (P : Feature → Prop) : Feature → Prop where
  | mk {f : Feature} (own : P f) (parts : ∀ c ∈ f.children, Throughout P c) : Throughout P f

theorem Throughout.own {P : Feature → Prop} {f : Feature} (h : f.Throughout P) : P f := by
  cases h with
  | mk own _ => exact own

theorem Throughout.parts {P : Feature → Prop} {f : Feature} (h : f.Throughout P) :
    ∀ c ∈ f.children, c.Throughout P := by
  cases h with
  | mk _ parts => exact parts

/-! ### Parts at any depth -/

/-- A feature lies inside another one: it is that feature, or it lies inside what an alias names, inside
an argument, or inside the function, a partition or an ordering of a window. -/
inductive PartOf (x : Feature) : Feature → Prop where
  | self : PartOf x x
  | target {f : Feature} {name : String} (h : PartOf x f) : PartOf x (.aliased f name)
  | argument {op : Operator} {args : List Feature} {t : Option Kind} {a : Feature} (ha : a ∈ args)
      (h : PartOf x a) : PartOf x (.expression op args t)
  | function {fn : Feature} {ps : List Feature} {os : List OrderTerm} {fr : Option Frame}
      (h : PartOf x fn) : PartOf x (.window fn ps os fr)
  | partition {fn : Feature} {ps : List Feature} {os : List OrderTerm} {fr : Option Frame}
      {p : Feature} (hp : p ∈ ps) (h : PartOf x p) : PartOf x (.window fn ps os fr)
  | ordering {fn : Feature} {ps : List Feature} {os : List OrderTerm} {fr : Option Frame}
      {o : OrderTerm} (ho : o ∈ os) (h : PartOf x o.feature) : PartOf x (.window fn ps os fr)

namespace PartOf

variable {x y f c : Feature}

/-- What passes on to direct parts passes on to all parts. -/
theorem down {P : Feature → Prop} (pass : ∀ g, P g → ∀ c ∈ g.children, P c) (h : x.PartOf f)
    (hf : P f) : P x := by
  induction h with
  | self => exact hf
  | target _ ih => exact ih (pass _ hf _ (by simp [children]))
  | argument ha _ ih => exact ih (pass _ hf _ (by simpa [children] using ha))
  | function _ ih => exact ih (pass _ hf _ (by simp [children]))
  | partition hp _ ih => exact ih (pass _ hf _ (by simp [children, hp]))
  | ordering ho _ ih =>
    exact ih (pass _ hf _ (List.mem_append_right _ (List.mem_map_of_mem ho)))

/-- Direct parts lie inside a feature. -/
theorem of_child (hc : c ∈ f.children) : c.PartOf f := by
  cases f with
  | aliased f name =>
    obtain rfl : c = f := by simpa [children] using hc
    exact .target .self
  | literal v k => simp [children] at hc
  | element s name k => simp [children] at hc
  | expression op args t => exact .argument hc .self
  | window fn ps os fr =>
    rcases List.mem_append.1 hc with hc | hc
    · rcases List.mem_cons.1 hc with rfl | hc
      · exact .function .self
      · exact .partition hc .self
    · obtain ⟨o, ho, rfl⟩ := List.mem_map.1 hc
      exact .ordering ho .self

theorem trans (hxy : x.PartOf y) (hyf : y.PartOf f) : x.PartOf f := by
  induction hyf with
  | self => exact hxy
  | target _ ih => exact .target ih
  | argument ha _ ih => exact .argument ha ih
  | function _ ih => exact .function ih
  | partition hp _ ih => exact .partition hp ih
  | ordering ho _ ih => exact .ordering ho ih

end PartOf

/-- The elements inside a part are inside the feature. -/
theorem PartOf.elements {x f : Feature} (h : x.PartOf f) : ∀ e ∈ x.elements, e ∈ f.elements :=
  h.down (P := fun y => ∀ e ∈ y.elements, e ∈ f.elements)
    (fun _ hg _ hc e he => hg e (elements_of_child hc he)) fun _ he => he

theorem partOf_of_mem_elements {e f : Feature} (he : e ∈ f.elements) : e.PartOf f :=
  forall_elements (P := fun y => y.PartOf f) (fun _ hg _ hc => (PartOf.of_child hc).trans hg) f .self e he

/-- What holds throughout a feature holds of each part. -/
theorem Throughout.part {P : Feature → Prop} {x f : Feature} (h : f.Throughout P) (hx : x.PartOf f) :
    P x := (hx.down (fun _ => Throughout.parts) h).own

theorem throughout_of_parts {P : Feature → Prop} :
    ∀ f : Feature, (∀ x : Feature, x.PartOf f → P x) → f.Throughout P :=
  childInduction fun f ih h => .mk (h f .self) fun c hc =>
    ih c hc fun x hx => h x (hx.trans (.of_child hc))

/-! ### Keys of elements -/

/-- The keys of the elements inside a feature. -/
def elementKeys (f : Feature) : List String := f.elements.map key

theorem children_canonical (f : Feature) : f.canonical.children = f.children.map canonical := by
  have terms : ∀ o : OrderTerm, o.canonical.feature = o.feature.canonical := by
    intro o; cases o; rfl
  cases f <;> simp [canonical, children, canonicalFeatures_eq_map, canonicalTerms_eq_map, terms]

theorem elementKeys_eq (f : Feature) :
    f.elementKeys = if f.isElement then [f.key] else f.children.flatMap elementKeys := by
  simp only [elementKeys]
  rw [elements_eq]
  split
  · rfl
  · rw [List.map_flatMap]
    rfl

theorem elementKeys_canonical : ∀ f : Feature, f.canonical.elementKeys = f.elementKeys := by
  refine childInduction fun f ih => ?_
  have same : f.canonical.isElement = f.isElement := by cases f <;> rfl
  rw [elementKeys_eq, elementKeys_eq, children_canonical, key_canonical, same, List.flatMap_map]
  split
  · rfl
  · exact List.flatMap_congr ih

/-- **Features without structs that have one key have the same elements inside**, up to keys. -/
theorem elementKeys_eq_of_key {f g : Feature} (hf : f.Obeys .distinct) (hg : g.Obeys .distinct)
    (h : f.key = g.key) : f.elementKeys = g.elementKeys := by
  rw [← elementKeys_canonical f, canonical_eq_of_key hf hg h, elementKeys_canonical g]

end Feature

/-! ### Collected parts -/

theorem collectAll_append (fs gs : List Feature) (seen : KeyedSet Feature) :
    collectAll (fs ++ gs) seen = collectAll fs (collectAll gs seen) := by
  induction fs with
  | nil => rfl
  | cons f r ih => simp [collectAll, ih]

theorem collectTerms_eq (os : List OrderTerm) (seen : KeyedSet Feature) :
    collectTerms os seen = collectAll (os.map OrderTerm.feature) seen := by
  induction os with
  | nil => rfl
  | cons o r ih => cases o; simp [collectTerms, collectAll, OrderTerm.feature, ih]

/-- A feature is added if it is new, and its direct parts are collected then. -/
theorem Feature.collect_eq (f : Feature) (seen : KeyedSet Feature) :
    f.collect seen = if seen.has f then seen else collectAll f.children (seen.add f) := by
  cases f with
  | window fn ps os fr =>
    simp only [collect, KeyedSet.enter, children, List.cons_append, collectAll, collectAll_append,
      collectTerms_eq]
  | _ => rfl

/-- Whatever holds of features and passes on to direct parts holds of all that is collected. -/
theorem collect_forall {P : Feature → Prop} (down : ∀ g, P g → ∀ c ∈ g.children, P c) :
    ∀ f : Feature, ∀ seen : KeyedSet Feature, P f → (∀ e ∈ seen.entries, P e.2) →
      ∀ e ∈ (f.collect seen).entries, P e.2 := by
  refine Feature.childInduction fun f ih seen hf hs => ?_
  have all : ∀ fs : List Feature, (∀ c ∈ fs, c ∈ f.children) → ∀ t : KeyedSet Feature,
      (∀ e ∈ t.entries, P e.2) → ∀ e ∈ (collectAll fs t).entries, P e.2 := by
    intro fs
    induction fs with
    | nil => exact fun _ _ ht => ht
    | cons c r ihr =>
      intro hfs t ht
      have hc := hfs c (by simp)
      exact ih c hc _ (down f hf c hc) (ihr (fun x hx => hfs x (by simp [hx])) t ht)
  rw [f.collect_eq]
  split
  · exact hs
  · refine all _ (fun _ h => h) _ fun e he => ?_
    unfold KeyedSet.add at he
    split at he
    · exact hs e he
    · rcases List.mem_append.1 he with he | he
      · exact hs e he
      · obtain rfl := List.mem_singleton.1 he
        exact hf

/-- Whatever holds of features and passes on to direct parts holds of all their parts. -/
theorem partsIn_forall {P : Feature → Prop} (down : ∀ g, P g → ∀ c ∈ g.children, P c)
    {fs : List Feature} (h : ∀ f ∈ fs, P f) : ∀ x ∈ (partsIn fs).toList, P x := by
  have entries : ∀ e ∈ (partsIn fs).entries, P e.2 := by
    unfold partsIn
    induction fs with
    | nil => simp [collectAll, KeyedSet.empty]
    | cons f r ih =>
      exact collect_forall down f _ (h f (by simp)) (ih fun g hg => h g (by simp [hg]))
  intro x hx
  obtain ⟨e, he, rfl⟩ := List.mem_map.1 hx
  exact entries e he

/-- What is added to a set by collecting parts: nothing is lost, and the direct parts of all that is
new are there. -/
structure KeyedSet.Grown (seen t : KeyedSet Feature) : Prop where
  kept   : ∀ e ∈ seen.entries, e ∈ t.entries
  closed : ∀ e ∈ t.entries, e ∈ seen.entries ∨
    e.1 = e.2.key ∧ ∀ c ∈ e.2.children, t.hasKey c.key = true

namespace KeyedSet.Grown

variable {s t u : KeyedSet Feature}

theorem refl (s : KeyedSet Feature) : s.Grown s := ⟨fun _ h => h, fun _ h => .inl h⟩

theorem hasKey (h : s.Grown t) {k : String} (hk : s.hasKey k = true) : t.hasKey k = true := by
  obtain ⟨e, he, hek⟩ := KeyedSet.hasKey_iff.1 hk
  exact KeyedSet.hasKey_iff.2 ⟨e, h.kept e he, hek⟩

theorem trans (h : s.Grown t) (g : t.Grown u) : s.Grown u := by
  refine ⟨fun e he => g.kept e (h.kept e he), fun e he => ?_⟩
  rcases g.closed e he with he | hnew
  · rcases h.closed e he with he | ⟨hkey, hparts⟩
    · exact .inl he
    · exact .inr ⟨hkey, fun c hc => g.hasKey (hparts c hc)⟩
  · exact .inr hnew

end KeyedSet.Grown

theorem collect_grown : ∀ f : Feature, ∀ seen : KeyedSet Feature,
    seen.Grown (f.collect seen) ∧ (f.collect seen).hasKey f.key = true := by
  refine Feature.childInduction fun f ih seen => ?_
  have all : ∀ fs : List Feature, (∀ c ∈ fs, c ∈ f.children) → ∀ t : KeyedSet Feature,
      t.Grown (collectAll fs t) ∧ ∀ c ∈ fs, (collectAll fs t).hasKey c.key = true := by
    intro fs
    induction fs with
    | nil => exact fun _ t => ⟨.refl t, by simp⟩
    | cons c r ihr =>
      intro hfs t
      obtain ⟨hr, hrkeys⟩ := ihr (fun x hx => hfs x (by simp [hx])) t
      obtain ⟨hc, hckey⟩ := ih c (hfs c (by simp)) (collectAll r t)
      exact ⟨hr.trans hc, List.forall_mem_cons.2 ⟨hckey, fun x hx => hc.hasKey (hrkeys x hx)⟩⟩
  rw [f.collect_eq]
  split
  · rename_i hhas
    exact ⟨.refl _, hhas⟩
  · rename_i hnew
    obtain ⟨hgrown, hkeys⟩ := all f.children (fun _ h => h) (seen.add f)
    have added : (seen.add f).entries = seen.entries ++ [(f.key, f)] := by
      simp only [KeyedSet.add, hnew]
      rfl
    refine ⟨⟨fun e he => hgrown.kept e (by simp [added, he]), fun e he => ?_⟩,
      hgrown.hasKey (KeyedSet.hasKey_iff.2 ⟨(f.key, f), by simp [added], rfl⟩)⟩
    rcases hgrown.closed e he with he | hnew
    · rcases List.mem_append.1 (added ▸ he) with he | he
      · exact .inl he
      · obtain rfl := List.mem_singleton.1 he
        exact .inr ⟨rfl, hkeys⟩
    · exact .inr hnew

theorem partsIn_grown (fs : List Feature) :
    KeyedSet.empty.Grown (partsIn fs) ∧ ∀ f ∈ fs, (partsIn fs).hasKey f.key = true := by
  unfold partsIn
  induction fs with
  | nil => exact ⟨.refl _, by simp⟩
  | cons f r ih =>
    obtain ⟨hf, hkey⟩ := collect_grown f (collectAll r .empty)
    exact ⟨ih.1.trans hf, List.forall_mem_cons.2 ⟨hkey, fun g hg => hf.hasKey (ih.2 g hg)⟩⟩

/-- A collected key belongs to a collected feature whose direct parts are collected. -/
theorem entry_partsIn {fs : List Feature} {k : String} (h : (partsIn fs).hasKey k = true) :
    ∃ y ∈ (partsIn fs).toList, y.key = k ∧ ∀ c ∈ y.children, (partsIn fs).hasKey c.key = true := by
  obtain ⟨e, he, rfl⟩ := KeyedSet.hasKey_iff.1 h
  rcases (partsIn_grown fs).1.closed e he with hnone | ⟨hkey, hparts⟩
  · exact absurd hnone List.not_mem_nil
  · exact ⟨e.2, List.mem_map_of_mem he, hkey.symm, hparts⟩

/-- With a feature without structs its direct parts are collected. -/
theorem hasKey_children {fs : List Feature} (hfs : ∀ f ∈ fs, f.Obeys .distinct) {x : Feature}
    (hx : x.Obeys .distinct) (hkey : (partsIn fs).hasKey x.key = true) :
    ∀ c ∈ x.children, (partsIn fs).hasKey c.key = true := by
  intro c hc
  obtain ⟨y, hy, hyx, hparts⟩ := entry_partsIn hkey
  have hyd : y.Obeys .distinct := partsIn_forall (fun _ => Feature.Obeys.children) hfs y hy
  -- The direct parts of the collected feature are those of this one, up to keys.
  have hcanonical : c.canonical ∈ y.children.map Feature.canonical := by
    rw [← Feature.children_canonical, Feature.canonical_eq_of_key hyd hx hyx,
      Feature.children_canonical]
    exact List.mem_map_of_mem hc
  obtain ⟨c', hc', hcc⟩ := List.mem_map.1 hcanonical
  have hckey : c'.key = c.key := by rw [← c'.key_canonical, hcc, c.key_canonical]
  exact hckey ▸ hparts c' hc'

/-- Only parts are found. -/
theorem partOf_of_mem_partsIn {fs : List Feature} :
    ∀ x ∈ (partsIn fs).toList, ∃ f ∈ fs, x.PartOf f :=
  partsIn_forall (fun _ ⟨f, hf, inside⟩ _ hc => ⟨f, hf, (Feature.PartOf.of_child hc).trans inside⟩)
    fun f hf => ⟨f, hf, .self⟩

/-- With a feature without structs all its parts are found. -/
theorem hasKey_of_partOf {fs : List Feature} (hfs : ∀ f ∈ fs, f.Obeys .distinct) {x f : Feature}
    (inside : x.PartOf f) (hf : f.Obeys .distinct) (hkey : (partsIn fs).hasKey f.key = true) :
    (partsIn fs).hasKey x.key = true :=
  (inside.down (P := fun g => g.Obeys .distinct ∧ (partsIn fs).hasKey g.key = true)
    (fun _ ⟨hg, hkey⟩ c hc => ⟨hg.children c hc, hasKey_children hfs hg hkey c hc⟩) ⟨hf, hkey⟩).2

/-- With a feature without structs the elements inside it are collected. -/
theorem hasKey_partsIn {fs : List Feature} (hfs : ∀ f ∈ fs, f.Obeys .distinct) :
    ∀ x : Feature, x.Obeys .distinct → (partsIn fs).hasKey x.key = true →
      ∀ e ∈ x.elements, (partsIn fs).hasKey e.key = true :=
  fun _ hx hkey _ he => hasKey_of_partOf hfs (Feature.partOf_of_mem_elements he) hx hkey

/-! ### What parts are told to be -/

section

variable {told : Feature → Bool} (kept : ∀ x : Feature, told x.canonical = told x)

include kept

/-- What is told of the part of a feature that its key keeps is told by the key. -/
theorem Feature.told_eq_of_key {f g : Feature} (hf : f.Obeys .distinct) (hg : g.Obeys .distinct)
    (h : f.key = g.key) : told f = told g := by
  rw [← kept f, canonical_eq_of_key hf hg h, kept g]

/-- What is told of no collected part is told of no part at all. -/
theorem Feature.any_partsIn_eq_false {f : Feature} (hf : f.Obeys .distinct) :
    (partsIn [f]).toList.any told = false ↔ f.Throughout fun g => told g = false := by
  have hfs : ∀ g ∈ [f], g.Obeys .distinct := by simpa using hf
  constructor
  · refine fun h => throughout_of_parts f fun x hx => ?_
    have hxd : x.Obeys .distinct := hx.down (fun _ => Obeys.children) hf
    obtain ⟨y, hy, hyx, -⟩ :=
      entry_partsIn (hasKey_of_partOf hfs hx hf ((partsIn_grown [f]).2 f (by simp)))
    have hyd : y.Obeys .distinct := partsIn_forall (fun _ => Obeys.children) hfs y hy
    rw [← told_eq_of_key kept hyd hxd hyx]
    simpa using List.any_eq_false.1 h y hy
  · refine fun h => List.any_eq_false.2 fun x hx => ?_
    obtain ⟨g, hg, inside⟩ := partOf_of_mem_partsIn x hx
    obtain rfl := List.mem_singleton.1 hg
    simp [h.part inside]

end

/-- What makes a feature collective is kept by its key. -/
theorem Feature.isCollective_canonical (f : Feature) : f.canonical.isCollective = f.isCollective := by
  cases f <;> rfl

theorem Feature.isWindow_canonical (f : Feature) : f.canonical.isWindow = f.isWindow := by
  cases f <;> rfl

/-- Whether a feature is collective is told by its key. -/
theorem Feature.isCollective_eq_of_key {f g : Feature} (hf : f.Obeys .distinct)
    (hg : g.Obeys .distinct) (h : f.key = g.key) : f.isCollective = g.isCollective :=
  told_eq_of_key isCollective_canonical hf hg h

/-- **A feature without aggregates and windows has none in any part.** -/
theorem Feature.throughout_of_hasCollective {f : Feature} (hf : f.Obeys .distinct)
    (h : f.hasCollective = false) : f.Throughout fun g => g.isCollective = false :=
  (any_partsIn_eq_false isCollective_canonical hf).1 h

/-! ### Sets of elements -/

/-- An element among the parts of features is inside one of them. -/
theorem mem_elements_of_part {fs : List Feature} {e : Feature}
    (h : e ∈ (partsIn fs).toList.filter Feature.isElement) : ∃ f ∈ fs, e ∈ f.elements := by
  obtain ⟨he, helement⟩ := List.mem_filter.1 h
  obtain ⟨f, hf, inside⟩ := partOf_of_mem_partsIn e he
  exact ⟨f, hf, inside.elements e (by rw [Feature.elements_eq]; simp [helement])⟩

/-- What is in the set of elements inside features is inside one of them. -/
theorem mem_elementsIn {fs : List Feature} {e : Feature} (h : e ∈ (elementsIn fs).toList) :
    ∃ f ∈ fs, e ∈ f.elements :=
  mem_elements_of_part (KeyedSet.mem_toList_ofList h)

theorem Feature.isElement_eq_of_key {f g : Feature} (h : f.key = g.key) :
    f.isElement = g.isElement := by
  have htype := type_eq h
  cases f <;> cases g <;> simp_all [Feature.type, Feature.isElement]

/-- **The set of elements inside features has the keys of all elements inside them.** -/
theorem hasKey_elementsIn {fs : List Feature} (hfs : ∀ f ∈ fs, f.Obeys .distinct) {k : String} :
    (elementsIn fs).hasKey k = true ↔ ∃ f ∈ fs, k ∈ f.elementKeys := by
  constructor
  · intro h
    obtain ⟨x, hx, rfl⟩ := KeyedSet.hasKey_ofList.1 h
    obtain ⟨f, hf, hxf⟩ := mem_elements_of_part hx
    exact ⟨f, hf, List.mem_map_of_mem hxf⟩
  · rintro ⟨f, hf, hk⟩
    obtain ⟨e, he, rfl⟩ := List.mem_map.1 hk
    have hkey := hasKey_partsIn hfs f (hfs f hf) ((partsIn_grown fs).2 f hf) e he
    obtain ⟨y, hy, hye, _⟩ := entry_partsIn hkey
    have helement : y.isElement = true := by
      rw [Feature.isElement_eq_of_key hye, Feature.isElement_of_mem_elements f he]
    exact KeyedSet.hasKey_ofList.2 ⟨y, List.mem_filter.2 ⟨hy, helement⟩, hye⟩

/-- **A feature stays within others** exactly if the elements inside it have keys of elements inside
those. -/
theorem Feature.within_iff {f : Feature} {gs : List Feature} (hf : f.Obeys .distinct)
    (hgs : ∀ g ∈ gs, g.Obeys .distinct) :
    f.Within (elementsIn gs) ↔ ∀ k ∈ f.elementKeys, ∃ g ∈ gs, k ∈ g.elementKeys := by
  have own : ∀ k, (elementsIn [f]).hasKey k = true ↔ k ∈ f.elementKeys := fun k => by
    rw [hasKey_elementsIn (by simpa using hf)]
    simp
  simp only [Within, KeyedSet.subset_iff, own, hasKey_elementsIn hgs]

/-- The elements inside a feature that stays within others have keys of elements inside those. -/
theorem Feature.Within.elementKeys {f : Feature} {gs : List Feature} (h : f.Within (elementsIn gs))
    (hf : f.Obeys .distinct) (hgs : ∀ g ∈ gs, g.Obeys .distinct) :
    ∀ k ∈ f.elementKeys, ∃ g ∈ gs, k ∈ g.elementKeys := (within_iff hf hgs).1 h

/-! ### Connectives -/

section

/-- The connectives under which factors are taken together. -/
def connectives : List Operator := [.and, .or]

variable {P : Feature → Prop}
  (pair : ∀ op ∈ connectives, ∀ a b, P a → P b → P (.expression op [a, b] none))

include pair

theorem unite_forall {op : Operator} (hop : op ∈ connectives) {a b : Feature} (ha : P a) (hb : P b) :
    P (unite op a b) := by
  unfold unite
  split
  · exact ha
  · exact pair op hop a b ha hb

/-! ### Disjunctions -/

/-- What holds of predicates holds of their disjunction. -/
theorem anyOf_forall {ps : List Feature} (h : ∀ p ∈ ps, P p) : ∀ q ∈ anyOf ps, P q := by
  have fold : ∀ (r : List Feature) (p : Feature), P p → (∀ q ∈ r, P q) →
      P (r.foldl (fun acc q => .expression .or [acc, q] none) p) := by
    intro r
    induction r with
    | nil => exact fun p hp _ => hp
    | cons q r ih =>
      intro p hp hr
      obtain ⟨hq, hr⟩ := List.forall_mem_cons.1 hr
      exact ih _ (pair .or (by decide) p q hp hq) hr
  have members : ∀ p ∈ orderedByText ps, P p := fun p hp => h p (mem_ordered.1 hp)
  unfold anyOf
  split
  · simp
  · rename_i p r hps
    obtain ⟨hp, hr⟩ := List.forall_mem_cons.1 (hps ▸ members)
    rintro q ⟨⟩
    exact fold r p hp hr

end

end QueryAlgebra
