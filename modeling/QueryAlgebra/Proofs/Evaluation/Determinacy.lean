import QueryAlgebra.Proofs.Evaluation.Rows
import QueryAlgebra.Proofs.Evaluation.Plans
import QueryAlgebra.Proofs.Evaluation.Kinds

/-!
# One plan for each tree

Where keys tell the kinds of elements, the names of their tables and which sign a zero has in literals,
there is one plan that can be remembered for a feature, and one that a source is translated to. Keys do
not tell the signs of zeros in frames either, but these have no effect on where frames end.

* `frameAt_canonical`: the sign of a zero in a frame has no effect.
* `Rules.exact`: rules under which a key tells all that its feature is evaluated by.
* `plan_unique`: what is remembered for a feature, wherever it is.
* `composed_unique`: what a source is translated to, wherever it is.
-/

namespace QueryAlgebra

open Evaluation Translation

/-! ### Zeros in frames -/

/-- A zero that is added to a number without a minus sign is added without its own. -/
theorem Number.add_unsignedZero {x : Number} (positive : x.negative = false) (n : Number) :
    x.add n.unsignedZero = x.add n := by
  cases n with
  | nan => rfl
  | infinite b => rfl
  | finite b m =>
    by_cases zero : m.steps = 0
    · have unsigned : (finite b m).unsignedZero = finite false m := by
        simp [unsignedZero, isZero, zero, abs]
      have steps : ∀ c, m.signed c = 0 := fun c => by simp [Magnitude.signed, zero]
      rw [unsigned]
      cases x with
      | nan => rfl
      | infinite a => rfl
      | finite a k =>
        obtain rfl : a = false := positive
        simp only [add, steps, Bool.false_and]
    · rw [show (finite b m).unsignedZero = finite b m by simp [unsignedZero, isZero, zero]]

namespace Evaluation

theorem negative_ofNat (n : Nat) : (Number.ofNat n).negative = false := by
  unfold Number.ofNat Number.ofRatio
  split <;> rfl

theorem boundPlace_canonical (position : Nat) (unbounded : Number) (e : FrameEnd) :
    boundPlace position unbounded e.canonical = boundPlace position unbounded e := by
  cases e with
  | offset n => exact Number.add_unsignedZero (negative_ofNat position) n
  | _ => rfl

/-- **The signs of zeros in a frame have no effect** on the rows that it holds. -/
theorem frameAt_canonical (keys : List SortKey) (fr : Option Frame) (sorted : List Nat) (position : Nat) :
    frameAt keys (fr.map Frame.canonical) sorted position = frameAt keys fr sorted position := by
  cases fr with
  | none => rfl
  | some f =>
    simp only [Option.map_some, frameAt, explicitFrame, Frame.canonical, boundPlace_canonical]

theorem window_canonical (y : FeaturePlan) (xs : List FeaturePlan) (ys : List (OrderSymbol FeaturePlan))
    (fr : Option Frame) :
    FeaturePlan.window y xs ys (fr.map Frame.canonical) = FeaturePlan.window y xs ys fr := by
  have each : ∀ keys d, FeaturePlan.partitionValues y keys (fr.map Frame.canonical) d
      = FeaturePlan.partitionValues y keys fr d := fun keys d => by
    funext members
    simp only [FeaturePlan.partitionValues, frameAt_canonical]
  have values : FeaturePlan.windowValues y xs ys (fr.map Frame.canonical)
      = FeaturePlan.windowValues y xs ys fr := by
    funext b
    simp only [FeaturePlan.windowValues, each]
  unfold FeaturePlan.window
  rw [values]
  cases fr <;> rfl

end Evaluation

/-! ### Rules -/

/-- No struct occurs, and keys tell the kinds and the labels of elements and the literals. -/
def Rules.exact (kinds : String → Kind) (labels : String → String) (literals : String → Value) : Rules :=
  (Rules.plain kinds (ToldLiteral literals)).and (.labelled labels)

section

variable {kinds : String → Kind} {labels : String → String} {literals : String → Value}

theorem Rules.exact_plain :
    (Rules.exact kinds labels literals).Implies (.plain kinds (ToldLiteral literals)) := Rules.and_left _ _

theorem Rules.exact_faithful :
    (Rules.exact kinds labels literals).Implies (.faithful kinds labels) where
  feature f h := by
    refine ⟨⟨h.1.1, ?_⟩, h.2⟩
    cases f <;> trivial
  source s h := ⟨⟨h.1.1, trivial⟩, h.2⟩

theorem Rules.exact_offered : (Rules.exact kinds labels literals).Offered where
  table t h c hc :=
    ⟨Rules.plain_offered.table t (Source.Obeys.mono Rules.exact_plain _ h) c hc, h.2 c hc⟩
  reference s n h c hc :=
    ⟨Rules.plain_offered.reference s n (Source.Obeys.mono Rules.exact_plain _ h) c hc, h.1.2 c hc⟩

/-- Row limits are numbers where constructors have checked them. -/
theorem Rules.ensures_exact : (Rules.structFree.and ((Rules.told kinds).and
    ((Rules.labelled labels).and (.literals (ToldLiteral literals))))).Ensures
      (.exact kinds labels literals) :=
  (structFree_and_ensures _).weaken
    ⟨fun _ h => ⟨⟨⟨h.1, h.2.1⟩, h.2.2.2⟩, h.2.2.1⟩, fun _ h => ⟨⟨⟨h.1, h.2.1⟩, h.2.2.2⟩, h.2.2.1⟩⟩

namespace Evaluation

variable {sources : KeyedMap Source SourcePlan} {m m' : List (String × FeaturePlan)}

/-- All that is remembered was given by nodes that keep the exact rules. -/
abbrev Told (sources : KeyedMap Source SourcePlan) (kinds : String → Kind) (labels : String → String)
    (literals : String → Value) (m : List (String × FeaturePlan)) : Prop :=
  Rooted (backend sources .empty) (.exact kinds labels literals) m

theorem grounded_of_told (hm : Told sources kinds labels literals m) : Grounded sources kinds labels m :=
  fun k x hx => by
    obtain ⟨g, o, hg, key, gives⟩ := hm k x hx
    exact ⟨g, o, Feature.Obeys.mono Rules.exact_faithful _ hg, key, gives⟩

theorem made_of_told (hm : Told sources kinds labels literals m) {f : Feature}
    (hf : f.Obeys (.exact kinds labels literals)) {x : FeaturePlan} (hx : Remembers m f.key x) :
    Made (ToldLiteral literals) m f x := by
  have plain : Rooted (backend sources .empty) (.plain kinds (ToldLiteral literals)) m := fun k y hy => by
    obtain ⟨g, o, hg, key, gives⟩ := hm k y hy
    exact ⟨g, o, Feature.Obeys.mono Rules.exact_plain _ hg, key, gives⟩
  exact made_of_remembered plain (Feature.Obeys.mono Rules.exact_plain _ hf) hx

/-! ### Features -/

/-- Lists of plans are one list where each feature has one plan. -/
theorem plans_unique {fs : List Feature} (each : ∀ f ∈ fs, ∀ x, Remembers m f.key x →
    ∀ x', Remembers m' f.key x' → x = x') : ∀ {xs xs' : List FeaturePlan}, Remembered m fs xs →
      Remembered m' fs xs' → xs = xs' := by
  intro xs xs' h h'
  unfold Remembered at h h'
  induction h generalizing xs' with
  | nil =>
    cases h'
    rfl
  | cons hx _ ih =>
    cases h' with
    | cons hx' rest' =>
      obtain ⟨first, others⟩ := List.forall_mem_cons.1 each
      rw [first _ hx _ hx', ih others rest']

theorem terms_unique {os : List OrderTerm} (each : ∀ f ∈ os.map OrderTerm.feature,
    ∀ x, Remembers m f.key x → ∀ x', Remembers m' f.key x' → x = x')
    {ys ys' : List (OrderSymbol FeaturePlan)} (h : RememberedTerms m os ys)
    (h' : RememberedTerms m' os ys') : ys = ys' := by
  obtain ⟨features, directions⟩ := remembered_of_terms h
  obtain ⟨features', directions'⟩ := remembered_of_terms h'
  exact (List.zip_of_prod (plans_unique each features features')
    (directions.trans directions'.symm)).trans (List.zip_of_prod rfl rfl).symm

/-- **There is one plan that can be remembered for a feature.** -/
theorem plan_unique (hm : Told sources kinds labels literals m) (hm' : Told sources kinds labels literals m') :
    ∀ f : Feature, f.Obeys (.exact kinds labels literals) → ∀ x, Remembers m f.key x →
      ∀ x', Remembers m' f.key x' → x = x' := by
  refine Feature.childInduction fun f ih hf x hx x' hx' => ?_
  have part : ∀ c ∈ f.children, ∀ y, Remembers m c.key y → ∀ y', Remembers m' c.key y' → y = y' :=
    fun c hc => ih c hc (hf.children c hc)
  have made := made_of_told hm hf hx
  have made' := made_of_told hm' hf hx'
  cases made with
  | aliased hy =>
    cases made' with
    | aliased hy' => rw [part _ (List.mem_singleton_self _) _ hy _ hy']
  | literal same sort =>
    cases made' with
    | literal same' sort' =>
      have told := hf.1.2
      rw [ToldLiteral.eq told sort same, ToldLiteral.eq told sort' same']
  | element =>
    have faithful := Feature.Obeys.mono Rules.exact_faithful _ hf
    rw [element_of_grounded (grounded_of_told hm) faithful hx,
      element_of_grounded (grounded_of_told hm') faithful hx']
  | expression hxs =>
    cases made' with
    | expression hxs' => rw [plans_unique part hxs hxs']
  | @window fn ps os fr fr' y z xs ys hfn hps hos frame made =>
    cases made' with
    | window hfn' hps' hos' frame' made' =>
      obtain rfl := part fn (by simp [Feature.children]) _ hfn _ hfn'
      obtain rfl := plans_unique (fun c hc => part c (by simp [Feature.children, hc])) hps hps'
      obtain rfl := terms_unique (fun c hc => part c
        (by simpa [Feature.children] using .inr (.inr (List.mem_map.1 hc)))) hos hos'
      rw [← window_canonical, frame] at made
      rw [← window_canonical, frame'] at made'
      exact Except.ok.inj (made.symm.trans made')

theorem option_unique {o : Option Feature} (each : ∀ f ∈ o, ∀ x, Remembers m f.key x →
    ∀ x', Remembers m' f.key x' → x = x') {y y' : Option FeaturePlan}
    (h : Remembered m o.toList y.toList) (h' : Remembered m' o.toList y'.toList) : y = y' := by
  have same := plans_unique (fun f hf => each f (by simpa using hf)) h h'
  cases y <;> cases y' <;> cases same <;> rfl

/-! ### Sources -/

/-- **There is one plan that a source is translated to.** -/
theorem composed_unique {s : Source} {x : SourcePlan}
    (h : Composed (backend sources .empty) (Told sources kinds labels literals) s x) :
    s.Obeys (.exact kinds labels literals) → ∀ x',
      Composed (backend sources .empty) (Told sources kinds labels literals) s x' → x = x' := by
  induction h with
  | table hx =>
    intro _ x' h'
    cases h' with
    | table hx' =>
      obtain rfl := Except.ok.inj (hx.symm.trans hx')
      rfl
  | reference _ ih =>
    intro hs x' h'
    cases h' with
    | reference h' => rw [ih hs.2 _ h']
  | join _ _ hm hz ihl ihr =>
    intro hs x' h'
    have condition := optionObeys_iff.1 hs.2.2.2
    cases h' with
    | join hl' hr' hm' hz' =>
      rw [ihl hs.2.1 _ hl', ihr hs.2.2.1 _ hr',
        option_unique (fun p hp => plan_unique hm hm' p (condition p hp)) hz hz']
  | set _ _ ihl ihr =>
    intro hs x' h'
    cases h' with
    | set hl' hr' => rw [ihl hs.2.1 _ hl', ihr hs.2.2 _ hr']
  | query _ hm hsel hpre hgrp hpost hord ih =>
    intro hs x' h'
    have clauses := hs.statement
    cases h' with
    | query hs' hm' hsel' hpre' hgrp' hpost' hord' =>
      have one := plan_unique hm hm'
      rw [ih clauses.source _ hs',
        plans_unique (fun f hf => one f (Source.Obeys.features Rules.exact_offered _ hs f hf)) hsel hsel',
        option_unique (fun f hf => one f (clauses.prefilter f hf)) hpre hpre',
        plans_unique (fun f hf => one f (clauses.grouping f hf)) hgrp hgrp',
        option_unique (fun f hf => one f (clauses.postfilter f hf)) hpost hpost',
        terms_unique (List.forall_mem_map.2 fun o ho => one o.feature (clauses.ordering o ho)) hord hord']

/-- What a source is translated to behind other trees is composed of what is remembered. -/
theorem told_of_compiled {history : List Tree}
    (known : ∀ tree ∈ history, tree.Obeys (.exact kinds labels literals)) {s : Source}
    (hs : s.Obeys (.exact kinds labels literals)) {x : SourcePlan} {t : Translator SourcePlan FeaturePlan}
    (compiled : (translatorAfter sources history).serve (.finish (.source s))
      = (.ok (some (.source x)), t)) :
    Composed (backend sources .empty) (Told sources kinds labels literals) s x :=
  (rooted_lawful (backend sources .empty) Rules.exact_offered.selected
    fun _ _ _ _ => ⟨⟨⟨nofun, trivial⟩, trivial⟩, trivial⟩).source_compiled (I := rooted _ _)
      (fun _ _ => nofun) known hs compiled

end Evaluation

end

end QueryAlgebra
