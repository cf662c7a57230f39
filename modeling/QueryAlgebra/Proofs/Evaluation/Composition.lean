import QueryAlgebra.Proofs.Evaluation.Pushdown
import QueryAlgebra.Proofs.Translation.Composition

/-!
# Plans are made of the plans of parts

Under rules that keys keep, the plan that is remembered for a feature is what the node of the feature
itself makes of the plans that are remembered for its parts, whoever was translated first.

* `Made`: a plan is what a node makes of the plans that are remembered for its parts.
* `made_of_remembered`: so is every plan that is remembered.
* `feature_made`: so is the plan of a feature that is translated behind others.
-/

namespace QueryAlgebra.Evaluation

open Translation

variable {sources : KeyedMap Source SourcePlan} {kinds : String → Kind} {L : Value → Kind → Prop}

/-- The plan is what the node makes of the plans that are remembered for its parts. A literal may be
another one with its key, and an element one of another source with the key of its own. -/
inductive Made (L : Value → Kind → Prop) (m : List (String × FeaturePlan)) :
    Feature → FeaturePlan → Prop where
  | aliased {f : Feature} {n : String} {y : FeaturePlan} (h : Remembers m f.key y) :
    Made L m (.aliased f n) (y.aliased n)
  | literal {v w : Value} {k : Kind} (same : w.canonical = v.canonical) (sort : L w k) :
    Made L m (.literal v k) (.constant w false none)
  | element {s u : Source} {n : String} {k : Kind} (same : u.canonical = s.canonical) :
    Made L m (.element s n k) (.element u n)
  | expression {op : Operator} {args : List Feature} {t : Option Kind} {xs : List FeaturePlan}
      (h : Remembered m args xs) :
    Made L m (.expression op args t) (.expression op xs (Feature.expression op args t).kind)
  | window {fn : Feature} {ps : List Feature} {os : List OrderTerm} {fr fr' : Option Frame}
      {y z : FeaturePlan} {xs : List FeaturePlan} {ys : List (OrderSymbol FeaturePlan)}
      (hfn : Remembers m fn.key y) (hps : Remembered m ps xs) (hos : RememberedTerms m os ys)
      (frame : fr'.map Frame.canonical = fr.map Frame.canonical)
      (made : FeaturePlan.window y xs ys fr' = .ok z) : Made L m (.window fn ps os fr) z

/-- What the node of a feature gives, another feature with its key is made of as well. -/
theorem made_of_gives {m : List (String × FeaturePlan)} {o : KeyedMap Source SourcePlan}
    {f g : Feature} (hf : f.Obeys (.plain kinds L)) (hg : g.Obeys (.plain kinds L))
    (same : g.canonical = f.canonical) {x : FeaturePlan}
    (gives : (backend sources .empty).Gives m o g (.ok x)) : Made L m f x := by
  have kind : g.kind = f.kind := Feature.kind_eq_of_canonical
    (Feature.Obeys.mono Rules.plain_told g hg) (Feature.Obeys.mono Rules.plain_told f hf) same
  generalize hr : Except.ok x = r at gives
  -- What is equal up to what a key leaves out is of one form, and its parts have the same keys.
  cases gives with
  | @aliased g n y hy =>
    obtain rfl := Except.ok.inj hr
    cases f with
    | aliased f m =>
      obtain ⟨inner, rfl⟩ := Feature.aliased.inj same
      have key : g.key = f.key := by rw [← g.key_canonical, inner, f.key_canonical]
      exact .aliased (key ▸ hy)
    | _ => simp [Feature.canonical] at same
  | @literal w l =>
    obtain rfl := Except.ok.inj hr
    cases f with
    | literal v k =>
      obtain ⟨value, rfl⟩ := Feature.literal.inj same
      exact .literal value hg.2
    | _ => simp [Feature.canonical] at same
  | @element u n l =>
    obtain ⟨y, -, rfl⟩ := map_eq_ok.1 hr.symm
    cases f with
    | element s m k =>
      obtain ⟨origin, rfl, -⟩ := Feature.element.inj same
      exact .element origin
    | _ => simp [Feature.canonical] at same
  | @expression op args t xs hxs =>
    obtain rfl := Except.ok.inj hr
    cases f with
    | expression op' args' t' =>
      rw [kind]
      obtain ⟨rfl, parts, rfl⟩ := Feature.expression.inj same
      exact .expression (hxs.congr parts)
    | _ => simp [Feature.canonical] at same
  | @window fn ps os fr y xs ys hy hxs hys =>
    obtain ⟨z, made, rfl⟩ := map_eq_ok.1 hr.symm
    cases f with
    | window fn' ps' os' fr' =>
      obtain ⟨hfn, hps, hos, frame⟩ := Feature.window.inj same
      have key : fn.key = fn'.key := by rw [← fn.key_canonical, hfn, fn'.key_canonical]
      exact .window (key ▸ hy) (hxs.congr hps) (hys.congr hos) frame made
    | _ => simp [Feature.canonical] at same

/-- **A plan that is remembered is what the node makes of the plans remembered for its parts.** -/
theorem made_of_remembered {m : List (String × FeaturePlan)}
    (hm : Rooted (backend sources .empty) (.plain kinds L) m) {f : Feature}
    (hf : f.Obeys (.plain kinds L)) {x : FeaturePlan} (hx : Remembers m f.key x) : Made L m f x := by
  obtain ⟨g, o, hg, key, gives⟩ := hm _ _ hx
  refine made_of_gives hf hg (Feature.canonical_eq_of_key ?_ ?_ key) gives
  · exact Feature.Obeys.mono Rules.plain_distinct g hg
  · exact Feature.Obeys.mono Rules.plain_distinct f hf

/-- **The plan of a feature that is translated behind others** is what its node makes of the plans
that are remembered for its parts. -/
theorem feature_made {history : List Tree}
    (known : ∀ tree ∈ history, tree.Obeys (.plain kinds L)) {f : Feature}
    (hf : f.Obeys (.plain kinds L)) {x : FeaturePlan} {t : Translator SourcePlan FeaturePlan}
    (compiled : (translatorAfter sources history).serve (.finish (.feature f))
      = (.ok (some (.feature x)), t)) :
    ∃ m, Rooted (backend sources .empty) (.plain kinds L) m ∧ Made L m f x := by
  obtain ⟨m, o, hm, -, gives⟩ := (plain_lawful _).feature_compiled (I := rooted _ _)
    (fun _ _ => nofun) known hf compiled
  exact ⟨m, hm, made_of_gives hf hf rfl gives⟩

end QueryAlgebra.Evaluation
