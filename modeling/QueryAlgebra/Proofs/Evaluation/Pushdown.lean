import QueryAlgebra.Proofs.Evaluation.Truth
import QueryAlgebra.Proofs.Translation.History
import QueryAlgebra.Proofs.Tree.Factors

/-!
# Pushing factors down

A scan of a table may be filtered by the factor of a predicate when no row that the predicate keeps is
lost by it. Predicate and factor are made into plans by one translator, which remembers their parts.

* `factor_holds`: where a predicate is true, so is every factor that covers its table.
* `factor_recalled`: the factors of a predicate that is remembered are translated without a fault.
* `factor_sound`: both together, for a translator that has worked before.
-/

namespace QueryAlgebra.Evaluation

open Translation

/-! ### Plans that are remembered -/

/-- All that is remembered stems from nodes, whatever was visited. -/
abbrev kept (sources : KeyedMap Source SourcePlan) : Invariant SourcePlan FeaturePlan :=
  stemming (backend sources .empty) fun _ => True

section

variable {sources : KeyedMap Source SourcePlan} {m : List (String × FeaturePlan)}

/-- The plan of a connective is made of those of its sides. -/
theorem connective_stems (hm : (kept sources).memo m) {op : Operator} (hop : op ∈ connectives)
    {f g : Feature} {t : Option Kind} (distinct : (Feature.expression op [f, g] t).Obeys .distinct)
    {x : FeaturePlan} (hx : Remembers m (Feature.expression op [f, g] t).key x) :
    ∃ (y z : FeaturePlan) (k : Kind), Remembers m f.key y ∧ Remembers m g.key z ∧
      x = .rowWise op [y, z] k := by
  obtain ⟨xs, ks, x, hxs, hx, rfl⟩ := (hm _ _ hx).expression distinct
  obtain ⟨y, ys, hy, hys, rfl⟩ := List.forall₂_cons_left_iff.1 hxs
  obtain ⟨z, zs, hz, hzs, rfl⟩ := List.forall₂_cons_left_iff.1 hys
  obtain rfl := List.forall₂_nil_left_iff.1 hzs
  refine ⟨y, z, op.resultKind ks t, hy, hz, ?_⟩
  obtain rfl := Except.ok.inj hx
  simp only [connectives, List.mem_cons, List.not_mem_nil, or_false] at hop
  rcases hop with rfl | rfl <;> rfl

/-- United factors have one plan, or the plan of the union is made of theirs. -/
theorem unite_stems (hm : (kept sources).memo m) {op : Operator} (hop : op ∈ connectives)
    {f g : Feature} (distinct : (unite op f g).Obeys .distinct) {x : FeaturePlan}
    (hx : Remembers m (unite op f g).key x) :
    (Remembers m f.key x ∧ Remembers m g.key x) ∨
      ∃ (y z : FeaturePlan) (k : Kind), Remembers m f.key y ∧ Remembers m g.key z ∧
        x = .rowWise op [y, z] k := by
  unfold unite at distinct hx
  split at hx
  · rename_i same
    exact .inl ⟨hx, beq_iff_eq.1 same ▸ hx⟩
  · rename_i other
    rw [if_neg other] at distinct
    exact .inr (connective_stems hm hop distinct hx)

/-- Where both plans are true, so is the plan of their union. -/
theorem unite_and_holds (hm : (kept sources).memo m) {f g : Feature}
    (distinct : (unite .and f g).Obeys .distinct) {x : FeaturePlan}
    (hx : Remembers m (unite .and f g).key x) {b : Batch} :
    ((∀ y, Remembers m f.key y → y.Evaluates b) → (∀ z, Remembers m g.key z → z.Evaluates b) →
      x.Evaluates b) ∧
    ∀ i < b.size, (∀ y, Remembers m f.key y → y.Holds b i) →
      (∀ z, Remembers m g.key z → z.Holds b i) → x.Holds b i := by
  rcases unite_stems hm (by decide) distinct hx with ⟨hf, -⟩ | ⟨y, z, k, hy, hz, rfl⟩
  · exact ⟨fun h _ => h x hf, fun i _ h _ => h x hf⟩
  · exact ⟨fun h h' => (FeaturePlan.rowWise_evaluates (by decide) y z k b).2 ⟨h y hy, h' z hz⟩,
      fun i hi h h' => FeaturePlan.and_holds k hi (h y hy) (h' z hz)⟩

/-- Where one plan is true and both have values, the plan of their union is true. -/
theorem unite_or_holds (hm : (kept sources).memo m) {f g : Feature}
    (distinct : (unite .or f g).Obeys .distinct) {x : FeaturePlan}
    (hx : Remembers m (unite .or f g).key x) {b : Batch}
    (hf : ∀ y, Remembers m f.key y → y.Evaluates b) (hg : ∀ z, Remembers m g.key z → z.Evaluates b) :
    x.Evaluates b ∧
    ∀ i < b.size, ((∀ y, Remembers m f.key y → y.Holds b i) ∨
      ∀ z, Remembers m g.key z → z.Holds b i) → x.Holds b i := by
  rcases unite_stems hm (by decide) distinct hx with ⟨hfx, hgx⟩ | ⟨y, z, k, hy, hz, rfl⟩
  · exact ⟨hf x hfx, fun i _ h => h.elim (fun h => h x hfx) fun h => h x hgx⟩
  · exact ⟨(FeaturePlan.rowWise_evaluates (by decide) y z k b).2 ⟨hf y hy, hg z hz⟩,
      fun i hi h => (FeaturePlan.or_holds y z k b i).2
        ⟨hi, hf y hy, hg z hz, h.imp (fun h => h y hy) fun h => h z hz⟩⟩

/-- The plan of the factor has values wherever that of the predicate has, and is true wherever it is, if
the factor covers the table. -/
def FactorFollows (m : List (String × FeaturePlan)) (b : Batch) (t : Schema) (p q : Feature) : Prop :=
  ∀ x y, Remembers m p.key x → Remembers m q.key y →
    (x.Evaluates b → y.Evaluates b) ∧ (p.Covers t → ∀ i, x.Holds b i → y.Holds b i)

section

variable {b : Batch} {t : Schema} {f g q : Feature} {k : Option Kind}

/-- The factor of a conjunction follows it, if the factors of its sides follow these. -/
theorem and_follows (hm : (kept sources).memo m) (built : (Feature.expression .and [f, g] k).Built)
    (distinct : (Feature.expression .and [f, g] k).Obeys .distinct)
    (suits : b.Suits (.expression .and [f, g] k)) (qd : q.Obeys .distinct)
    (merged : Factors.Merged .and (f.factors.get? t) (g.factors.get? t) q)
    (hf : ∀ q, f.factors.get? t = some q → FactorFollows m b t f q)
    (hg : ∀ q, g.factors.get? t = some q → FactorFollows m b t g q) :
    FactorFollows m b t (.expression .and [f, g] k) q := by
  intro x y hx hy
  obtain ⟨u, v, k', hu, hv, rfl⟩ := connective_stems hm (by decide) distinct hx
  have hfc : f ∈ (Feature.expression .and [f, g] k).children := by simp [Feature.children]
  have hgc : g ∈ (Feature.expression .and [f, g] k).children := by simp [Feature.children]
  have evaluates := FeaturePlan.rowWise_evaluates (show Operator.and ∈ connectives by decide) u v k' b
  have sides : ∀ i, (FeaturePlan.rowWise .and [u, v] k').Holds b i →
      i < b.size ∧ u.Holds b i ∧ v.Holds b i := fun i =>
    FeaturePlan.sides_hold
      (FeaturePlan.three_valued hm f (built.connected (by decide) f (by simp)).1
        (distinct.children f hfc) (built.connected (by decide) f (by simp)).2 (suits.child hfc) u hu)
      (FeaturePlan.three_valued hm g (built.connected (by decide) g (by simp)).1
        (distinct.children g hgc) (built.connected (by decide) g (by simp)).2 (suits.child hgc) v hv)
  generalize hff : f.factors.get? t = ff at merged
  generalize hgf : g.factors.get? t = gf at merged
  cases merged with
  | left =>
    obtain ⟨he, hh⟩ := hf q hff u y hu hy
    exact ⟨fun h => he (evaluates.1 h).1,
      fun covers i h => hh (covers.1 (by simp [hff])) i (sides i h).2.1⟩
  | right =>
    obtain ⟨he, hh⟩ := hg q hgf v y hv hy
    exact ⟨fun h => he (evaluates.1 h).2,
      fun covers i h => hh (covers.2 (by simp [hgf])) i (sides i h).2.2⟩
  | both ff gf =>
    obtain ⟨ue, uh⟩ := unite_and_holds hm qd hy (b := b)
    exact ⟨fun h => ue (fun z hz => (hf ff hff u z hu hz).1 (evaluates.1 h).1)
        fun z hz => (hg gf hgf v z hv hz).1 (evaluates.1 h).2,
      fun covers i h => uh i (sides i h).1
        (fun z hz => (hf ff hff u z hu hz).2 (covers.1 (by simp [hff])) i (sides i h).2.1)
        fun z hz => (hg gf hgf v z hv hz).2 (covers.2 (by simp [hgf])) i (sides i h).2.2⟩

/-- So does the factor of a disjunction over several tables. A side without a factor leaves the table
uncovered. -/
theorem or_follows (hm : (kept sources).memo m)
    (distinct : (Feature.expression .or [f, g] k).Obeys .distinct)
    (several : ¬∃ u, tablesIn (.expression .or [f, g] k) = [u]) (qd : q.Obeys .distinct)
    (merged : Factors.Merged .or (f.factors.get? t) (g.factors.get? t) q)
    (hf : ∀ q, f.factors.get? t = some q → FactorFollows m b t f q)
    (hg : ∀ q, g.factors.get? t = some q → FactorFollows m b t g q) :
    FactorFollows m b t (.expression .or [f, g] k) q := by
  intro x y hx hy
  obtain ⟨u, v, k', hu, hv, rfl⟩ := connective_stems hm (by decide) distinct hx
  have evaluates := FeaturePlan.rowWise_evaluates (show Operator.or ∈ connectives by decide) u v k' b
  have holds := FeaturePlan.or_holds u v k' b
  generalize hff : f.factors.get? t = ff at merged
  generalize hgf : g.factors.get? t = gf at merged
  cases merged with
  | left =>
    refine ⟨fun h => (hf q hff u y hu hy).1 (evaluates.1 h).1, fun covers => ?_⟩
    rcases covers with single | ⟨-, hasg, -⟩
    · exact absurd single several
    · simp [hgf] at hasg
  | right =>
    refine ⟨fun h => (hg q hgf v y hv hy).1 (evaluates.1 h).2, fun covers => ?_⟩
    rcases covers with single | ⟨⟨hasf, -⟩, -⟩
    · exact absurd single several
    · simp [hff] at hasf
  | both ff gf =>
    have united := fun he => unite_or_holds hm qd hy (b := b)
      (fun z hz => (hf ff hff u z hu hz).1 (evaluates.1 he).1)
      fun z hz => (hg gf hgf v z hv hz).1 (evaluates.1 he).2
    refine ⟨fun he => (united he).1, fun covers i h => ?_⟩
    obtain ⟨hi, he, he', either⟩ := (holds i).1 h
    rcases covers with single | ⟨⟨-, hcf⟩, -, hcg⟩
    · exact absurd single several
    · exact (united (evaluates.2 ⟨he, he'⟩)).2 i hi (either.imp
        (fun h z hz => (hf ff hff u z hu hz).2 hcf i h) fun h z hz =>
          (hg gf hgf v z hv hz).2 hcg i h)

end

/-- **Where a predicate is true, so is every factor that covers its table**, and a factor has values
wherever the predicate has. -/
theorem factor_holds (hm : (kept sources).memo m) (t : Schema) (b : Batch) :
    ∀ p : Feature, p.Built → p.Obeys .distinct → b.Suits p → ∀ q, p.factors.get? t = some q →
      FactorFollows m b t p q := by
  refine Feature.childInduction fun p ih built distinct suits q hq => ?_
  have part : ∀ c ∈ p.children, c.Built → ∀ q, c.factors.get? t = some q → FactorFollows m b t c q :=
    fun c hc built => ih c hc built (distinct.children c hc) (suits.child hc)
  have qd := factor_distinct distinct hq
  cases Feature.factor_cases hq with
  | whole =>
    intro x y hx hy
    obtain rfl : x = y := Option.some.inj (hx.symm.trans hy)
    exact ⟨id, fun _ _ => id⟩
  | @aliased f n _ hp hf =>
    subst hp
    intro x y hx hy
    obtain ⟨z, hz, rfl⟩ := (hm _ _ hx).aliased distinct
    exact part f (by simp [Feature.children]) built.inv_aliased.1 q hf z y hz hy
  | @and f g k _ hp merged =>
    subst hp
    exact and_follows hm built distinct suits qd merged
      (part f (by simp [Feature.children]) (built.connected (by decide) f (by simp)).1)
      (part g (by simp [Feature.children]) (built.connected (by decide) g (by simp)).1)
  | @or f g k _ hp several merged =>
    subst hp
    exact or_follows hm distinct several qd merged
      (part f (by simp [Feature.children]) (built.connected (by decide) f (by simp)).1)
      (part g (by simp [Feature.children]) (built.connected (by decide) g (by simp)).1)

/-! ### Factors are translated -/

/-- The feature is recalled without a fault. -/
def Recallable (sources : KeyedMap Source SourcePlan) (f : Feature)
    (w : Bench SourcePlan FeaturePlan) : Prop :=
  ∃ x, (eval (Direct.recall f.key (directFeature (backend sources .empty) f)) w).1 = .ok x

/-- What is remembered is recalled. -/
theorem recallable_of_remembers {f : Feature} {w : Bench SourcePlan FeaturePlan} {x : FeaturePlan}
    (h : Remembers w.memo f.key x) : Recallable sources f w :=
  ⟨x, congrArg Prod.fst (eval_recall h)⟩

/-- An expression is recalled if its arguments are, one after the other. -/
theorem recallable_expression {op : Operator} {f g : Feature} {t : Option Kind}
    {w : Bench SourcePlan FeaturePlan} (hf : Recallable sources f w)
    (hg : Recallable sources g
      (eval (Direct.recall f.key (directFeature (backend sources .empty) f)) w).2) :
    Recallable sources (.expression op [f, g] t) w := by
  obtain ⟨x, hx⟩ := hf
  obtain ⟨w₁, hf⟩ : ∃ w₁, eval (Direct.recall f.key (directFeature (backend sources .empty) f)) w
      = (.ok x, w₁) := ⟨_, Prod.ext hx rfl⟩
  rw [hf] at hg
  obtain ⟨y, hy⟩ := hg
  obtain ⟨w₂, hg⟩ : ∃ w₂, eval (Direct.recall g.key (directFeature (backend sources .empty) g)) w₁
      = (.ok y, w₂) := ⟨_, Prod.ext hy rfl⟩
  cases hmemo : Assoc.find? ((Feature.expression op [f, g] t).key == ·) w.memo with
  | some z => exact recallable_of_remembers hmemo
  | none =>
    obtain ⟨notes, replaced⟩ := eval_directReplaced (backend sources .empty)
      (.expression op [f, g] t)
      (.expression op [x, y] (Feature.expression op [f, g] t).kind) w₂
    have made : (backend sources .empty).expression op [x, y] (Feature.expression op [f, g] t).kind
        = .ok (.expression op [x, y] (Feature.expression op [f, g] t).kind) := rfl
    unfold Recallable Direct.recall
    simp only [eval_bind, eval_get, andThen_ok, hmemo, directFeature, directFeatures, hf, hg,
      eval_pure, made, eval_settle_ok, replaced, eval_modify]
    exact ⟨_, rfl⟩

/-- **The factors of a predicate that is remembered are translated without a fault.** -/
theorem factor_recalled (t : Schema) :
    ∀ p : Feature, p.Obeys .distinct → ∀ q, p.factors.get? t = some q →
      ∀ w : Bench SourcePlan FeaturePlan, (kept sources).Holds w →
      (∃ x, Remembers w.memo p.key x) → Recallable sources q w := by
  have lawful := stemming_lawful (backend sources .empty).visits_any
  refine Feature.childInduction fun p ih distinct q hq w hw hx => ?_
  obtain ⟨x, hx⟩ := hx
  -- The factors of both sides are recalled one after the other, and then united.
  have sides : ∀ {op : Operator}, op ∈ connectives → ∀ {f g : Feature} {k : Option Kind},
      p = .expression op [f, g] k → Factors.Merged op (f.factors.get? t) (g.factors.get? t) q →
      Recallable sources q w := by
    intro op hop f g k hp merged
    subst hp
    obtain ⟨u, v, _, hu, hv, -⟩ := connective_stems hw.memo hop distinct hx
    have hfc : f ∈ (Feature.expression op [f, g] k).children := by simp [Feature.children]
    have hgc : g ∈ (Feature.expression op [f, g] k).children := by simp [Feature.children]
    have fd := distinct.children f hfc
    have gd := distinct.children g hgc
    generalize hff : f.factors.get? t = ff at merged
    generalize hgf : g.factors.get? t = gf at merged
    cases merged with
    | left => exact ih f hfc fd q hff w hw ⟨u, hu⟩
    | right => exact ih g hgc gd q hgf w hw ⟨v, hv⟩
    | both ff gf =>
      have hf := ih f hfc fd ff hff w hw ⟨u, hu⟩
      unfold unite
      split
      · exact hf
      · have later := lawful.recalls ff (factor_distinct fd hff) w hw
        exact recallable_expression hf
          (ih g hgc gd gf hgf _ later.holds ⟨v, later.stays _ _ hv⟩)
  cases Feature.factor_cases hq with
  | whole => exact recallable_of_remembers hx
  | @aliased f n _ hp hf =>
    subst hp
    have child : f ∈ (Feature.aliased f n).children := by simp [Feature.children]
    obtain ⟨z, hz, -⟩ := (hw.memo _ _ hx).aliased distinct
    exact ih f child (distinct.children f child) q hf w hw ⟨z, hz⟩
  | and hp merged => exact sides (by decide) hp merged
  | or hp _ merged => exact sides (by decide) hp merged

end

/-! ### Factors and scans -/

/-- A translator that makes plans, behind whole translations. -/
def translatorAfter (sources : KeyedMap Source SourcePlan) (history : List Tree) :
    Translator SourcePlan FeaturePlan :=
  (Translator.ofBackend (backend sources .empty)).after history

/-- **No row that a predicate keeps is lost by a factor** that covers its table: after the predicate
the factor is translated without a fault, and it is true wherever the predicate is. -/
theorem factor_sound {sources : KeyedMap Source SourcePlan} {history : List Tree}
    (known : ∀ tree ∈ history, tree.Obeys .distinct) {p : Feature} (built : p.Built)
    (free : p.Obeys .structFree) {plan : FeaturePlan} {t : Translator SourcePlan FeaturePlan}
    (translated : (translatorAfter sources history).serve (.symbolOf (.feature p))
      = (.ok (some (.feature plan)), t))
    {table : Schema} {q : Feature} (entry : p.factors.get? table = some q)
    (covers : p.Covers table) :
    ∃ factor, (t.serve (.symbolOf (.feature q))).1 = .ok (some (.feature factor)) ∧
      ∀ b : Batch, b.Suits p → ∀ i, plan.Holds b i → factor.Holds b i := by
  have lawful := stemming_lawful (backend sources .empty).visits_any
  have distinct := built.distinct free
  obtain ⟨hb, -, hI⟩ := lawful.after_holds known (t := .ofBackend (backend sources .empty)) rfl
    State.clean_fresh ⟨nofun, trivial, Readings.All.empty⟩
  rw [Translator.serve_symbolOf_feature, translatorAfter, hb] at translated
  obtain ⟨plan_eq, rfl⟩ := Prod.mk.inj translated
  have recalled := lawful.recalls p distinct _ (⟨hI.memo, hI.origins, hI.tables⟩ :
    (kept sources).Holds ((Translator.ofBackend (backend sources .empty)).after
      history).cleared.state.bench)
  generalize eval (Direct.recall p.key (directFeature (backend sources .empty) p)) _ = r at *
  obtain ⟨_ | x, w⟩ := r
  · cases plan_eq
  obtain rfl : x = plan := by simpa [Except.map] using plan_eq
  have hx : Remembers w.memo p.key x := recalled.ok x rfl
  -- The bench that the factor is translated on is the one that the predicate has left.
  have hw : (kept sources).Holds { w with scans := [], notes := [] } :=
    ⟨recalled.holds.memo, trivial, recalled.holds.tables⟩
  obtain ⟨y, hy⟩ := factor_recalled table p distinct q entry _ hw ⟨x, hx⟩
  have factor := lawful.recalls q (factor_distinct distinct entry) _ hw
  refine ⟨y, ?_, fun b suits i => ?_⟩
  · rw [Translator.serve_symbolOf_feature]
    exact congrArg (Except.map _) hy
  · exact (factor_holds factor.holds.memo table b p built distinct suits q entry x y
      (factor.stays _ _ hx) (factor.ok y hy)).2 covers i

/-! ### Factors that lose rows -/

/-- Whether a symbol is a plan that is true of a row, if it is a plan with values. -/
def truthAt (r : Except Fault (Option (Translation.Symbol SourcePlan FeaturePlan))) (b : Batch) (i : Nat) :
    Option Bool :=
  match r with
  | .ok (some (.feature x)) =>
    match x.values b with
    | .ok vs   => some ((Dataset.item vs i).isBool true)
    | .error _ => none
  | _ => none

theorem holds_of_truthAt {r : Except Fault (Option (Translation.Symbol SourcePlan FeaturePlan))} {b : Batch}
    {i : Nat} {v : Bool} (h : truthAt r b i = some v) :
    ∃ x, r = .ok (some (.feature x)) ∧ (x.Holds b i ↔ v = true) := by
  unfold truthAt at h
  split at h
  · rename_i x
    split at h
    · rename_i vs hvs
      refine ⟨x, rfl, ?_⟩
      rw [← Option.some.inj h]
      exact ⟨fun ⟨us, hus, ht⟩ => Except.ok.inj (hvs.symm.trans hus) ▸ ht, fun ht => ⟨vs, hvs, ht⟩⟩
    · cases h
  · cases h

/-- A test whether a column is empty is built, whatever target it is given. -/
theorem built_test {op : Operator} {t : Schema} {n : String} {k : Kind} {target : Option Kind}
    (table : (Source.table t).Built) (field : (Source.table t).get n = .ok (.element (.table t) n k))
    (h : Feature.expr op [.feature (.element (.table t) n k)] target
      = .ok (.expression op [.element (.table t) n k] target)) :
    (Feature.expression op [.element (.table t) n k] target).Built := built_single (.element table field) h

/-- A disjunction both sides of which speak about one of two tables. -/
theorem factor_sound_of_disjunction :
    let student : Schema := ⟨"student", [("score", ⟨.primitive .float, "score"⟩),
      ("level", ⟨.primitive .integer, "class"⟩)]⟩
    let school : Schema := ⟨"school", [("name", ⟨.primitive .string, "name"⟩)]⟩
    let scored : Feature := .expression .notNull [.element (.table student) "score"
      (.primitive .float)] none
    let named : Feature := .expression .notNull [.element (.table school) "name"
      (.primitive .string)] none
    let unplaced : Feature := .expression .isNull [.element (.table student) "class"
      (.primitive .integer)] none
    let p : Feature := .expression .or [.expression .and [scored, named] none, unplaced] none
    let row : Batch := .ofData ⟨[⟨"score", some "student"⟩, ⟨"class", some "student"⟩,
      ⟨"name", some "school"⟩], [[.bool true], [.bool true], [.text "Alpha"]], 1⟩
    ∃ q plan t factor, p.factors.get? student = some q ∧
      (translatorAfter .empty []).serve (.symbolOf (.feature p))
        = (.ok (some (.feature plan)), t) ∧
      (t.serve (.symbolOf (.feature q))).1 = .ok (some (.feature factor)) ∧
      plan.Holds row 0 ∧ factor.Holds row 0 := by
  intro student school scored named unplaced p row
  have hstudent : (Source.table student).Built := .of_distinct rfl
  have hschool : (Source.table school).Built := .of_distinct rfl
  have hscored : scored.Built := built_test hstudent rfl rfl
  have hnamed : named.Built := built_test hschool rfl rfl
  have hunplaced : unplaced.Built := built_test hstudent rfl rfl
  have built : p.Built := built_pair (built_pair hscored hnamed rfl) hunplaced rfl
  have hs : (Source.table student).Obeys .structFree := structFree_table rfl
  have ht : (Source.table school).Obeys .structFree := structFree_table rfl
  have plain : ∀ (op : Operator) (fs : List Feature),
      Rules.structFree.feature (.expression op fs none) := by simp [Rules.structFree]
  have free : p.Obeys .structFree :=
    ⟨plain _ _, ⟨plain _ _, ⟨plain _ _, ⟨trivial, hs⟩, trivial⟩,
      ⟨plain _ _, ⟨trivial, ht⟩, trivial⟩, trivial⟩, ⟨plain _ _, ⟨trivial, hs⟩, trivial⟩, trivial⟩
  have entry : (p.factors.get? student).isSome = true := by decide +kernel
  obtain ⟨q, hq⟩ := Option.isSome_iff_exists.1 entry
  obtain ⟨⟨r, t⟩, served⟩ :
      ∃ r, (translatorAfter .empty []).serve (.symbolOf (.feature p)) = r := ⟨_, rfl⟩
  have kept : truthAt (r, t).1 row 0 = some true := by
    rw [← served]
    decide +kernel
  obtain ⟨plan, rfl, holds⟩ := holds_of_truthAt kept
  have covers : p.Covers student :=
    .inr ⟨⟨by decide +kernel, fun _ => trivial, fun _ => trivial⟩, by decide +kernel, trivial⟩
  obtain ⟨factor, factored, sound⟩ := factor_sound (by simp) built free served hq covers
  have suits : row.Suits p := by
    intro e he boolean
    have : e.kind.isBoolean = false := by
      simp only [p, scored, named, unplaced, Feature.elements, elementsOf, List.append_nil,
        List.mem_append, List.mem_singleton, or_assoc] at he
      rcases he with rfl | rfl | rfl <;> rfl
    exact absurd boolean (by simp [this])
  exact ⟨q, plan, t, factor, hq, served, factored, holds.2 rfl, sound row suits 0 (holds.2 rfl)⟩

/-- On the batch every factor of the predicate is true wherever the predicate is, when a fresh
translator makes plans of both. -/
def Pushes (p : Feature) (b : Batch) : Prop :=
  ∀ (table : Schema) (q : Feature), p.factors.get? table = some q →
    ∀ (plan factor : FeaturePlan) (t : Translator SourcePlan FeaturePlan),
    (translatorAfter .empty []).serve (.symbolOf (.feature p)) = (.ok (some (.feature plan)), t) →
    (t.serve (.symbolOf (.feature q))).1 = .ok (some (.feature factor)) →
    ∀ i, plan.Holds b i → factor.Holds b i

/-- A factor that is false where the predicate is true. -/
theorem not_pushes {p : Feature} {b : Batch} {i : Nat} (table : Schema)
    (entry : (p.factors.get? table).isSome = true)
    (kept : truthAt ((translatorAfter .empty []).serve (.symbolOf (.feature p))).1 b i = some true)
    (lost : truthAt (((translatorAfter .empty []).serve (.symbolOf (.feature p))).2.serve
      (.symbolOf (.feature ((p.factors.get? table).getD p)))).1 b i = some false) :
    ¬Pushes p b := by
  intro pushes
  obtain ⟨q, hq⟩ := Option.isSome_iff_exists.1 entry
  rw [hq, Option.getD_some] at lost
  obtain ⟨plan, translated, holds⟩ := holds_of_truthAt kept
  obtain ⟨factor, factored, fails⟩ := holds_of_truthAt lost
  have := pushes table q hq plan factor _ (Prod.ext translated rfl) factored i (holds.2 rfl)
  exact absurd (fails.1 this) (by simp)

/-- A disjunction over two tables is true because of the one while the factor of the other is false.
Names of struct elements may spell keys, so that one side of a conjunction gets the plan of the other
one. And a conjunction takes a number in a Boolean column for true. -/
theorem factors_lose_rows :
    let student : Schema := ⟨"student", [("score", ⟨.primitive .float, "score"⟩),
      ("level", ⟨.primitive .integer, "class"⟩), ("active", ⟨.primitive .boolean, "active"⟩)]⟩
    let school : Schema := ⟨"school", [("name", ⟨.primitive .string, "name"⟩)]⟩
    let score : Feature := .element (.table student) "score" (.primitive .float)
    let level : Feature := .element (.table student) "class" (.primitive .integer)
    let active : Feature := .element (.table student) "active" (.primitive .boolean)
    let name : Feature := .element (.table school) "name" (.primitive .string)
    let null (f : Feature) (target : Option Kind) : Feature := .expression .isNull [f] target
    let struct (n : String) : Option Kind := some (.struct [(n, .primitive .integer)])
    let named : Feature := .expression .notNull [name] none
    let either : Feature := .expression .or [null score none, named] none
    let spelt (f : Feature) (n m : String) : String :=
      n ++ ":Integer>," ++ (null f none).key ++ ":Struct<" ++ m
    let shared : Feature := .expression .and
      [.expression .and [null score (struct (spelt name "x" "y")), null level (struct "z")] none,
       .expression .and [null score (struct "x"), null name (struct (spelt level "y" "z"))] none] none
    let flagged : Feature := .expression .and [active, named] none
    let row (score level active : Value) : Batch := .ofData ⟨[⟨"score", some "student"⟩,
      ⟨"class", some "student"⟩, ⟨"active", some "student"⟩, ⟨"name", some "school"⟩],
      [[score], [level], [active], [.text "Alpha"]], 1⟩
    (either.Built ∧ ¬Pushes either (row (.bool true) (.bool true) (.bool true))) ∧
      (shared.Built ∧ ¬Pushes shared (row .null .null .null)) ∧
      flagged.Built ∧ ¬Pushes flagged (row .null .null (.number (.ofNat 3))) := by
  intro student school score level active name null struct named either spelt shared flagged row
  have hstudent : (Source.table student).Built := .of_distinct rfl
  have hschool : (Source.table school).Built := .of_distinct rfl
  have hnamed : named.Built := built_test hschool rfl rfl
  have hscore : ∀ target, (null score target).Built := fun _ => built_test hstudent rfl rfl
  have hlevel : ∀ target, (null level target).Built := fun _ => built_test hstudent rfl rfl
  have hname : ∀ target, (null name target).Built := fun _ => built_test hschool rfl rfl
  have hactive : active.Built := .element hstudent (show (Source.table student).get "active" = _ from rfl)
  refine ⟨⟨built_pair (hscore _) hnamed rfl, ?_⟩, ⟨built_pair (built_pair (hscore _) (hlevel _) rfl)
    (built_pair (hscore _) (hname _) rfl) rfl, ?_⟩, built_pair hactive hnamed rfl, ?_⟩
  · exact not_pushes (i := 0) student (by decide +kernel) (by decide +kernel) (by decide +kernel)
  · exact not_pushes (i := 0) school (by decide +kernel) (by decide +kernel) (by decide +kernel)
  · exact not_pushes (i := 0) student (by decide +kernel) (by decide +kernel) (by decide +kernel)

end QueryAlgebra.Evaluation
