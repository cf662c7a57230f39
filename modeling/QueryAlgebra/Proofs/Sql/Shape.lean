import QueryAlgebra.Proofs.Sql.Skeleton
import QueryAlgebra.Proofs.Translation.Provenance
import QueryAlgebra.Proofs.Tree.Endings
import QueryAlgebra.Proofs.Tree.Shape

/-!
# Shapes of skeletons

The skeleton of a tree has the shape of the tree, with elements labelled by what was remembered for
them when the translation has ended. Elements of references always have the names of the references
as labels.

* `Labels`: labels for the elements that are remembered.
* `ownShape_of_remembered`: what is remembered for a feature has the shape of the feature.
* `shape_outcome`: so has the skeleton of a source.
-/

namespace QueryAlgebra.Sql

open Translation

/-- Where elements are remembered, they go by the labels. -/
def Labels (label : Source → String → String) (m : List (String × Feature)) : Prop :=
  ∀ s n k x, (Feature.element s n k).Obeys .distinct → Remembers m (Feature.element s n k).key x →
    ∃ y, x = .element y n default ∧ y.handle = label s n

/-! ### Origins -/

/-- Only tables and references are visited, and references give their own names. -/
def Visited (o : KeyedMap Source Source) : Prop :=
  ∀ u y, o.get? u = some y → (∃ t, u = .table t) ∨ ∃ s n, u = .reference s n ∧ y.handle = n

theorem visited_empty : Visited .empty := fun _ _ h => nomatch h

theorem Visited.table {o : KeyedMap Source Source} (h : Visited o) (t : Schema) (x : Source) :
    Visited (o.set (.table t) x) := by
  intro u y hy
  by_cases hu : Keyed.key u = Keyed.key (Source.table t)
  · have sort := Source.type_eq (s := u) (t := .table t) hu
    exact .inl (Source.eq_table_of_type sort)
  · rw [KeyedMap.get?_set_of_ne _ _ hu] at hy
    exact h u y hy

theorem Visited.reference {o : KeyedMap Source Source} (h : Visited o) (s : Source) (n : String) :
    Visited (o.set (.reference s n) (.table ⟨n, []⟩)) := by
  intro u y hy
  by_cases hu : Keyed.key u = Keyed.key (Source.reference s n)
  · rw [KeyedMap.get?_set_of_eq _ _ hu.symm] at hy
    cases hy
    have sort := Source.type_eq (s := u) (t := .reference s n) hu
    cases u with
    | reference v m => exact .inr ⟨v, m, rfl, (Source.name_eq_of_key hu).symm⟩
    | _ => simp [Source.type] at sort
  · rw [KeyedMap.get?_set_of_ne _ _ hu] at hy
    exact h u y hy

theorem visits_visited : skeleton.Visits Visited where
  nowhere := visited_empty
  table _ h := h.table _ _
  reference h := h.reference _ _

/-- What a translation into skeletons remembers stems from nodes, which had visited only tables and
references. -/
abbrev tracing : Invariant Source Feature := stemming skeleton Visited

theorem tracing_lawful : tracing.Lawful skeleton := stemming_lawful visits_visited

theorem tracing_fresh : tracing.Holds Bench.fresh := ⟨nofun, visited_empty, Readings.All.empty⟩

/-! ### Features -/

section

variable {label : Source → String → String} {m : List (String × Feature)}

/-- What is remembered for an element is an element of the same name. -/
theorem element_of_remembered (hm : tracing.memo m) {s : Source} {n : String} {k : Kind}
    {x : Feature} (hd : (Feature.element s n k).Obeys .distinct)
    (hx : Remembers m (Feature.element s n k).key x) :
    ∃ y, x = .element y n default ∧ ((∃ t, s = .table t) ∨ ∃ r l, s = .reference r l ∧ y.handle = l) := by
  obtain ⟨u, l, o, hkey, hus, ho, gives⟩ := Stems.element hd (hm _ _ hx)
  obtain ⟨y, hy, rfl⟩ := map_eq_ok.1 (show (skeleton.origin o u).map _ = .ok x from gives)
  have keys : u.key = s.key := by rw [← u.key_canonical, hus, s.key_canonical]
  refine ⟨y, rfl, ?_⟩
  have sort := Source.type_eq keys
  unfold Backend.origin at hy
  cases visited : o.get? u with
  | some z =>
    rw [visited] at hy
    cases hy
    rcases ho u y visited with ⟨t, rfl⟩ | ⟨r, n', rfl, hy⟩
    · exact .inl (Source.eq_table_of_type sort.symm)
    · cases s with
      | reference r' n'' => exact .inr ⟨r', n'', rfl, hy.trans (Source.name_eq_of_key keys)⟩
      | _ => simp [Source.type] at sort
  | none =>
    rw [visited] at hy
    cases u with
    | table t => exact .inl (Source.eq_table_of_type sort.symm)
    | _ => cases hy

/-- The target that a cast names in a skeleton is the kind that it names. -/
theorem castKind_of_castTarget {op : Operator} {k : Kind} {t : Option Kind}
    (h : castTarget op k = .ok t) : op.castKind t = t := by
  unfold castTarget at h
  unfold Operator.castKind
  split at h
  · rename_i hop
    subst hop
    split at h
    · cases h
      rfl
    · cases h
  · rename_i hop
    cases h
    exact if_neg hop

/-- It is the one that the operator casts to. -/
theorem castKind_of_target {op : Operator} {ks : List Kind} {target t : Option Kind}
    (h : castTarget op (op.resultKind ks target) = .ok t) : op.castKind t = op.castKind target := by
  rw [castKind_of_castTarget h]
  unfold castTarget at h
  unfold Operator.castKind
  split at h
  · rename_i hop
    subst hop
    split at h
    · exact (Except.ok.inj h).symm
    · cases h
  · rename_i hop
    rw [if_neg hop]
    exact (Except.ok.inj h).symm

theorem ownShapes_of_remembered {fs xs : List Feature} (h : Remembered m fs xs)
    (each : ∀ f ∈ fs, ∀ x, Remembers m f.key x → x.ownShape = f.shape label) :
    xs.map Feature.ownShape = fs.map (Feature.shape label) := by
  unfold Remembered at h
  induction h with
  | nil => rfl
  | cons hx _ ih =>
    obtain ⟨hf, hr⟩ := List.forall_mem_cons.1 each
    rw [List.map_cons, List.map_cons, hf _ hx, ih hr]

theorem ownShapes_of_terms {os : List OrderTerm} {ys : List (OrderSymbol Feature)}
    (h : RememberedTerms m os ys)
    (each : ∀ o ∈ os, ∀ x, Remembers m o.feature.key x → x.ownShape = o.feature.shape label) :
    (ys.map fun o => OrderTerm.by o.1 o.2).map (OrderTerm.shape fun s _ => s.handle)
      = os.map (OrderTerm.shape label) := by
  unfold RememberedTerms at h
  induction h with
  | nil => rfl
  | @cons o y _ _ hy _ ih =>
    obtain ⟨hf, hr⟩ := List.forall_mem_cons.1 each
    obtain ⟨f, d⟩ := o
    obtain ⟨x, e⟩ := y
    obtain ⟨hx, rfl⟩ := hy
    simp only [List.map_cons, OrderTerm.shape, ih hr]
    rw [show x.shape _ = _ from hf x hx]
    rfl

/-- **What is remembered for a feature has its shape.** -/
theorem ownShape_of_remembered (hm : tracing.memo m) (labels : Labels label m) :
    ∀ f : Feature, f.Obeys .distinct → ∀ x, Remembers m f.key x → x.ownShape = f.shape label := by
  refine Feature.childInduction fun f ih hf x hx => ?_
  have parts : ∀ c ∈ f.children, ∀ x, Remembers m c.key x → x.ownShape = c.shape label :=
    fun c hc => ih c hc (hf.children c hc)
  cases f with
  | aliased f n =>
    obtain ⟨y, hy, rfl⟩ := Stems.aliased hf (hm _ _ hx)
    exact congrArg (Feature.aliased · n) (parts f (by simp [Feature.children]) y hy)
  | literal v k =>
    obtain ⟨w, hw, made⟩ := Stems.literal hf (hm _ _ hx)
    obtain ⟨t, ht, rfl⟩ := map_eq_ok.1 (show (literalText k w).map _ = .ok x from made)
    show Feature.literal w.canonical k = .literal v.canonical k
    rw [hw]
  | element s n k =>
    obtain ⟨y, rfl, hy⟩ := labels s n k x hf hx
    show Feature.element (.table ⟨y.handle, []⟩) n default = .element (.table ⟨label s n, []⟩) n default
    rw [hy]
  | expression op args t =>
    obtain ⟨xs, ks, y, hxs, made, hxy⟩ := Stems.expression hf (hm _ _ hx)
    obtain rfl : x = y := hxy
    obtain ⟨u, hu, rfl⟩ := map_eq_ok.1 (show (castTarget op _).map _ = .ok x from made)
    have args := ownShapes_of_remembered hxs parts
    simp only [Feature.shape, featureShapes_eq_map, castKind_of_target hu]
    rw [args]
  | window fn ps os fr =>
    obtain ⟨y, xs, ys, fr', z, hy, hxs, hys, hfr, made, hxz⟩ := Stems.window hf (hm _ _ hx)
    obtain rfl : x = z := hxz
    cases made
    have hfn := parts fn (by simp [Feature.children]) y hy
    have hps := ownShapes_of_remembered hxs fun c hc => parts c (by simp [Feature.children, hc])
    have hos := ownShapes_of_terms hys fun o ho =>
      parts o.feature (List.mem_append_right _ (List.mem_map_of_mem ho))
    simp only [Feature.shape, featureShapes_eq_map, termShapes_eq_map, hfr]
    rw [hps, hos, show y.shape _ = _ from hfn]

end

/-! ### Sources -/

/-- The skeleton has the shape of the source, with the labels of any memo that holds all that is
remembered now. -/
def Shaped (s x : Source) (w : Bench Source Feature) : Prop :=
  ∀ (w' : Bench Source Feature) (label : Source → String → String), w.Extends w' →
    tracing.memo w'.memo → Labels label w'.memo → x.ownShape = s.shape label Source.features

theorem Shaped.mono {s x : Source} {w w' : Bench Source Feature} (h : Shaped s x w)
    (stays : w.Extends w') : Shaped s x w' := fun v label hv => h v label (stays.trans hv)

section

variable {w w' : Bench Source Feature} {label : Source → String → String}

theorem shapes_of_remembered (stays : w.Extends w') (hm : tracing.memo w'.memo)
    (labels : Labels label w'.memo) {fs xs : List Feature} (hfs : ∀ f ∈ fs, f.Obeys .distinct)
    (h : Remembered w.memo fs xs) : xs.map Feature.ownShape = fs.map (Feature.shape label) :=
  ownShapes_of_remembered (stays.remembered h) fun f hf =>
    ownShape_of_remembered hm labels f (hfs f hf)

theorem shape_of_option (stays : w.Extends w') (hm : tracing.memo w'.memo)
    (labels : Labels label w'.memo) {c z : Option Feature} (hc : ∀ f ∈ c, f.Obeys .distinct)
    (h : Remembered w.memo c.toList z.toList) :
    z.map Feature.ownShape = c.map (Feature.shape label) := by
  have shapes := shapes_of_remembered stays hm labels (by simpa using hc) h
  cases c <;> cases z <;> simp_all

theorem shapes_of_terms (stays : w.Extends w') (hm : tracing.memo w'.memo)
    (labels : Labels label w'.memo) {os : List OrderTerm} {ys : List (OrderSymbol Feature)}
    (hos : ∀ o ∈ os, o.feature.Obeys .distinct) (h : RememberedTerms w.memo os ys) :
    (ys.map fun o => OrderTerm.by o.1 o.2).map (OrderTerm.shape fun s _ => s.handle)
      = os.map (OrderTerm.shape label) :=
  ownShapes_of_terms (stays.terms h) fun o ho =>
    ownShape_of_remembered hm labels o.feature (hos o ho)

end

open Invariant

/-- A table is scanned under its own name. -/
theorem table_of_scan {t : Schema} {w w' : Bench Source Feature} {x : Source}
    (h : eval (directSource skeleton (.table t)) w = (.ok x, w')) : x = .table ⟨t.name, []⟩ := by
  simp only [directSource, directTable, eval_bind_eq_ok] at h
  obtain ⟨origin, _, settled, _, _, -, _, _, -, _, _, -, _, _, -, _, _, -, _, _, -, made⟩ := h
  cases settled
  cases made
  rfl

/-- The skeleton of a statement has its shape, if that of its source has. -/
theorem shape_query {s : Source} {sel : List Feature} {pre : Option Feature} {grp : List Feature}
    {post : Option Feature} {ord : List OrderTerm} {rows : Option RowRange}
    (hs : (Source.query s sel pre grp post ord rows).Obeys .distinct)
    (inner : ∀ {w : Bench Source Feature}, tracing.Holds w →
      tracing.Outcome w (Shaped s) (eval (directSource skeleton s) w))
    {w : Bench Source Feature} (hI : tracing.Holds w) :
    tracing.Outcome w (Shaped (.query s sel pre grp post ord rows))
      (eval (directSource skeleton (.query s sel pre grp post ord rows)) w) := by
  have outputs := tracing_lawful.selected.features hs
  have clauses := hs.statement
  have made : tracing.Outcome w.inner (Shaped (.query s sel pre grp post ord rows)) (eval (do
      Direct.modifyTables (registerClauses (Source.query s sel pre grp post ord rows).features
        pre grp post ord)
      let source ← directSource skeleton s
      let features ← directFeatures skeleton (Source.query s sel pre grp post ord rows).features
      let filter ← directOption skeleton pre
      let groupby ← directFeatures skeleton grp
      let having ← directOption skeleton post
      let orderby ← directTerms skeleton ord
      return skeleton.query source features filter groupby having orderby rows) w.inner) := by
    simp only [eval_bind, Direct.modifyTables, eval_modify, andThen_ok]
    refine .of_start ((inner (tracing_lawful.begun hs hI)).andThen fun x w₁ h₁ _ hx =>
      (tracing_lawful.features outputs h₁).andThen fun xs w₂ h₂ s₂ hxs =>
      (tracing_lawful.option clauses.prefilter h₂).andThen fun y w₃ h₃ s₃ hy =>
      (tracing_lawful.features clauses.grouping h₃).andThen fun ys w₄ h₄ s₄ hys =>
      (tracing_lawful.option clauses.postfilter h₄).andThen fun z w₅ h₅ s₅ hz =>
      (tracing_lawful.terms clauses.ordering h₅).andThen fun zs w₆ h₆ s₆ hzs =>
      .of_ok h₆ (.refl _) fun v label hv hm labels => ?_) rfl
    -- Each clause is read off the memo as it was when the clause was done.
    have v₅ := s₆.trans hv
    have v₄ := s₅.trans v₅
    have v₃ := s₄.trans v₄
    have v₂ := s₃.trans v₃
    show Source.query x.ownShape (xs.map Feature.ownShape) (y.map Feature.ownShape)
      (ys.map Feature.ownShape) (z.map Feature.ownShape)
      ((zs.map fun o => .by o.1 o.2).map (OrderTerm.shape fun s _ => s.handle)) rows = _
    rw [hx v label (s₂.trans v₂) hm labels, shapes_of_remembered v₂ hm labels outputs hxs,
      shape_of_option v₃ hm labels clauses.prefilter hy,
      shapes_of_remembered v₄ hm labels clauses.grouping hys,
      shape_of_option v₅ hm labels clauses.postfilter hz,
      shapes_of_terms hv hm labels clauses.ordering hzs]
    rfl
  simp only [directSource, eval_bind]
  refine (Outcome.scope hI made).andThen fun x w₁ h₁ _ within => ?_
  obtain ⟨v, leaving, hx⟩ := within
  exact .of_ok h₁ (.refl _) (hx.mono (.of_memo (by rw [leaving]; rfl)))

/-- **The skeleton of a source has its shape.** -/
theorem shape_outcome : ∀ (s : Source), s.Obeys .distinct → ∀ {w : Bench Source Feature},
    tracing.Holds w → tracing.Outcome w (Shaped s) (eval (directSource skeleton s) w)
  | .table t, hs, w, hI => by
    have outcome := tracing_lawful.table_outcome (t := t) hs hI
    refine ⟨outcome.holds, outcome.stays, fun x hx v label _ _ _ => ?_, outcome.fault⟩
    have scanned : eval (directSource skeleton (.table t)) w = (.ok x, _) := Prod.ext hx rfl
    rw [table_of_scan scanned]
    rfl
  | .reference s n, hs, w, hI => by
    simp only [directSource, eval_bind]
    refine (shape_outcome s hs.2 hI).andThen fun x w₁ h₁ _ hx => ?_
    exact .of_ok ⟨h₁.memo, h₁.origins.reference s n, h₁.tables⟩ (.of_memo rfl)
      fun v label hv hm labels => congrArg (Source.reference · n) (hx v label hv hm labels)
  | .join l r k c, hs, w, hI => by
    obtain ⟨_, hl, hr, hc⟩ := id hs
    have hc := optionObeys_iff.1 hc
    rw [eval_directSource_join]
    simp only [eval_bind]
    refine .of_start ((shape_outcome l hl (tracing_lawful.filtered hc hI)).andThen fun x w₁ h₁ _ hx =>
      (shape_outcome r hr h₁).andThen fun y w₂ h₂ s₂ hy =>
        (tracing_lawful.option hc h₂).andThen fun z w₃ h₃ s₃ hz =>
          .of_ok h₃ (.refl _) fun v label hv hm labels => ?_) rfl
    have left := hx v label ((s₂.trans s₃).trans hv) hm labels
    have right := hy v label (s₃.trans hv) hm labels
    have condition := shape_of_option hv hm labels hc hz
    show Source.join x.ownShape y.ownShape k (z.map Feature.ownShape) = _
    rw [left, right, condition]
    rfl
  | .set l r k, hs, w, hI => by
    obtain ⟨_, hl, hr⟩ := id hs
    simp only [directSource, eval_bind]
    refine (shape_outcome l hl hI).andThen fun x w₁ h₁ _ hx =>
      (shape_outcome r hr h₁).andThen fun y w₂ h₂ s₂ hy =>
        .of_ok h₂ (.refl _) fun v label hv hm labels => ?_
    have left := hx v label (s₂.trans hv) hm labels
    have right := hy v label hv hm labels
    show Source.set x.ownShape y.ownShape k = _
    rw [left, right]
    rfl
  | .query s sel pre grp post ord rows, hs, w, hI =>
    shape_query hs (fun h => shape_outcome s hs.2.1 h) hI

end QueryAlgebra.Sql
