import Mathlib.Data.List.GetD
import QueryAlgebra.Evaluation.Plan
import QueryAlgebra.Proofs.Translation.Provenance

/-!
# The values of predicates

The plan of a predicate gives truth values and empty values, one for each row or group, if the
Boolean columns that it reads do.

* `ThreeValued`: such a column.
* `Feature.Built.tests`: the operators whose results are Boolean.
* `FeaturePlan.three_valued`: the column of a predicate.
* `FeaturePlan.sides_hold`, `FeaturePlan.and_holds`, `FeaturePlan.or_holds`: the rows of which a
  connective is true.
-/

namespace QueryAlgebra

/-! ### Boolean kinds -/

theorem Kind.isBoolean_of_ensure {k l : Kind} (h : (Kind.primitive .boolean).ensure k = .ok l) :
    k.isBoolean = true := by
  unfold ensure at h
  split at h
  · rename_i same
    cases k with
    | primitive p =>
      cases p <;> first | rfl | exact absurd same (by decide)
    | _ => exact absurd same (by simp [sameFamily, family, Primitive.name])
  · cases h

theorem Kind.not_isBoolean_of_numeric {k : Kind} (h : k.isNumeric = true) : k.isBoolean = false := by
  unfold isBoolean
  split
  · cases h
  · rfl

/-- The widest of numeric kinds is numeric. -/
theorem Operator.widestKind_numeric {kinds : List Kind}
    (h : ∀ k ∈ kinds, Family.numeric.has k = true) : (widestKind kinds).isNumeric = true := by
  have found : ∀ p ∈ kinds.filterMap Kind.primitive?, p.isNumeric = true := by
    intro p hp
    obtain ⟨k, hk, hkp⟩ := List.mem_filterMap.1 hp
    have := h k hk
    cases k with
    | primitive q => exact Option.some.inj hkp ▸ this
    | _ => cases hkp
  have widest : ∀ (ps : List Primitive) (p : Primitive), p.isNumeric = true →
      (∀ q ∈ ps, q.isNumeric = true) → (widestFrom p ps).isNumeric = true := by
    intro ps
    induction ps with
    | nil => exact fun p hp _ => hp
    | cons q r ih =>
      intro p hp h
      obtain ⟨hq, hr⟩ := List.forall_mem_cons.1 h
      refine ih _ ?_ hr
      dsimp only
      split
      · exact hq
      · exact hp
  unfold widestKind
  split
  · rfl
  · rename_i p r hps
    rw [hps] at found
    obtain ⟨hp, hr⟩ := List.forall_mem_cons.1 found
    exact widest r p hp hr

theorem Operator.numeric_of_ensureAll {kinds : List Kind} (h : ensureAll .numeric kinds = .ok ()) :
    ∀ k ∈ kinds, Family.numeric.has k = true := by
  intro k hk
  obtain ⟨_, hk, -⟩ := bind_eq_ok.1 (forM_eq_ok h k hk)
  unfold Family.ensure at hk
  split at hk
  · assumption
  · cases hk

/-- The operators that test their arguments, and casts. -/
def Operator.tests (op : Operator) : Bool :=
  match op.group with
  | .comparison | .logical | .nullity | .cast => true
  | _                                         => false

/-- All other operators compute numbers. -/
theorem Operator.resultKind_numeric {op : Operator} {kinds : List Kind} {t : Option Kind}
    {repr : String} (check : op.check kinds t repr = .ok ()) (computes : op.tests = false) :
    (op.resultKind kinds t).isNumeric = true := by
  unfold Operator.check at check
  unfold Operator.resultKind
  unfold Operator.tests at computes
  generalize hgroup : op.group = g at *
  have widened (numeric : ensureAll .numeric kinds = .ok ()) :
      (widestKind kinds).isNumeric = true := widestKind_numeric (numeric_of_ensureAll numeric)
  cases g with
  | arithmetic => exact widened check
  | aggregate =>
    dsimp only at check ⊢
    split
    · rfl
    · rename_i hne
      rw [if_neg hne] at check
      exact widened check
  | math =>
    dsimp only
    split
    · exact widened check
    · rfl
  | temporal => rfl
  | _ => cases computes

/-- **An expression of Boolean kind tests its arguments, or casts them.** -/
theorem Feature.Built.tests {op : Operator} {args : List Feature} {t : Option Kind}
    (h : (Feature.expression op args t).Built)
    (boolean : (Feature.expression op args t).kind.isBoolean = true) : op.tests = true := by
  obtain ⟨-, -, -, check⟩ := h.inv_expression
  rw [← kinds_eq_map] at check
  by_contra computes
  have numeric := Operator.resultKind_numeric check (Bool.eq_false_iff.2 computes)
  exact Bool.eq_false_iff.1 (Kind.not_isBoolean_of_numeric numeric) boolean

/-- The sides of a connective are Boolean. -/
theorem Feature.Built.connected {op : Operator} (hop : op ∈ connectives) {args : List Feature}
    {t : Option Kind} (h : (Feature.expression op args t).Built) :
    ∀ a ∈ args, a.Built ∧ a.kind.isBoolean = true := by
  obtain ⟨parts, -, -, check⟩ := h.inv_expression
  intro a ha
  have check : (args.map Feature.kind).forM
      (fun k => do let _ ← (Kind.primitive .boolean).ensure k) = .ok () := by
    simp only [connectives, List.mem_cons, List.not_mem_nil, or_false] at hop
    rcases hop with rfl | rfl <;> exact check
  obtain ⟨_, hk, -⟩ := bind_eq_ok.1 (forM_eq_ok check _ (List.mem_map_of_mem ha))
  exact ⟨(parts a ha).1, Kind.isBoolean_of_ensure hk⟩

/-- A window has the kind of an aggregate, which is not Boolean. -/
theorem Feature.Built.window_kind {fn : Feature} {ps : List Feature} {os : List OrderTerm}
    {fr : Option Frame} (h : (Feature.window fn ps os fr).Built) :
    (Feature.window fn ps os fr).kind.isBoolean = false := by
  obtain ⟨hfn, aggregates, -, -⟩ := h.inv_window
  rw [← Bool.not_eq_true]
  intro boolean
  cases fn with
  | expression op args t =>
    have := hfn.tests boolean
    unfold Operator.tests at this
    simp only [Feature.aggregates, Operator.aggregates, beq_iff_eq] at aggregates
    simp [aggregates] at this
  | _ => cases aggregates

/-- An item inside a column. -/
theorem Dataset.item_mem {column : List Value} {i : Nat} (inside : i < column.length) :
    Dataset.item column i ∈ column := by
  rw [Dataset.item, List.getD_eq_getElem _ _ inside]
  exact List.getElem_mem inside

namespace Evaluation

open Translation

/-! ### Three-valued columns -/

/-- A truth value, or empty. -/
def Truth (v : Value) : Prop := v = .null ∨ ∃ t, v = .bool t

/-- A column that has a truth value or an empty value for each row or group. -/
structure ThreeValued (b : Batch) (vs : List Value) : Prop where
  length : vs.length = b.size
  truth  : ∀ v ∈ vs, Truth v

theorem ThreeValued.item {b : Batch} {vs : List Value} (h : ThreeValued b vs) {i : Nat}
    (hi : i < b.size) : Truth (Dataset.item vs i) := by
  exact h.truth _ (Dataset.item_mem (h.length ▸ hi))

/-- The Boolean columns that a feature reads are three-valued, also those of tables that share the
key of one that it reads. -/
def Batch.Suits (b : Batch) (p : Feature) : Prop :=
  ∀ e ∈ p.elements, e.kind.isBoolean = true → ∀ s n k, (Feature.element s n k).key = e.key →
    ∀ vs, (FeaturePlan.element s n).values b = .ok vs → ThreeValued b vs

theorem Batch.Suits.child {b : Batch} {p c : Feature} (h : b.Suits p) (hc : c ∈ p.children) :
    b.Suits c := fun e he => h e (Feature.elements_of_child hc he)

/-- Operators that test their arguments give truth values. -/
theorem applyOperator_truth {op : Operator} (hop : op.tests = true) {args : List Value} {k : Kind}
    (hk : op.group = .cast → k = .primitive .boolean) {v : Value}
    (h : applyOperator op args k = .ok v) : Truth v := by
  have present : ∀ {v}, applyPresent op args k = .ok v → Truth v := by
    intro v h
    unfold applyPresent at h
    unfold Operator.tests at hop
    generalize hgroup : op.group = g at *
    cases g with
    | comparison =>
      obtain ⟨c, -, h⟩ := bind_eq_ok.1 h
      unfold outcome at h
      split at h <;> cases h <;> exact .inr ⟨_, rfl⟩
    | cast =>
      obtain rfl := hk rfl
      exact .inr ⟨_, (Except.ok.inj h).symm⟩
    | logical =>
      dsimp only at h
      split at h
      · exact .inr ⟨_, (pure_eq_ok.1 h).symm⟩
      all_goals first | cases hgroup | exact absurd h throw_ne_ok
    | nullity =>
      dsimp only at h
      split at h
      all_goals first | cases hgroup | exact absurd h throw_ne_ok
    | _ => cases hop
  unfold applyOperator at h
  split at h
  · obtain rfl := Except.ok.inj h
    unfold conjunction
    split
    · exact .inr ⟨_, rfl⟩
    · split
      · exact .inl rfl
      · exact .inr ⟨_, rfl⟩
  · obtain rfl := Except.ok.inj h
    unfold disjunctionOf
    split
    · exact .inr ⟨_, rfl⟩
    · split
      · exact .inl rfl
      · exact .inr ⟨_, rfl⟩
  · exact .inr ⟨_, (Except.ok.inj h).symm⟩
  · exact .inr ⟨_, (Except.ok.inj h).symm⟩
  · split at h
    · exact .inl (Except.ok.inj h).symm
    · exact present h

namespace FeaturePlan

theorem rowWise_three_valued {op : Operator} (hop : op.tests = true) {xs : List FeaturePlan}
    {k : Kind} (hk : op.group = .cast → k = .primitive .boolean) {b : Batch} {vs : List Value}
    (h : (rowWise op xs k).values b = .ok vs) : ThreeValued b vs := by
  obtain ⟨columns, -, h⟩ := bind_eq_ok.1 h
  have rows := mapM_eq_ok h
  refine ⟨rows.length_eq.symm.trans List.length_range, ?_⟩
  exact forall_right_of_forall₂ (fun i v hv => applyOperator_truth hop hk hv) rows

/-- **The column of a predicate is three-valued** if the Boolean columns that it reads are. -/
theorem three_valued {sources : KeyedMap Source SourcePlan} {P : KeyedMap Source SourcePlan → Prop}
    {m : List (String × FeaturePlan)}
    (stems : ∀ k x, Remembers m k x → Stems (backend sources .empty) P m k x) {b : Batch} :
    ∀ p : Feature, p.Built → p.Obeys .distinct → p.kind.isBoolean = true → b.Suits p →
      ∀ x, Remembers m p.key x → ∀ vs, x.values b = .ok vs → ThreeValued b vs := by
  refine Feature.childInduction fun p ih built distinct boolean suits x hx vs hvs => ?_
  have stem := stems _ _ hx
  cases p with
  | aliased f n =>
    obtain ⟨y, hy, rfl⟩ := stem.aliased distinct
    have child : f ∈ (Feature.aliased f n).children := by simp [Feature.children]
    exact ih f child built.inv_aliased.1 (distinct.children f child) boolean (suits.child child) y hy
      vs hvs
  | literal v k =>
    obtain ⟨w, same, hw⟩ := stem.literal distinct
    obtain rfl : k = .primitive .boolean := Kind.eq_of_isBoolean boolean
    obtain ⟨u, hu⟩ := built.inv_literal
    obtain rfl : v = .bool u.truth := (Except.ok.inj hu).symm
    obtain rfl : w = .bool u.truth := by
      cases w <;> simp_all [Value.canonical]
    obtain rfl := Except.ok.inj hw
    obtain rfl := Except.ok.inj hvs
    exact ⟨List.length_replicate, fun v hv => .inr ⟨_, List.eq_of_mem_replicate hv⟩⟩
  | element s n k =>
    obtain ⟨u, l, o, hkey, -, -, hx⟩ := stem.element distinct
    refine suits (.element s n k) (by simp [Feature.elements]) boolean u n l hkey vs ?_
    unfold Backend.elementSymbol at hx
    obtain ⟨y, -, rfl⟩ := map_eq_ok.1 hx
    exact hvs
  | expression op args t =>
    obtain ⟨xs, ks, y, -, hy, rfl⟩ := stem.expression distinct
    have tests := built.tests boolean
    obtain rfl := Except.ok.inj hy
    have row : FeaturePlan.expression op xs (op.resultKind ks t)
        = rowWise op xs (op.resultKind ks t) := by
      unfold FeaturePlan.expression
      rw [if_neg]
      intro aggregates
      simp only [Operator.aggregates, beq_iff_eq] at aggregates
      simp [Operator.tests, aggregates] at tests
    have hvs : (FeaturePlan.expression op xs (op.resultKind ks t)).values b = .ok vs := hvs
    rw [row] at hvs
    refine rowWise_three_valued tests (fun cast => ?_) hvs
    have target : (Feature.expression op args t).kind = op.resultKind ks t := by
      simp only [Feature.kind, Operator.resultKind, cast]
    exact target ▸ Kind.eq_of_isBoolean boolean
  | window fn ps os fr => simp [built.window_kind] at boolean

/-! ### Connectives -/

/-- The plan has values on the batch. -/
def Evaluates (x : FeaturePlan) (b : Batch) : Prop := ∃ vs, x.values b = .ok vs

/-- The plan has values on the batch, and the one at the position is true. -/
def Holds (x : FeaturePlan) (b : Batch) (i : Nat) : Prop :=
  ∃ vs, x.values b = .ok vs ∧ (Dataset.item vs i).isBool true = true

/-- What a connective gives for the values of its sides. -/
def connective (op : Operator) (args : List Value) : Value :=
  if op = .and then conjunction args else disjunctionOf args

theorem applyOperator_connective {op : Operator} (hop : op ∈ connectives) (args : List Value)
    (k : Kind) : applyOperator op args k = .ok (connective op args) := by
  simp only [connectives, List.mem_cons, List.not_mem_nil, or_false] at hop
  rcases hop with rfl | rfl <;> rfl

/-- A connective has the values that it gives for those of its sides, row by row. -/
theorem rowWise_values {op : Operator} (hop : op ∈ connectives) (x y : FeaturePlan) (k : Kind)
    (b : Batch) (vs : List Value) :
    (rowWise op [x, y] k).values b = .ok vs ↔ ∃ us ws, x.values b = .ok us ∧ y.values b = .ok ws ∧
      vs = (List.range b.size).map fun i =>
        connective op [Dataset.item us i, Dataset.item ws i] := by
  have rows : ∀ (f : Nat → Value) (is : List Nat),
      is.mapM (fun i => (.ok (f i) : Except Fault Value)) = .ok (is.map f) := by
    intro f is
    induction is with
    | nil => rfl
    | cons i r ih => simp [List.mapM_cons, ih]
  simp only [rowWise, List.mapM_cons, List.mapM_nil, applyOperator_connective hop, rows,
    bind_eq_ok, pure_eq_ok, Except.ok.injEq]
  constructor
  · rintro ⟨_, ⟨us, hx, _, ⟨ws, hy, _, rfl, rfl⟩, rfl⟩, rfl⟩
    exact ⟨us, ws, hx, hy, rfl⟩
  · rintro ⟨us, ws, hx, hy, rfl⟩
    exact ⟨[us, ws], ⟨us, hx, [ws], ⟨ws, hy, [], rfl, rfl⟩, rfl⟩, rfl⟩

theorem rowWise_evaluates {op : Operator} (hop : op ∈ connectives) (x y : FeaturePlan) (k : Kind)
    (b : Batch) :
    (rowWise op [x, y] k).Evaluates b ↔ x.Evaluates b ∧ y.Evaluates b := by
  simp only [Evaluates, rowWise_values hop]
  constructor
  · rintro ⟨_, us, ws, hx, hy, _⟩
    exact ⟨⟨us, hx⟩, ⟨ws, hy⟩⟩
  · rintro ⟨⟨us, hx⟩, ⟨ws, hy⟩⟩
    exact ⟨_, us, ws, hx, hy, rfl⟩

/-- A connective is true of a row if it is so for the values of its sides. -/
theorem rowWise_holds {op : Operator} (hop : op ∈ connectives) (x y : FeaturePlan) (k : Kind)
    (b : Batch) (i : Nat) :
    (rowWise op [x, y] k).Holds b i ↔ i < b.size ∧ ∃ us ws, x.values b = .ok us ∧
      y.values b = .ok ws ∧
      (connective op [Dataset.item us i, Dataset.item ws i]).isBool true = true := by
  have item : ∀ f : Nat → Value,
      (Dataset.item ((List.range b.size).map f) i).isBool true = true ↔
        i < b.size ∧ (f i).isBool true = true := by
    intro f
    by_cases hi : i < b.size
    · simp [Dataset.item, List.getD, hi]
    · simp [Dataset.item, List.getD, hi, Value.isBool]
  constructor
  · rintro ⟨_, hvs, hi⟩
    obtain ⟨us, ws, hx, hy, rfl⟩ := (rowWise_values hop x y k b _).1 hvs
    obtain ⟨hi, holds⟩ := (item _).1 hi
    exact ⟨hi, us, ws, hx, hy, holds⟩
  · rintro ⟨hi, us, ws, hx, hy, holds⟩
    exact ⟨_, (rowWise_values hop x y k b _).2 ⟨us, ws, hx, hy, rfl⟩, (item _).2 ⟨hi, holds⟩⟩

/-- A conjunction of truth values is true only if both are. -/
theorem and_isTrue {v w : Value} (hv : Truth v) (hw : Truth w)
    (h : (connective .and [v, w]).isBool true = true) :
    v.isBool true = true ∧ w.isBool true = true := by
  rcases hv with rfl | ⟨_ | _, rfl⟩ <;> rcases hw with rfl | ⟨_ | _, rfl⟩ <;> revert h <;> decide

theorem eq_of_isTrue {v : Value} (h : v.isBool true = true) : v = .bool true := by
  cases v with
  | bool t => simpa [Value.isBool] using h
  | _ => cases h

/-- A disjunction is true if one side is, whatever the values are. -/
theorem or_isTrue (v w : Value) :
    (connective .or [v, w]).isBool true = true ↔ v.isBool true = true ∨ w.isBool true = true := by
  simp only [connective, reduceCtorEq, if_false, disjunctionOf, List.any_cons, List.any_nil,
    Bool.or_false, Bool.or_eq_true]
  by_cases h : v.isBool true = true ∨ w.isBool true = true
  · simp only [h, if_true, iff_true]
    rfl
  · simp only [h, if_false, iff_false]
    split <;> simp [Value.isBool]

/-- **Where a conjunction of three-valued columns is true, both sides are.** -/
theorem sides_hold {x y : FeaturePlan} {k : Kind} {b : Batch} {i : Nat}
    (hx : ∀ vs, x.values b = .ok vs → ThreeValued b vs)
    (hy : ∀ vs, y.values b = .ok vs → ThreeValued b vs) (h : (rowWise .and [x, y] k).Holds b i) :
    i < b.size ∧ x.Holds b i ∧ y.Holds b i := by
  obtain ⟨hi, us, ws, hus, hws, holds⟩ := (rowWise_holds (by decide) x y k b i).1 h
  obtain ⟨hu, hw⟩ := and_isTrue ((hx us hus).item hi) ((hy ws hws).item hi) holds
  exact ⟨hi, ⟨us, hus, hu⟩, ws, hws, hw⟩

/-- Where both sides are true, so is their conjunction. -/
theorem and_holds {x y : FeaturePlan} (k : Kind) {b : Batch} {i : Nat} (hi : i < b.size)
    (hx : x.Holds b i) (hy : y.Holds b i) : (rowWise .and [x, y] k).Holds b i := by
  obtain ⟨us, hus, hu⟩ := hx
  obtain ⟨ws, hws, hw⟩ := hy
  refine (rowWise_holds (by decide) x y k b i).2 ⟨hi, us, ws, hus, hws, ?_⟩
  rw [eq_of_isTrue hu, eq_of_isTrue hw]
  rfl

/-- **A disjunction is true of the rows of which one side is**, if both sides have values. -/
theorem or_holds (x y : FeaturePlan) (k : Kind) (b : Batch) (i : Nat) :
    (rowWise .or [x, y] k).Holds b i ↔
      i < b.size ∧ x.Evaluates b ∧ y.Evaluates b ∧ (x.Holds b i ∨ y.Holds b i) := by
  rw [rowWise_holds (by decide)]
  constructor
  · rintro ⟨hi, us, ws, hus, hws, holds⟩
    exact ⟨hi, ⟨us, hus⟩, ⟨ws, hws⟩, ((or_isTrue _ _).1 holds).imp (fun h => ⟨us, hus, h⟩)
      fun h => ⟨ws, hws, h⟩⟩
  · rintro ⟨hi, ⟨us, hus⟩, ⟨ws, hws⟩, holds⟩
    refine ⟨hi, us, ws, hus, hws, (or_isTrue _ _).2 (holds.imp ?_ ?_)⟩
    · rintro ⟨us', hus', h⟩
      exact Except.ok.inj (hus.symm.trans hus') ▸ h
    · rintro ⟨ws', hws', h⟩
      exact Except.ok.inj (hws.symm.trans hws') ▸ h

end FeaturePlan

end Evaluation

end QueryAlgebra
