import QueryAlgebra.Source.Build
import Mathlib.Data.List.Forall2

/-!
# Trees that the constructors give

Every feature and every source of a query comes out of a constructor, which checks its parts.

* `Feature.Built`, `Operand.Built`, `OrderTerm.Built`, `OrderSpec.Built`, `Clauses.Built`,
  `Source.Built`: what a chain of successful constructor calls can give.
* `Feature.Built.bare`: the feature under an alias is built and has no alias of its own.
* `Feature.Built.inv_…`, `Source.Built.inv_…`: what the constructors have checked, node by node.
-/

namespace QueryAlgebra

mutual

/-- A feature that the constructors give. -/
inductive Feature.Built : Feature → Prop where
  | literal {v : Value} {k? : Option Kind} {f : Feature} :
      Feature.literalOf v k? = .ok f → Feature.Built f
  | element {s : Source} {name : String} {f : Feature} :
      Source.Built s → s.get name = .ok f → Feature.Built f
  | aliased {o : Operand} {name : String} {f : Feature} :
      Operand.Built o → Feature.aliasOf o name = .ok f → Feature.Built f
  | expression {op : Operator} {args : List Operand} {t : Option Kind} {f : Feature} :
      (∀ o ∈ args, Operand.Built o) → Feature.expr op args t = .ok f → Feature.Built f
  | window {fn : Feature} {ps : List Operand} {os : List OrderSpec} {fr : Option Frame}
      {f : Feature} : Feature.Built fn → (∀ o ∈ ps, Operand.Built o) →
      (∀ o ∈ os, OrderSpec.Built o) → Feature.windowOf fn ps os fr = .ok f → Feature.Built f

/-- An operand whose feature, if it is one, is built. -/
inductive Operand.Built : Operand → Prop where
  | feature {f : Feature} : Feature.Built f → Operand.Built (.feature f)
  | value (v : Value) : Operand.Built (.value v)

/-- An ordering by a feature that is built. -/
inductive OrderTerm.Built : OrderTerm → Prop where
  | by {f : Feature} (d : Direction) : Feature.Built f → OrderTerm.Built (.by f d)

/-- What an ordering is written with, all features in it built. -/
inductive OrderSpec.Built : OrderSpec → Prop where
  | term {o : OrderTerm} : OrderTerm.Built o → OrderSpec.Built (.term o)
  | feature {f : Feature} : Feature.Built f → OrderSpec.Built (.feature f)
  | value (v : Value) : OrderSpec.Built (.value v)
  | pair {items : List Operand} : (∀ o ∈ items, Operand.Built o) → OrderSpec.Built (.pair items)

/-- Clauses that hold features that are built. -/
inductive Clauses.Built : Clauses → Prop where
  | mk {c : Clauses} : (∀ o ∈ c.selection, Operand.Built o) → (∀ o ∈ c.prefilter, Operand.Built o) →
      (∀ o ∈ c.grouping, Operand.Built o) → (∀ o ∈ c.postfilter, Operand.Built o) →
      (∀ o ∈ c.ordering, OrderSpec.Built o) → Clauses.Built c

/-- A source that the constructors give. The fields of a table have distinct names. -/
inductive Source.Built : Source → Prop where
  | table {name : String} {entries : List (String × NamedField)} {schema : Schema} :
      Schema.ofEntries name entries = .ok schema → Source.Built (.table schema)
  | ref {s : Source} (name : String) : Source.Built s → Source.Built (s.ref name)
  | joined {l r s : Source} {c : Option Operand} {k : Option JoinType} : Source.Built l →
      Source.Built r → (∀ o ∈ c, Operand.Built o) → Source.joined l r c k = .ok s → Source.Built s
  | combined {l r s : Source} {k : SetOp} : Source.Built l → Source.Built r →
      Source.combined l r k = .ok s → Source.Built s
  | query {s q : Source} {c : Clauses} : Source.Built s → Clauses.Built c →
      s.queryOf c = .ok q → Source.Built q

end

/-- A table is built when the names of its fields are distinct. -/
theorem Source.Built.of_distinct {schema : Schema}
    (h : Kind.firstRepeated [] (schema.entries.map (·.2.name)) = none) :
    (Source.table schema).Built :=
  .table (show Schema.ofEntries schema.name schema.entries = .ok schema by
    simp [Schema.ofEntries, h])

/-! ### What successful calls give -/

@[simp]
theorem bind_eq_ok {α β : Type} {x : Except Fault α} {f : α → Except Fault β} {b : β} :
    x >>= f = .ok b ↔ ∃ a, x = .ok a ∧ f a = .ok b := by
  cases x <;> simp [bind, Except.bind]

@[simp]
theorem map_eq_ok {α β : Type} {x : Except Fault α} {f : α → β} {b : β} :
    f <$> x = .ok b ↔ ∃ a, x = .ok a ∧ f a = b := by
  cases x <;> simp [Functor.map, Except.map]

@[simp]
theorem pure_eq_ok {α : Type} {a b : α} : (pure a : Except Fault α) = .ok b ↔ a = b := by
  simp [pure, Except.pure]

@[simp]
theorem throw_ne_ok {α : Type} {e : Fault} {b : α} : (throw e : Except Fault α) ≠ .ok b := by
  simp [throw, throwThe, MonadExceptOf.throw]

theorem Kind.refuse_ne_ok {α : Type} {k : Kind} {v : Value} {a : α} : k.refuse v ≠ .ok a := by
  intro h
  obtain ⟨_, _, h⟩ := bind_eq_ok.1 h
  exact absurd h throw_ne_ok

theorem mapM_eq_ok {α β : Type} {f : α → Except Fault β} :
    ∀ {as : List α} {bs : List β}, as.mapM f = .ok bs → List.Forall₂ (fun a b => f a = .ok b) as bs
  | [], bs, h => by
    obtain rfl : [] = bs := by simpa using h
    exact .nil
  | a :: as, bs, h => by
    rw [List.mapM_cons] at h
    obtain ⟨b, hb, r, hr, rfl⟩ := by simpa using h
    exact .cons hb (mapM_eq_ok hr)

theorem mapM_of_forall₂ {α β : Type} {f : α → Except Fault β} {as : List α} {bs : List β}
    (h : List.Forall₂ (fun a b => f a = .ok b) as bs) : as.mapM f = .ok bs := by
  induction h with
  | nil => rfl
  | cons first _ ih =>
    rw [List.mapM_cons, first, ih]
    rfl

theorem mapM_eq_ok_iff {α β : Type} {f : α → Except Fault β} {as : List α} {bs : List β} :
    as.mapM f = .ok bs ↔ List.Forall₂ (fun a b => f a = .ok b) as bs :=
  ⟨mapM_eq_ok, mapM_of_forall₂⟩

/-- The first fault of an item is that of the list. -/
theorem exists_mem_of_mapM_error {α β : Type} {f : α → Except Fault β} {e : Fault} :
    ∀ {as : List α}, as.mapM f = .error e → ∃ a ∈ as, f a = .error e
  | [], h => by cases h
  | a :: as, h => by
    rw [List.mapM_cons] at h
    cases first : f a with
    | error e' =>
      rw [first] at h
      exact ⟨a, by simp, by rw [first, Except.error.inj h]⟩
    | ok b =>
      cases rest : as.mapM f with
      | error e' =>
        rw [first, rest] at h
        obtain ⟨c, hc, refused⟩ := exists_mem_of_mapM_error rest
        exact ⟨c, by simp [hc], by rw [refused, Except.error.inj h]⟩
      | ok bs =>
        rw [first, rest] at h
        cases h

/-- A list of which every item has a result. -/
theorem exists_mapM_ok {α β : Type} {f : α → Except Fault β} :
    ∀ {as : List α}, (∀ a ∈ as, ∃ b, f a = .ok b) → ∃ bs, as.mapM f = .ok bs
  | [], _ => ⟨[], rfl⟩
  | a :: as, h => by
    obtain ⟨ha, hr⟩ := List.forall_mem_cons.1 h
    obtain ⟨b, hb⟩ := ha
    obtain ⟨bs, hbs⟩ := exists_mapM_ok hr
    exact ⟨b :: bs, by simp [List.mapM_cons, hb, hbs]⟩

theorem mapM_eq_map {α β : Type} {f : α → Except Fault β} {g : α → β} {as : List α}
    (h : ∀ a ∈ as, f a = .ok (g a)) : as.mapM f = .ok (as.map g) :=
  mapM_of_forall₂ (List.forall₂_map_right_iff.2 (List.forall₂_same.2 h))

theorem forM_eq_ok {α : Type} {f : α → Except Fault Unit} :
    ∀ {as : List α}, as.forM f = .ok () → ∀ a ∈ as, f a = .ok ()
  | [], _ => by simp
  | a :: as, h => by
    obtain ⟨_, ha, hr⟩ := bind_eq_ok.1 h
    exact List.forall_mem_cons.2 ⟨ha, forM_eq_ok hr⟩

theorem forM_ok {α : Type} {f : α → Except Fault Unit} :
    ∀ {as : List α}, (∀ a ∈ as, f a = .ok ()) → forM as f = .ok ()
  | [], _ => rfl
  | a :: as, h => by
    obtain ⟨ha, hr⟩ := List.forall_mem_cons.1 h
    exact bind_eq_ok.2 ⟨(), ha, forM_ok hr⟩

/-- Whatever a computation gives for each item, it gives for each result. -/
theorem forall_of_forall₂ {α β : Type} {R : α → β → Prop} {P : α → Prop} {Q : β → Prop}
    (h : ∀ a b, R a b → P a → Q b) {as : List α} {bs : List β} (hr : List.Forall₂ R as bs)
    (hp : ∀ a ∈ as, P a) : ∀ b ∈ bs, Q b := by
  induction hr with
  | nil => simp
  | cons hab _ ih =>
    exact List.forall_mem_cons.2
      ⟨h _ _ hab (hp _ (by simp)), ih fun a ha => hp a (by simp [ha])⟩

/-- What holds of every counterpart. -/
theorem forall_right_of_forall₂ {α β : Type} {R : α → β → Prop} {Q : β → Prop}
    (h : ∀ a b, R a b → Q b) {as : List α} {bs : List β} (hr : List.Forall₂ R as bs) :
    ∀ b ∈ bs, Q b :=
  forall_of_forall₂ (P := fun _ => True) (fun a b hab _ => h a b hab) hr fun _ _ => trivial

/-- Every item has a counterpart exactly if some list has all of them. -/
theorem exists_forall₂_iff {α β : Type} {R : α → β → Prop} :
    ∀ {as : List α}, (∃ bs, List.Forall₂ R as bs) ↔ ∀ a ∈ as, ∃ b, R a b
  | [] => by simp
  | a :: as => by
    rw [List.forall_mem_cons, ← exists_forall₂_iff]
    constructor
    · rintro ⟨_, _ | ⟨first, rest⟩⟩
      exact ⟨⟨_, first⟩, _, rest⟩
    · rintro ⟨⟨_, first⟩, _, rest⟩
      exact ⟨_, .cons first rest⟩

/-- Every item has a counterpart in the other list. -/
theorem exists_mem_of_forall₂ {α β : Type} {R : α → β → Prop} {as : List α} {bs : List β}
    (h : List.Forall₂ R as bs) : ∀ a ∈ as, ∃ b ∈ bs, R a b :=
  forall_of_forall₂ (R := flip R) (P := (· ∈ bs)) (fun b _ hab hb => ⟨b, hb, hab⟩)
    (List.Forall₂.flip (R := flip R) h) fun _ => id

/-- Where counterparts of different items are different, what holds of items in pairs holds of them. -/
theorem pairwise_of_forall₂ {α β : Type} {R : α → β → Prop} {P : α → α → Prop} {Q : β → β → Prop}
    (step : ∀ {a a' b b'}, R a b → R a' b' → P a a' → Q b b') {as : List α} {bs : List β}
    (h : List.Forall₂ R as bs) (apart : as.Pairwise P) : bs.Pairwise Q := by
  induction h with
  | nil => exact .nil
  | @cons a b as bs first rest ih =>
    obtain ⟨ahead, apart⟩ := List.pairwise_cons.1 apart
    refine List.pairwise_cons.2 ⟨?_, ih apart⟩
    exact forall_of_forall₂ (P := P a) (fun _ _ other far => step first other far) rest ahead

/-- Lists with the same images, in pairs. -/
theorem forall₂_of_map_eq {α β γ : Type} {f : α → γ} {g : β → γ} {R : α → β → Prop} :
    ∀ {as : List α} {bs : List β}, as.map f = bs.map g →
      (∀ a ∈ as, ∀ b ∈ bs, f a = g b → R a b) → List.Forall₂ R as bs
  | [], [], _, _ => .nil
  | a :: as, b :: bs, h, each => by
    obtain ⟨head, tail⟩ := List.cons.inj h
    exact .cons (each a (by simp) b (by simp) head)
      (forall₂_of_map_eq tail fun x hx y hy => each x (by simp [hx]) y (by simp [hy]))

namespace Feature

theorem literalOf_eq_ok {v : Value} {k? : Option Kind} {f : Feature} (h : literalOf v k? = .ok f) :
    ∃ w k, k.cast v = .ok w ∧ f = .literal w k := by
  cases k? with
  | some k =>
    obtain ⟨w, hw, rfl⟩ := by simpa [literalOf] using h
    exact ⟨w, k, hw, rfl⟩
  | none =>
    obtain ⟨k, _, w, hw, rfl⟩ := by simpa [literalOf] using h
    exact ⟨w, k, hw, rfl⟩

theorem aliasOf_eq_ok {o : Operand} {name : String} {f : Feature} (h : aliasOf o name = .ok f) :
    ∃ g, o.bare = .ok g ∧ f = .aliased g name := by
  obtain ⟨g, hg, rfl⟩ := by simpa [aliasOf] using h
  exact ⟨g, hg, rfl⟩

theorem expr_eq_ok {op : Operator} {args : List Operand} {t : Option Kind} {f : Feature}
    (h : expr op args t = .ok f) :
    ∃ gs, args.mapM Operand.bare = .ok gs ∧ op.arity.1 ≤ gs.length ∧ gs.length ≤ op.arity.2 ∧
      op.check (gs.map kind) t (Feature.expression op gs t).text = .ok () ∧
      f = .expression op gs t := by
  unfold expr at h
  obtain ⟨gs, hgs, h⟩ := bind_eq_ok.1 h
  dsimp only at h
  split at h
  · simp at h
  · rename_i harity
    obtain ⟨⟨_, hcheck⟩, rfl⟩ := by simpa using h
    exact ⟨gs, hgs, by omega, by omega, hcheck, rfl⟩

theorem windowOf_eq_ok {fn : Feature} {ps : List Operand} {os : List OrderSpec}
    {fr : Option Frame} {f : Feature} (h : windowOf fn ps os fr = .ok f) :
    fn.aggregates = true ∧ ∃ gs ts, ps.mapM Operand.bare = .ok gs ∧ OrderTerm.make os = .ok ts ∧
      f = .window fn gs ts fr := by
  by_cases hagg : fn.aggregates = true
  · cases fr with
    | none =>
      obtain ⟨gs, hgs, ts, hts, rfl⟩ := by simpa [windowOf, hagg] using h
      exact ⟨hagg, gs, ts, hgs, hts, rfl⟩
    | some fr =>
      obtain ⟨gs, hgs, ts, hts, _, rfl⟩ := by simpa [windowOf, hagg] using h
      exact ⟨hagg, gs, ts, hgs, hts, rfl⟩
  · simp [windowOf, hagg] at h

end Feature

theorem Source.get_eq_ok {s : Source} {name : String} {f : Feature} (h : s.get name = .ok f) :
    ∃ g, s.schema.get name = .ok g ∧ f = .element s g.name g.kind := by
  obtain ⟨g, hg, rfl⟩ := by simpa [get] using h
  exact ⟨g, hg, rfl⟩

/-- A feature that is not refused has no aggregates and no windows inside. -/
theorem Feature.refuseCollective_eq_ok {f : Feature} (h : f.refuseCollective = .ok ()) :
    f.hasCollective = false := by
  unfold refuseCollective at h
  split at h
  · cases h
  · exact Bool.eq_false_iff.2 ‹_›

/-- The checks of a feature that stays within the features of a source. -/
def Feature.Within (f : Feature) (superset : KeyedSet Feature) : Prop :=
  (elementsIn [f]).subset superset = true

instance (f : Feature) (superset : KeyedSet Feature) : Decidable (f.Within superset) :=
  inferInstanceAs (Decidable (_ = true))

theorem Feature.requireWithin_eq_ok {superset : KeyedSet Feature} {owner : String} {f : Feature}
    (h : f.requireWithin superset owner = .ok ()) : f.Within superset := by
  unfold requireWithin at h
  split at h
  · assumption
  · simp at h

theorem Kind.eq_of_isBoolean {k : Kind} (h : k.isBoolean = true) : k = .primitive .boolean := by
  unfold isBoolean at h
  split at h
  · rfl
  · cases h

theorem Feature.asPredicate_eq_ok {f g : Feature} (h : f.asPredicate = .ok g) :
    f.kind.isBoolean = true ∧ g = f.bare := by
  unfold asPredicate at h
  split at h
  · exact ⟨‹_›, (Except.ok.inj h).symm⟩
  · simp at h

/-- What a filter has passed: it is a predicate without its alias, and stays within a source. -/
theorem filterOf_eq_ok {check : Feature → Except Fault Unit} {superset : KeyedSet Feature}
    {owner : String} {o? : Option Operand} {p? : Option Feature}
    (h : filterOf check superset owner o? = .ok p?) :
    ∀ p ∈ p?, ∃ o ∈ o?, ∃ f, o.whole = .ok f ∧ f.kind.isBoolean = true ∧ p = f.bare ∧
      check p = .ok () ∧ p.Within superset := by
  cases o? with
  | none =>
    obtain rfl : none = p? := by simpa [filterOf] using h
    simp
  | some o =>
    obtain ⟨f, hf, g, hg, ⟨_, hcheck⟩, ⟨_, hwithin⟩, rfl⟩ := by simpa [filterOf] using h
    obtain ⟨hbool, rfl⟩ := Feature.asPredicate_eq_ok hg
    rintro p ⟨⟩
    exact ⟨o, rfl, f, hf, hbool, rfl, hcheck, Feature.requireWithin_eq_ok hwithin⟩

namespace Source

/-- What a join has passed. -/
theorem joined_eq_ok {l r s : Source} {c? : Option Operand} {k? : Option JoinType}
    (h : joined l r c? k? = .ok s) :
    ∃ k p?, s = .join l r k p? ∧ (p? = none ↔ k = .cross) ∧
      ∀ p ∈ p?, ∃ o ∈ c?, ∃ f, o.whole = .ok f ∧ f.kind.isBoolean = true ∧ p = f.bare ∧
        p.refuseCollective = .ok () ∧ p.Within (elementsIn (l.features ++ r.features)) := by
  cases c? with
  | none =>
    by_cases hk : k?.getD .cross = .cross
    · obtain rfl : Source.join l r .cross none = s := by simpa [joined, hk] using h
      exact ⟨.cross, none, rfl, by simp, by simp⟩
    · simp [joined, hk] at h
  | some o =>
    by_cases hk : k?.getD .inner = .cross
    · simp [joined, hk] at h
    · obtain ⟨f, hf, g, hg, ⟨_, hcoll⟩, ⟨_, hwithin⟩, rfl⟩ := by simpa [joined, hk] using h
      obtain ⟨hbool, rfl⟩ := Feature.asPredicate_eq_ok hg
      refine ⟨_, some f.bare, rfl, by simp [hk], ?_⟩
      rintro p ⟨⟩
      exact ⟨o, rfl, f, hf, hbool, rfl, hcoll, Feature.requireWithin_eq_ok hwithin⟩

/-- What a set operation has passed. -/
theorem combined_eq_ok {l r s : Source} {k : SetOp} (h : combined l r k = .ok s) :
    ∃ l' r', l.statement = .ok l' ∧ r.statement = .ok r' ∧ l'.schema.same r'.schema = true ∧
      s = .set l' r' k := by
  unfold combined at h
  obtain ⟨l', hl, h⟩ := bind_eq_ok.1 h
  obtain ⟨r', hr, h⟩ := bind_eq_ok.1 h
  dsimp only at h
  split at h
  · obtain rfl := by simpa using h
    exact ⟨l', r', hl, hr, ‹_›, rfl⟩
  · simp at h

/-- What the last clauses of a statement have passed. -/
theorem lastClauses_eq_ok {s q : Source} {c : Clauses} {sel grp : List Feature}
    {pre : Option Feature}
    (h : (do
      let post ← filterOf Feature.refuseWindow (elementsIn s.features) s.text c.postfilter
      let ord ← OrderTerm.make c.ordering
      (ord.map OrderTerm.feature).forM (Feature.requireWithin (elementsIn s.features) s.text)
      let rows ← match c.rows with
        | some l => some <$> l.toRange s.text
        | none   => pure none
      return Source.query s sel pre grp post ord rows : Except Fault Source) = .ok q) :
    ∃ post ord rows, q = .query s sel pre grp post ord rows ∧
      filterOf Feature.refuseWindow (elementsIn s.features) s.text c.postfilter = .ok post ∧
      OrderTerm.make c.ordering = .ok ord ∧
      (∀ f ∈ ord.map OrderTerm.feature, f.Within (elementsIn s.features)) ∧
      c.rows.mapM (Limit.toRange · s.text) = .ok rows := by
  obtain ⟨post, hpost, h⟩ := bind_eq_ok.1 h
  obtain ⟨ord, hord, h⟩ := bind_eq_ok.1 h
  obtain ⟨_, hordin, h⟩ := bind_eq_ok.1 h
  have hwithin : ∀ f ∈ ord.map OrderTerm.feature, f.Within (elementsIn s.features) := fun f hf =>
    Feature.requireWithin_eq_ok (forM_eq_ok hordin f hf)
  cases hc : c.rows with
  | none =>
    obtain rfl : Source.query s sel pre grp post ord none = q := by simpa [hc] using h
    exact ⟨post, ord, none, rfl, hpost, hord, hwithin, rfl⟩
  | some l =>
    obtain ⟨r, hr, rfl⟩ := by simpa [hc] using h
    exact ⟨post, ord, some r, rfl, hpost, hord, hwithin, congrArg (Functor.map some) hr⟩

/-- What a statement has passed. -/
theorem queryOf_eq_ok {s q : Source} {c : Clauses} (h : s.queryOf c = .ok q) :
    ∃ sel pre grp post ord rows, q = .query s sel pre grp post ord rows ∧
      c.selection.mapM Operand.whole = .ok sel ∧
      (∀ f ∈ sel, f.Within (elementsIn s.features)) ∧
      filterOf Feature.refuseCollective (elementsIn s.features) s.text c.prefilter = .ok pre ∧
      c.grouping.mapM Operand.bare = .ok grp ∧
      (∀ f ∈ grp, f.refuseCollective = .ok ()) ∧
      (∀ f ∈ grp, f.Within (elementsIn s.features)) ∧
      (grp ≠ [] → ensureGrouped grp (if sel.isEmpty then s.features else sel) = .ok ()) ∧
      filterOf Feature.refuseWindow (elementsIn s.features) s.text c.postfilter = .ok post ∧
      OrderTerm.make c.ordering = .ok ord ∧
      (∀ f ∈ ord.map OrderTerm.feature, f.Within (elementsIn s.features)) ∧
      c.rows.mapM (Limit.toRange · s.text) = .ok rows := by
  unfold queryOf at h
  obtain ⟨sel, hsel, h⟩ := bind_eq_ok.1 h
  obtain ⟨_, hselin, h⟩ := bind_eq_ok.1 h
  obtain ⟨pre, hpre, h⟩ := bind_eq_ok.1 h
  obtain ⟨grp, hgrp, h⟩ := bind_eq_ok.1 h
  obtain ⟨_, hgrpcoll, h⟩ := bind_eq_ok.1 h
  obtain ⟨_, hgrpin, h⟩ := bind_eq_ok.1 h
  have hrest : (grp ≠ [] → ensureGrouped grp (if sel.isEmpty then s.features else sel) = .ok ()) ∧
      ∃ post ord rows, q = .query s sel pre grp post ord rows ∧
        filterOf Feature.refuseWindow (elementsIn s.features) s.text c.postfilter = .ok post ∧
        OrderTerm.make c.ordering = .ok ord ∧
        (∀ f ∈ ord.map OrderTerm.feature, f.Within (elementsIn s.features)) ∧
        c.rows.mapM (Limit.toRange · s.text) = .ok rows := by
    dsimp only at h
    split at h
    · rename_i hempty
      exact ⟨fun hne => absurd (List.isEmpty_iff.1 hempty) hne, lastClauses_eq_ok h⟩
    · obtain ⟨_, hgrouped, h⟩ := bind_eq_ok.1 h
      exact ⟨fun _ => hgrouped, lastClauses_eq_ok h⟩
  obtain ⟨hgrouped, post, ord, rows, rfl, hpost, hord, hordin, hrows⟩ := hrest
  exact ⟨sel, pre, grp, post, ord, rows, rfl, hsel,
    fun f hf => Feature.requireWithin_eq_ok (forM_eq_ok hselin f hf), hpre, hgrp,
    forM_eq_ok hgrpcoll, fun f hf => Feature.requireWithin_eq_ok (forM_eq_ok hgrpin f hf),
    hgrouped, hpost, hord, hordin, hrows⟩

end Source

/-! ### Features under aliases -/

/-- **The feature under an alias is built**, and has no alias of its own. -/
theorem Feature.Built.bare : ∀ {f : Feature}, f.Built → f.bare.Built ∧ f.bare.bare = f.bare
  | _, .literal h => by
    obtain ⟨w, k, _, rfl⟩ := literalOf_eq_ok h
    exact ⟨.literal h, rfl⟩
  | _, .element hs h => by
    obtain ⟨g, _, rfl⟩ := Source.get_eq_ok h
    exact ⟨.element hs h, rfl⟩
  | _, .aliased (.feature hf) h => by
    obtain ⟨g, hg, rfl⟩ := aliasOf_eq_ok h
    obtain rfl : _ = g := by simpa [Operand.bare] using hg
    have hbare := Feature.Built.bare hf
    exact hbare
  | _, .aliased (.value v) h => by
    obtain ⟨g, hg, rfl⟩ := aliasOf_eq_ok h
    have hg : literalOf v none = .ok g := hg
    obtain ⟨w, k, _, rfl⟩ := literalOf_eq_ok hg
    exact ⟨.literal hg, rfl⟩
  | _, .expression hargs h => by
    obtain ⟨gs, _, _, _, _, rfl⟩ := expr_eq_ok h
    exact ⟨.expression hargs h, rfl⟩
  | _, .window hfn hps hos h => by
    obtain ⟨_, gs, ts, _, _, rfl⟩ := windowOf_eq_ok h
    exact ⟨.window hfn hps hos h, rfl⟩

namespace Operand

theorem Built.bare_eq_ok {o : Operand} {f : Feature} (ho : o.Built) (h : o.bare = .ok f) :
    f.Built ∧ f.bare = f := by
  cases ho with
  | feature hf =>
    obtain rfl : _ = f := by simpa [Operand.bare] using h
    exact hf.bare
  | value v =>
    have h : Feature.literalOf v none = .ok f := h
    obtain ⟨w, k, _, rfl⟩ := Feature.literalOf_eq_ok h
    exact ⟨.literal h, rfl⟩

theorem Built.whole_eq_ok {o : Operand} {f : Feature} (ho : o.Built) (h : o.whole = .ok f) :
    f.Built := by
  cases ho with
  | feature hf =>
    obtain rfl : _ = f := by simpa [Operand.whole] using h
    exact hf
  | value v =>
    have h : Feature.literalOf v none = .ok f := h
    exact .literal h

theorem mapM_whole (fs : List Feature) : (fs.map Operand.feature).mapM Operand.whole = .ok fs := by
  induction fs with
  | nil => rfl
  | cons f r ih => simp [Operand.whole, ih]

end Operand

/-- An ordering that is read from built features orders by built features. -/
theorem OrderTerm.make_built :
    ∀ {specs : List OrderSpec} {ts : List OrderTerm}, (∀ o ∈ specs, o.Built) →
      OrderTerm.make specs = .ok ts → ∀ t ∈ ts, t.feature.Built := by
  intro specs
  induction specs using OrderTerm.make.induct with
  | case1 =>
    intro ts _ h
    obtain rfl : [] = ts := by simpa [make] using h
    simp
  | case2 o r ih =>
    intro ts hb h
    obtain ⟨us, hus, rfl⟩ := by simpa [make] using h
    obtain ⟨ho, hr⟩ := List.forall_mem_cons.1 hb
    cases ho with
    | term ht => cases ht with
      | «by» d hf => exact List.forall_mem_cons.2 ⟨hf, ih hr hus⟩
  | case3 f token r ih =>
    intro ts hb h
    obtain ⟨d, hd, us, hus, rfl⟩ := by simpa [make] using h
    obtain ⟨hf, hr⟩ := List.forall_mem_cons.1 hb
    cases hf with
    | feature hf =>
      exact List.forall_mem_cons.2 ⟨hf.bare.1, ih (List.forall_mem_cons.1 hr).2 hus⟩
  | case4 f r hno ih =>
    intro ts hb h
    obtain ⟨hf, hr⟩ := List.forall_mem_cons.1 hb
    rw [make.eq_4 f r hno] at h
    obtain ⟨us, hus, rfl⟩ := by simpa using h
    cases hf with
    | feature hf => exact List.forall_mem_cons.2 ⟨hf.bare.1, ih hr hus⟩
  | case5 f token r ih =>
    intro ts hb h
    obtain ⟨d, hd, us, hus, rfl⟩ := by simpa [make] using h
    obtain ⟨hf, hr⟩ := List.forall_mem_cons.1 hb
    cases hf with
    | pair hitems =>
      have hfirst := hitems (.feature f) (by simp)
      cases hfirst with
      | feature hf => exact List.forall_mem_cons.2 ⟨hf.bare.1, ih hr hus⟩
  | case6 spec r hterm htoken hfeature hpair =>
    intro ts _ h
    rw [make.eq_6 spec r hterm htoken hfeature hpair] at h
    simp at h

/-! ### What the constructors have checked -/

namespace Feature.Built

theorem forall_bare {os : List Operand} {fs : List Feature} (hos : ∀ o ∈ os, o.Built)
    (h : os.mapM Operand.bare = .ok fs) : ∀ f ∈ fs, f.Built ∧ f.bare = f :=
  forall_of_forall₂ (fun _ _ hab ho => Operand.Built.bare_eq_ok ho hab) (mapM_eq_ok h) hos

theorem forall_whole {os : List Operand} {fs : List Feature} (hos : ∀ o ∈ os, o.Built)
    (h : os.mapM Operand.whole = .ok fs) : ∀ f ∈ fs, f.Built :=
  forall_of_forall₂ (fun _ _ hab ho => Operand.Built.whole_eq_ok ho hab) (mapM_eq_ok h) hos

theorem inv_aliased {f : Feature} {n : String} (h : (Feature.aliased f n).Built) :
    f.Built ∧ f.bare = f := h.bare

/-- The value of a literal was cast to its kind. -/
theorem inv_literal {w : Value} {k : Kind} (h : (Feature.literal w k).Built) :
    ∃ v, k.cast v = .ok w := by
  cases h with
  | literal h =>
    obtain ⟨_, _, hw, hf⟩ := literalOf_eq_ok h
    cases hf
    exact ⟨_, hw⟩
  | element _ h => obtain ⟨_, _, hf⟩ := Source.get_eq_ok h; cases hf
  | aliased _ h => obtain ⟨_, _, hf⟩ := aliasOf_eq_ok h; cases hf
  | expression _ h => obtain ⟨_, _, _, _, _, hf⟩ := expr_eq_ok h; cases hf
  | window _ _ _ h => obtain ⟨_, _, _, _, _, hf⟩ := windowOf_eq_ok h; cases hf

/-- An element is a field of the schema of its source. -/
theorem inv_element {s : Source} {n : String} {k : Kind} (h : (Feature.element s n k).Built) :
    s.Built ∧ ∃ reference, s.schema.get reference = .ok ⟨k, n⟩ := by
  cases h with
  | literal h => obtain ⟨_, _, _, hf⟩ := literalOf_eq_ok h; cases hf
  | element hs h =>
    obtain ⟨_, hg, hf⟩ := Source.get_eq_ok h
    cases hf
    exact ⟨hs, _, hg⟩
  | aliased _ h => obtain ⟨_, _, hf⟩ := aliasOf_eq_ok h; cases hf
  | expression _ h => obtain ⟨_, _, _, _, _, hf⟩ := expr_eq_ok h; cases hf
  | window _ _ _ h => obtain ⟨_, _, _, _, _, hf⟩ := windowOf_eq_ok h; cases hf

/-- The arguments of an expression have no aliases, as many as the operator takes, and kinds that
fit. -/
theorem inv_expression {op : Operator} {args : List Feature} {t : Option Kind}
    (h : (Feature.expression op args t).Built) :
    (∀ f ∈ args, f.Built ∧ f.bare = f) ∧ op.arity.1 ≤ args.length ∧ args.length ≤ op.arity.2 ∧
      op.check (args.map kind) t (Feature.expression op args t).text = .ok () := by
  cases h with
  | literal h => obtain ⟨_, _, _, hf⟩ := literalOf_eq_ok h; cases hf
  | element _ h => obtain ⟨_, _, hf⟩ := Source.get_eq_ok h; cases hf
  | aliased _ h => obtain ⟨_, _, hf⟩ := aliasOf_eq_ok h; cases hf
  | expression hargs h =>
    obtain ⟨gs, hgs, hmin, hmax, hcheck, hf⟩ := expr_eq_ok h
    cases hf
    exact ⟨forall_bare hargs hgs, hmin, hmax, hcheck⟩
  | window _ _ _ h => obtain ⟨_, _, _, _, _, hf⟩ := windowOf_eq_ok h; cases hf

/-- A window is an aggregate over a partition without aliases. -/
theorem inv_window {fn : Feature} {ps : List Feature} {os : List OrderTerm} {fr : Option Frame}
    (h : (Feature.window fn ps os fr).Built) :
    fn.Built ∧ fn.aggregates = true ∧ (∀ f ∈ ps, f.Built ∧ f.bare = f) ∧
      ∀ t ∈ os, t.feature.Built := by
  cases h with
  | literal h => obtain ⟨_, _, _, hf⟩ := literalOf_eq_ok h; cases hf
  | element _ h => obtain ⟨_, _, hf⟩ := Source.get_eq_ok h; cases hf
  | aliased _ h => obtain ⟨_, _, hf⟩ := aliasOf_eq_ok h; cases hf
  | expression _ h => obtain ⟨_, _, _, _, _, hf⟩ := expr_eq_ok h; cases hf
  | window hfn hps hos h =>
    obtain ⟨hagg, gs, ts, hgs, hts, hf⟩ := windowOf_eq_ok h
    cases hf
    exact ⟨hfn, hagg, forall_bare hps hgs, OrderTerm.make_built hos hts⟩

end Feature.Built

/-- The number of rows is built. -/
theorem built_count : (Feature.expression .count [] none).Built :=
  @Feature.Built.expression .count [] none _ nofun rfl

/-- An expression of a feature that is built. -/
theorem built_single {op : Operator} {f : Feature} {t : Option Kind} (hf : f.Built)
    (h : Feature.expr op [.feature f] t = .ok (.expression op [f] t)) :
    (Feature.expression op [f] t).Built := by
  refine .expression (fun o ho => ?_) h
  obtain rfl := List.mem_singleton.1 ho
  exact .feature hf

/-- An expression of two features that are built. -/
theorem built_pair {op : Operator} {f g : Feature} (hf : f.Built) (hg : g.Built)
    (h : Feature.expr op [.feature f, .feature g] none = .ok (.expression op [f, g] none)) :
    (Feature.expression op [f, g] none).Built := by
  refine .expression (fun o ho => ?_) h
  rcases List.mem_pair.1 ho with rfl | rfl
  · exact .feature hf
  · exact .feature hg

/-- What a predicate in the condition of a join or in a filter has passed. -/
structure Feature.Condition (p : Feature) (check : Feature → Except Fault Unit)
    (superset : KeyedSet Feature) : Prop where
  built   : p.Built
  bare    : p.bare = p
  boolean : p.kind.isBoolean = true
  checked : check p = .ok ()
  within  : p.Within superset

theorem Feature.kind_bare (f : Feature) : f.bare.kind = f.kind := by
  cases f <;> rfl

theorem Operand.Built.condition {o : Operand} {f p : Feature} {superset : KeyedSet Feature}
    {check : Feature → Except Fault Unit} (ho : o.Built) (hf : o.whole = .ok f)
    (hbool : f.kind.isBoolean = true) (hp : p = f.bare) (hcheck : check p = .ok ())
    (hwithin : p.Within superset) : p.Condition check superset := by
  subst hp
  have hbare := (ho.whole_eq_ok hf).bare
  exact ⟨hbare.1, hbare.2, by rw [Feature.kind_bare, hbool], hcheck, hwithin⟩

/-- What the clauses of a statement over a source have passed. -/
structure Source.Statement (s : Source) (sel : List Feature) (pre : Option Feature)
    (grp : List Feature) (post : Option Feature) (ord : List OrderTerm) (rows : Option RowRange) :
    Prop where
  source     : s.Built
  selection  : ∀ f ∈ sel, f.Built ∧ f.Within (elementsIn s.features)
  prefilter  : ∀ p ∈ pre, p.Condition Feature.refuseCollective (elementsIn s.features)
  grouping   : ∀ f ∈ grp, f.Built ∧ f.bare = f ∧ f.refuseCollective = .ok () ∧
    f.Within (elementsIn s.features)
  grouped    : grp ≠ [] → ensureGrouped grp (if sel.isEmpty then s.features else sel) = .ok ()
  postfilter : ∀ p ∈ post, p.Condition Feature.refuseWindow (elementsIn s.features)
  ordering   : ∀ t ∈ ord, t.feature.Built ∧ t.feature.Within (elementsIn s.features)
  rows       : ∀ r ∈ rows, ∃ l : Limit, l.toRange s.text = .ok r

namespace Source

theorem Statement.of_queryOf {s : Source} {c : Clauses} {sel : List Feature} {pre : Option Feature}
    {grp : List Feature} {post : Option Feature} {ord : List OrderTerm} {rows : Option RowRange}
    (hs : s.Built) (hc : c.Built) (h : s.queryOf c = .ok (.query s sel pre grp post ord rows)) :
    s.Statement sel pre grp post ord rows := by
  obtain ⟨_, _, _, _, _, _, hq, hsel, hselin, hpre, hgrp, hcoll, hgrpin, hgrouped, hpost, hord,
    hordin, hrows⟩ := queryOf_eq_ok h
  cases hq
  cases hc with
  | mk hselb hpreb hgrpb hpostb hordb =>
    have hgrpbuilt := Feature.Built.forall_bare hgrpb hgrp
    refine ⟨hs, fun f hf => ⟨Feature.Built.forall_whole hselb hsel f hf, hselin f hf⟩, ?_,
      fun f hf => ⟨(hgrpbuilt f hf).1, (hgrpbuilt f hf).2, hcoll f hf, hgrpin f hf⟩, hgrouped, ?_,
      fun t ht => ⟨OrderTerm.make_built hordb hord t ht, hordin _ (List.mem_map_of_mem ht)⟩, ?_⟩
    · intro p hp
      obtain ⟨o, ho, f, hf, hbool, hpf, hcheck, hwithin⟩ := filterOf_eq_ok hpre p hp
      exact (hpreb o ho).condition hf hbool hpf hcheck hwithin
    · intro p hp
      obtain ⟨o, ho, f, hf, hbool, hpf, hcheck, hwithin⟩ := filterOf_eq_ok hpost p hp
      exact (hpostb o ho).condition hf hbool hpf hcheck hwithin
    · rintro r ⟨⟩
      cases limit : c.rows with
      | none => rw [limit] at hrows; cases hrows
      | some l =>
        rw [limit] at hrows
        obtain ⟨_, hl, same⟩ := map_eq_ok.1 hrows
        exact ⟨l, Option.some.inj same ▸ hl⟩

theorem Clauses.empty_built : Clauses.empty.Built := by
  refine .mk ?_ ?_ ?_ ?_ ?_ <;> simp [Clauses.empty]

theorem Built.statement {s q : Source} (hs : s.Built) (h : s.statement = .ok q) : q.Built := by
  unfold Source.statement at h
  split at h
  · cases h; exact hs
  · exact .query hs Clauses.empty_built h

theorem type_of_statement {s q : Source} (h : s.statement = .ok q) : q.type = "Query" := by
  unfold Source.statement at h
  split at h
  · cases h; rfl
  · obtain ⟨_, _, _, _, _, _, rfl, _⟩ := queryOf_eq_ok h
    rfl

/-- **The source under a name is built**, and is no reference itself. -/
theorem Built.unwrapped : ∀ {s : Source}, s.Built →
    s.unwrapped.Built ∧ s.unwrapped.unwrapped = s.unwrapped
  | _, .table h => ⟨.table h, rfl⟩
  | _, .ref n hs => by
    have hu := Built.unwrapped hs
    exact hu
  | _, .joined hl hr hc h => by
    obtain ⟨_, _, rfl, _⟩ := joined_eq_ok h
    exact ⟨.joined hl hr hc h, rfl⟩
  | _, .combined hl hr h => by
    obtain ⟨_, _, _, _, _, rfl⟩ := combined_eq_ok h
    exact ⟨.combined hl hr h, rfl⟩
  | _, .query hs hc h => by
    obtain ⟨_, _, _, _, _, _, rfl, _⟩ := queryOf_eq_ok h
    exact ⟨.query hs hc h, rfl⟩

namespace Built

/-- The fields of a table have distinct names. -/
theorem inv_table {schema : Schema} (h : (Source.table schema).Built) :
    Kind.firstRepeated [] (schema.entries.map (·.2.name)) = none := by
  cases h with
  | table h =>
    unfold Schema.ofEntries at h
    split at h
    · simp at h
    · cases h
      assumption
  | joined _ _ _ h => obtain ⟨_, _, hs, _⟩ := joined_eq_ok h; cases hs
  | combined _ _ h => obtain ⟨_, _, _, _, _, hs⟩ := combined_eq_ok h; cases hs
  | query _ _ h => obtain ⟨_, _, _, _, _, _, hs, _⟩ := queryOf_eq_ok h; cases hs

theorem inv_reference {s : Source} {n : String} (h : (Source.reference s n).Built) :
    s.Built ∧ s.unwrapped = s := h.unwrapped

/-- A join has a condition unless it is a cross join. -/
theorem inv_join {l r : Source} {k : JoinType} {c : Option Feature}
    (h : (Source.join l r k c).Built) :
    l.Built ∧ r.Built ∧ (c = none ↔ k = .cross) ∧
      ∀ p ∈ c, p.Condition Feature.refuseCollective (elementsIn (l.features ++ r.features)) := by
  cases h with
  | joined hl hr hc h =>
    obtain ⟨_, _, hs, hcross, hp⟩ := joined_eq_ok h
    cases hs
    refine ⟨hl, hr, hcross, fun p hmem => ?_⟩
    obtain ⟨o, ho, f, hf, hbool, hpf, hcheck, hwithin⟩ := hp p hmem
    exact (hc o ho).condition hf hbool hpf hcheck hwithin
  | combined _ _ h => obtain ⟨_, _, _, _, _, hs⟩ := combined_eq_ok h; cases hs
  | query _ _ h => obtain ⟨_, _, _, _, _, _, hs, _⟩ := queryOf_eq_ok h; cases hs

/-- The sides of a set operation have the same fields. -/
theorem inv_set {l r : Source} {k : SetOp} (h : (Source.set l r k).Built) :
    l.Built ∧ r.Built ∧ l.schema.same r.schema = true := by
  cases h with
  | joined _ _ _ h => obtain ⟨_, _, hs, _⟩ := joined_eq_ok h; cases hs
  | combined hl hr h =>
    obtain ⟨_, _, hl', hr', hsame, hs⟩ := combined_eq_ok h
    cases hs
    exact ⟨hl.statement hl', hr.statement hr', hsame⟩
  | query _ _ h => obtain ⟨_, _, _, _, _, _, hs, _⟩ := queryOf_eq_ok h; cases hs

/-- The sides of a set operation are statements that are no set operations themselves. -/
theorem inv_set_queries {l r : Source} {k : SetOp} (h : (Source.set l r k).Built) :
    l.type = "Query" ∧ r.type = "Query" := by
  cases h with
  | joined _ _ _ h => obtain ⟨_, _, hs, _⟩ := joined_eq_ok h; cases hs
  | combined _ _ h =>
    obtain ⟨_, _, hl, hr, _, hs⟩ := combined_eq_ok h
    cases hs
    exact ⟨type_of_statement hl, type_of_statement hr⟩
  | query _ _ h => obtain ⟨_, _, _, _, _, _, hs, _⟩ := queryOf_eq_ok h; cases hs

theorem inv_query {s : Source} {sel : List Feature} {pre : Option Feature} {grp : List Feature}
    {post : Option Feature} {ord : List OrderTerm} {rows : Option RowRange}
    (h : (Source.query s sel pre grp post ord rows).Built) :
    s.Statement sel pre grp post ord rows := by
  cases h with
  | joined _ _ _ h => obtain ⟨_, _, hs, _⟩ := joined_eq_ok h; cases hs
  | combined _ _ h => obtain ⟨_, _, _, _, _, hs⟩ := combined_eq_ok h; cases hs
  | query hs hc h =>
    obtain ⟨_, _, _, _, _, _, hq, _⟩ := queryOf_eq_ok h
    cases hq
    exact .of_queryOf hs hc h

/-- A statement can select whatever stays within what its source offers. -/
theorem selecting {s : Source} {fs : List Feature} (hs : s.Built) (hfs : ∀ f ∈ fs, f.Built)
    (within : ∀ f ∈ fs, f.Within (elementsIn s.features)) :
    (Source.query s fs none [] none [] none).Built := by
  have inside : forM fs (Feature.requireWithin (elementsIn s.features) s.text) = .ok () :=
    forM_ok fun f hf => if_pos (within f hf)
  have whole := Operand.mapM_whole fs
  refine .query (c := { Clauses.empty with selection := fs.map .feature }) hs
    (.mk (fun o ho => ?_) nofun nofun nofun nofun) ?_
  · obtain ⟨f, hf, rfl⟩ := List.mem_map.1 ho
    exact .feature (hfs f hf)
  · simp [Source.queryOf, whole, inside, Clauses.empty, filterOf, OrderTerm.make]

/-- Sources can be joined on a predicate that stays within what they offer. -/
theorem joining {l r : Source} {p : Feature} (hl : l.Built) (hr : r.Built) (hp : p.Built)
    (bare : p.bare = p) (boolean : p.kind.isBoolean = true) (single : p.hasCollective = false)
    (within : p.Within (elementsIn (l.features ++ r.features))) :
    (Source.join l r .inner (some p)).Built := by
  refine .joined (c := some (.feature p)) (k := none) hl hr ?_ ?_
  · rintro o ⟨⟩
    exact .feature hp
  · have inside : (elementsIn [p]).subset (elementsIn (l.features ++ r.features)) = true := within
    simp [Source.joined, Operand.whole, Feature.asPredicate, boolean, bare, Feature.refuseCollective,
      single, Feature.requireWithin, inside]

end Built

end Source

end QueryAlgebra
