import QueryAlgebra.Proofs.Tree.Directions
import QueryAlgebra.Proofs.Tree.Elements
import QueryAlgebra.Proofs.Tree.Revised

/-!
# The statements that are accepted

A statement is checked clause by clause when it is built. What is asked of its clauses can be said of
the trees alone, with no word of the sets and searches of the checks, and nothing more is asked. There is
one slip: the name of what every record knows is taken for a token of a direction.

* `Feature.Offered`, `Feature.Aggregated`: which elements a feature may read, and where aggregates
  count.
* `OrderTerm.Written`, `OrderTerm.make_eq_ok_iff`: how orderings are written; with the tokens of the
  two directions alone, unless a text is the name of what every record knows (`Written.proper`).
* `Value.IsCount`, `Limit.toRange_accepts`: the numbers of a row limit.
* `Source.Admits`: the clauses of a statement make sense over a source.
* `Source.queryOf_accepts`: the checks of a statement, one by one.
* `Source.accepted_iff_admits`: they pass exactly the statements that make sense, where these names
  are tokens.
-/

namespace QueryAlgebra

/-! ### Checks that are passed -/

/-- Two steps give a result if the first one does and the second one does on that. -/
theorem exists_bind_eq_ok {α β : Type} {x : Except Fault α} {next : α → Except Fault β} :
    (∃ b, x >>= next = .ok b) ↔ ∃ a, x = .ok a ∧ ∃ b, next a = .ok b := by
  cases x <;> simp

/-- A check that is passed gives nothing else. -/
theorem exists_check_eq_ok {x : Except Fault Unit} {P : Unit → Prop} :
    (∃ u, x = .ok u ∧ P u) ↔ x = .ok () ∧ P () := Unique.exists_iff

theorem forM_eq_ok_iff {α : Type} {check : α → Except Fault Unit} {as : List α} :
    forM as check = .ok () ↔ ∀ a ∈ as, check a = .ok () := ⟨forM_eq_ok, forM_ok⟩

/-! ### Features under aliases -/

namespace Feature

theorem elements_bare (f : Feature) : f.bare.elements = f.elements := by
  cases f <;> rfl

theorem Obeys.bare {p : Rules} {f : Feature} (h : f.Obeys p) : f.bare.Obeys p := by
  cases f with
  | aliased f n => exact h.2
  | _ => exact h

/-- What holds of every alias holds throughout a feature if it does so under its alias. -/
theorem throughout_bare {P : Feature → Prop} (aliases : ∀ g n, P (.aliased g n)) {f : Feature} :
    f.bare.Throughout P ↔ f.Throughout P := by
  cases f with
  | aliased g n =>
    refine ⟨fun h => .mk (aliases g n) fun c hc => ?_, fun h => h.parts g (by simp [children])⟩
    obtain rfl : c = g := by simpa [children] using hc
    exact h
  | _ => rfl

/-! ### Elements that are offered -/

/-- Every element inside the feature is one of those inside what a source offers, as far as keys keep
them. -/
def Offered (f : Feature) (s : Source) : Prop :=
  ∀ e ∈ f.elements, ∃ g ∈ s.features, ∃ x ∈ g.elements, x.canonical = e.canonical

/-- A feature stays within what a source offers exactly if its elements are offered. -/
theorem within_iff_offered {f : Feature} {s : Source} (hf : f.Obeys .distinct)
    (hs : s.Obeys .distinct) : f.Within (elementsIn s.features) ↔ f.Offered s := by
  have offers := Source.Obeys.features Rules.distinct_offered s hs
  have read : ∀ e ∈ f.elements, ∀ g ∈ s.features,
      (e.key ∈ g.elementKeys ↔ ∃ x ∈ g.elements, x.canonical = e.canonical) := fun e he g hg => by
    rw [elementKeys, List.mem_map]
    exact exists_congr fun x => and_congr_right fun hx =>
      key_eq_iff ((offers g hg).elements x hx) (hf.elements e he)
  rw [within_iff hf offers, elementKeys, List.forall_mem_map]
  exact forall₂_congr fun e he => exists_congr fun g => and_congr_right fun hg => read e he g hg

theorem offered_bare {f : Feature} {s : Source} : f.bare.Offered s ↔ f.Offered s := by
  rw [Offered, elements_bare, Offered]

theorem requireWithin_eq_ok_iff {superset : KeyedSet Feature} {owner : String} {f : Feature} :
    f.requireWithin superset owner = .ok () ↔ f.Within superset :=
  ⟨requireWithin_eq_ok, fun h => if_pos h⟩

/-- Elements are found inside a feature exactly if there are some. -/
theorem elementsIn_size_pos {f : Feature} (hf : f.Obeys .distinct) :
    0 < (elementsIn [f]).size ↔ f.elements ≠ [] := by
  have keys : ∀ k, (elementsIn [f]).hasKey k = true ↔ k ∈ f.elementKeys := fun k => by
    rw [hasKey_elementsIn (by simpa using hf)]
    simp
  rw [KeyedSet.size, List.length_pos_iff_exists_mem, ← List.length_pos_iff,
    List.length_pos_iff_exists_mem]
  constructor
  · rintro ⟨e, he⟩
    obtain ⟨x, hx, -⟩ := List.mem_map.1 ((keys e.1).1 (KeyedSet.hasKey_iff.2 ⟨e, he, rfl⟩))
    exact ⟨x, hx⟩
  · rintro ⟨x, hx⟩
    obtain ⟨e, he, -⟩ := KeyedSet.hasKey_iff.1 ((keys x.key).2 (List.mem_map_of_mem hx))
    exact ⟨e, he⟩

/-! ### Aggregates and windows -/

/-- An aggregate lies inside the feature and no window around it. -/
inductive Aggregated : Feature → Prop where
  | own {f : Feature} (aggregate : f.aggregates = true) : Aggregated f
  | inside {f c : Feature} (outside : f.isWindow = false) (part : c ∈ f.children)
      (inner : Aggregated c) : Aggregated f

theorem anyAggregate_eq (fs : List Feature) : anyAggregate fs = fs.any hasAggregate := by
  induction fs with
  | nil => rfl
  | cons f r ih => simp [anyAggregate, ih]

theorem hasAggregate_eq (f : Feature) :
    f.hasAggregate = (f.aggregates || !f.isWindow && f.children.any hasAggregate) := by
  cases f <;> simp [hasAggregate, aggregates, isWindow, children, anyAggregate_eq]

theorem hasAggregate_iff : ∀ f : Feature, f.hasAggregate = true ↔ f.Aggregated := by
  refine childInduction fun f ih => ?_
  rw [hasAggregate_eq, Bool.or_eq_true, Bool.and_eq_true, Bool.not_eq_true', List.any_eq_true]
  constructor
  · rintro (own | ⟨outside, c, hc, inner⟩)
    · exact .own own
    · exact .inside outside hc ((ih c hc).1 inner)
  · rintro (own | ⟨outside, part, inner⟩)
    · exact .inl own
    · exact .inr ⟨outside, _, part, (ih _ part).2 inner⟩

theorem refuseCollective_eq_ok_iff {f : Feature} (hf : f.Obeys .distinct) :
    f.refuseCollective = .ok () ↔ f.Throughout fun g => g.isCollective = false := by
  rw [← any_partsIn_eq_false isCollective_canonical hf, refuseCollective, hasCollective]
  split <;> simp_all

theorem refuseWindow_eq_ok_iff {f : Feature} (hf : f.Obeys .distinct) :
    f.refuseWindow = .ok () ↔ f.Throughout fun g => g.isWindow = false := by
  rw [← any_partsIn_eq_false isWindow_canonical hf, refuseWindow, hasWindow]
  split <;> simp_all

theorem asPredicate_eq_ok_iff {f g : Feature} :
    f.asPredicate = .ok g ↔ f.kind = .primitive .boolean ∧ f.bare = g := by
  constructor
  · intro h
    obtain ⟨boolean, rfl⟩ := asPredicate_eq_ok h
    exact ⟨Kind.eq_of_isBoolean boolean, rfl⟩
  · rintro ⟨boolean, rfl⟩
    exact if_pos (by rw [boolean]; rfl)

end Feature

/-- Outputs beside grouping keys are accepted exactly if each one that reads an element is one of the
keys, as far as keys keep it, or has an aggregate. -/
theorem ensureGrouped_eq_ok_iff {keys outputs : List Feature} (hkeys : ∀ k ∈ keys, k.Obeys .distinct)
    (houtputs : ∀ f ∈ outputs, f.Obeys .distinct) :
    ensureGrouped keys outputs = .ok () ↔ ∀ f ∈ outputs, f.elements ≠ [] →
      (∃ k ∈ keys, k.canonical = f.bare.canonical) ∨ f.Aggregated := by
  have key : ∀ f ∈ outputs, ((KeyedSet.ofList keys).has f.bare = true ↔
      ∃ k ∈ keys, k.canonical = f.bare.canonical) := fun f hf => by
    rw [KeyedSet.has, KeyedSet.hasKey_ofList]
    exact exists_congr fun k => and_congr_right fun hk =>
      Feature.key_eq_iff (hkeys k hk) (houtputs f hf).bare
  have passes : ∀ f ∈ outputs, ((if (KeyedSet.ofList keys).has f.bare || f.hasAggregate then .ok ()
      else .error (.ungrouped f.text) : Except Fault Unit) = .ok () ↔
      (∃ k ∈ keys, k.canonical = f.bare.canonical) ∨ f.Aggregated) := fun f hf => by
    rw [← key f hf, ← f.hasAggregate_iff, ← Bool.or_eq_true]
    split <;> simp_all
  have reads : ∀ f ∈ outputs, (decide (0 < (elementsIn [f]).size) = true ↔ f.elements ≠ []) :=
    fun f hf => by rw [decide_eq_true_iff, Feature.elementsIn_size_pos (houtputs f hf)]
  unfold ensureGrouped
  rw [List.forM_eq_forM, forM_eq_ok_iff]
  simp only [List.mem_filter, and_imp]
  exact forall₂_congr fun f hf => by rw [reads f hf, passes f hf]

/-- A filter is accepted exactly if it is a predicate, passes its own check and stays within the
features of a source. -/
theorem filterOf_accepts {check : Feature → Except Fault Unit} {superset : KeyedSet Feature}
    {owner : String} {o : Option Feature} :
    (∃ p, filterOf check superset owner (o.map .feature) = .ok p) ↔
      ∀ f ∈ o, f.kind = .primitive .boolean ∧ check f.bare = .ok () ∧ f.bare.Within superset := by
  cases o with
  | none => simp [filterOf]
  | some f =>
    simp only [filterOf, Option.map_some, Operand.whole, exists_bind_eq_ok, exists_check_eq_ok,
      Feature.asPredicate_eq_ok_iff, Feature.requireWithin_eq_ok_iff]
    simp

/-- Such a check asks the same of all parts of a filter, whatever it is called. -/
theorem filterOf_accepts_iff {check : Feature → Except Fault Unit} {P : Feature → Prop} {s : Source}
    {o : Option Feature} (hs : s.Obeys .distinct) (ho : ∀ f ∈ o, f.Obeys .distinct)
    (asks : ∀ f : Feature, f.Obeys .distinct → (check f = .ok () ↔ f.Throughout P))
    (aliases : ∀ g n, P (.aliased g n)) :
    (∃ p, filterOf check (elementsIn s.features) s.text (o.map .feature) = .ok p) ↔
      ∀ f ∈ o, f.kind = .primitive .boolean ∧ f.Throughout P ∧ f.Offered s := by
  rw [filterOf_accepts]
  refine forall₂_congr fun f hf => and_congr_right fun _ => and_congr ?_ ?_
  · rw [asks _ (ho f hf).bare, Feature.throughout_bare aliases]
  · rw [Feature.within_iff_offered (ho f hf).bare hs, Feature.offered_bare]

/-! ### Orderings -/

/-- How an ordering is written with tokens of some directions, and what it is then: one term after the
other, a feature with a token of its direction or without one, or both as a pair. -/
inductive OrderTerm.Written (D : Direction → Prop) : List OrderSpec → List OrderTerm → Prop where
  | nil : Written D [] []
  | term (o : OrderTerm) {r : List OrderSpec} {os : List OrderTerm} (rest : Written D r os) :
      Written D (.term o :: r) (o :: os)
  | plain (f : Feature) {r : List OrderSpec} {os : List OrderTerm} (rest : Written D r os) :
      Written D (.feature f :: r) (.by f.bare .ascending :: os)
  | directed (f : Feature) {token : String} {d : Direction} {r : List OrderSpec} {os : List OrderTerm}
      (known : D d) (direction : d.Token token) (rest : Written D r os) :
      Written D (.feature f :: .value (.text token) :: r) (.by f.bare d :: os)
  | pair (f : Feature) {token : String} {d : Direction} {r : List OrderSpec} {os : List OrderTerm}
      (known : D d) (direction : d.Token token) (rest : Written D r os) :
      Written D (.pair [.feature f, .value (.text token)] :: r) (.by f.bare d :: os)

/-- The texts that stand where tokens are looked for. -/
def OrderSpec.texts : OrderSpec → List String
  | .value (.text token)                     => [token]
  | .pair [.feature _, .value (.text token)] => [token]
  | _                                        => []

namespace OrderTerm

/-- **An ordering is read exactly as it is written**, with the tokens of all directions. -/
theorem make_eq_ok_iff {specs : List OrderSpec} {os : List OrderTerm} :
    make specs = .ok os ↔ Written (fun _ => True) specs os := by
  constructor
  · induction specs using make.induct generalizing os with
    | case1 =>
      intro h
      obtain rfl : [] = os := by simpa [make] using h
      exact .nil
    | case2 o r ih =>
      intro h
      obtain ⟨us, hus, rfl⟩ := by simpa [make] using h
      exact .term o (ih hus)
    | case3 f token r ih =>
      intro h
      obtain ⟨d, hd, us, hus, rfl⟩ := by simpa [make] using h
      exact .directed f trivial (Direction.ofToken_eq_ok_iff.1 hd) (ih hus)
    | case4 f r alone ih =>
      intro h
      rw [make.eq_4 f r alone] at h
      obtain ⟨us, hus, rfl⟩ := by simpa using h
      exact .plain f (ih hus)
    | case5 f token r ih =>
      intro h
      obtain ⟨d, hd, us, hus, rfl⟩ := by simpa [make] using h
      exact .pair f trivial (Direction.ofToken_eq_ok_iff.1 hd) (ih hus)
    | case6 spec r noTerm noToken noFeature noPair =>
      intro h
      rw [make.eq_6 spec r noTerm noToken noFeature noPair] at h
      simp at h
  · intro h
    induction h with
    | nil => rfl
    | term o _ ih => simp [make, ih]
    | plain f rest ih =>
      -- No ordering begins with a token, so the feature has none behind it.
      rw [make.eq_4 f _ (by rintro token r rfl; cases rest)]
      simp [ih]
    | directed f _ direction _ ih => simp [make, Direction.ofToken_eq_ok_iff.2 direction, ih]
    | pair f _ direction _ ih => simp [make, Direction.ofToken_eq_ok_iff.2 direction, ih]

theorem Written.mono {D D' : Direction → Prop} {specs : List OrderSpec} {os : List OrderTerm}
    (h : Written D specs os) (more : ∀ d, D d → D' d) : Written D' specs os := by
  induction h with
  | nil => exact .nil
  | term o _ ih => exact .term o ih
  | plain f _ ih => exact .plain f ih
  | directed f known direction _ ih => exact .directed f (more _ known) direction ih
  | pair f known direction _ ih => exact .pair f (more _ known) direction ih

/-- Where no text names what every record knows, an ordering is written with the tokens of the two
directions. -/
theorem Written.proper {D : Direction → Prop} {specs : List OrderSpec} {os : List OrderTerm}
    (h : Written D specs os)
    (own : ∀ token ∈ specs.flatMap OrderSpec.texts, ∀ m, ¬(Direction.inherited m).Token token) :
    Written Direction.Proper specs os := by
  have proper : ∀ {d : Direction} {token : String}, (∀ m, ¬(Direction.inherited m).Token token) →
      d.Token token → d.Proper := fun {d _} own direction => by
    cases d with
    | inherited m => exact absurd direction (own m)
    | _ => decide
  induction h with
  | nil => exact .nil
  | term o _ ih => exact .term o (ih own)
  | plain f _ ih => exact .plain f (ih own)
  | directed f _ direction _ ih =>
    obtain ⟨first, rest⟩ := List.forall_mem_cons.1 own
    exact .directed f (proper first direction) direction (ih rest)
  | pair f _ direction _ ih =>
    obtain ⟨first, rest⟩ := List.forall_mem_cons.1 own
    exact .pair f (proper first direction) direction (ih rest)

end OrderTerm

/-- The feature to order by, where one is written. -/
def OrderSpec.target? : OrderSpec → Option Feature
  | .term o                  => some o.feature
  | .feature f               => some f.bare
  | .pair (.feature f :: _)  => some f.bare
  | _                        => none

theorem OrderTerm.Written.targets {D : Direction → Prop} {specs : List OrderSpec}
    {os : List OrderTerm} (h : OrderTerm.Written D specs os) :
    os.map OrderTerm.feature = specs.filterMap OrderSpec.target? := by
  induction h with
  | nil => rfl
  | directed f _ _ _ ih => simpa [OrderSpec.target?, OrderTerm.feature, List.filterMap_cons] using ih
  | _ => simp_all [OrderSpec.target?, OrderTerm.feature]

/-- An ordering is accepted exactly if it is written as one, and what is asked of its features holds of
the features that are written. -/
theorem OrderTerm.make_accepts {P : Feature → Prop} {specs : List OrderSpec} :
    (∃ os, make specs = .ok os ∧ ∀ f ∈ os.map OrderTerm.feature, P f) ↔
      (∃ os, Written (fun _ => True) specs os) ∧ ∀ f ∈ specs.filterMap OrderSpec.target?, P f := by
  rw [← exists_and_right]
  refine exists_congr fun os => ?_
  rw [make_eq_ok_iff]
  exact and_congr_right fun written => by rw [written.targets]

/-! ### Row limits -/

/-- The value is an integer that is not negative: a number of whole ones, with a sign only where it is a
zero. -/
def Value.IsCount (v : Value) : Prop :=
  ∃ n negative m, v = .number (.finite negative m) ∧ m.steps = n * stepsPerOne ∧
    (negative = true → n = 0)

theorem Limit.toRange_accepts {l : Limit} {owner : String} :
    (∃ r, l.toRange owner = .ok r) ↔ l.count.IsCount ∧ l.offset.IsCount := by
  have read : ∀ v : Value, v.IsCount ↔ v.natural?.isSome = true := fun v => by
    rw [Option.isSome_iff_exists]
    exact exists_congr fun n => Value.natural?_eq_some.symm
  rw [read, read, Limit.toRange]
  cases l.count.natural? <;> cases l.offset.natural? <;> simp

namespace Source

variable {s : Source} {sel : List Feature} {pre : Option Feature} {grp : List Feature}
  {post : Option Feature} {specs : List OrderSpec} {rows : Option Limit}

/-- **The checks of a statement**, one by one. -/
theorem queryOf_accepts :
    (∃ q, s.queryOf ⟨sel.map .feature, pre.map .feature, grp.map .feature, post.map .feature, specs,
        rows⟩ = .ok q) ↔
      (∀ f ∈ sel, f.Within (elementsIn s.features)) ∧
      (∃ p, filterOf Feature.refuseCollective (elementsIn s.features) s.text (pre.map .feature)
        = .ok p) ∧
      (∀ f ∈ grp.map Feature.bare, f.refuseCollective = .ok ()) ∧
      (∀ f ∈ grp.map Feature.bare, f.Within (elementsIn s.features)) ∧
      (grp ≠ [] → ensureGrouped (grp.map Feature.bare) (if sel.isEmpty then s.features else sel)
        = .ok ()) ∧
      (∃ p, filterOf Feature.refuseWindow (elementsIn s.features) s.text (post.map .feature)
        = .ok p) ∧
      (∃ os, OrderTerm.make specs = .ok os ∧
        ∀ f ∈ os.map OrderTerm.feature, f.Within (elementsIn s.features)) ∧
      ∀ l ∈ rows, ∃ r, l.toRange s.text = .ok r := by
  simp only [queryOf, Operand.mapM_whole, mapM_bare_eq, exists_bind_eq_ok, exists_check_eq_ok,
    List.forM_eq_forM, forM_eq_ok_iff, Feature.requireWithin_eq_ok_iff, Except.ok.injEq,
    exists_eq_left']
  cases grp with
  | nil =>
    simp only [List.map_nil, List.isEmpty_nil, if_true, exists_bind_eq_ok, exists_check_eq_ok,
      forM_eq_ok_iff, Feature.requireWithin_eq_ok_iff]
    cases rows <;> simp [← exists_and_right, and_assoc]
  | cons k r =>
    simp only [List.map_cons, List.isEmpty_cons, Bool.false_eq_true, if_false, exists_bind_eq_ok,
      exists_check_eq_ok, forM_eq_ok_iff, Feature.requireWithin_eq_ok_iff]
    cases rows <;> simp [← exists_and_right, and_assoc]

/-! ### Clauses that make sense -/

/-- The features that the clauses of a statement speak of. -/
def asked (sel : List Feature) (pre : Option Feature) (grp : List Feature) (post : Option Feature)
    (specs : List OrderSpec) : List Feature :=
  sel ++ pre.toList ++ grp ++ post.toList ++ specs.filterMap OrderSpec.target?

/-- The clauses of a statement make sense over a source, where orderings are written with tokens of some
directions. -/
structure Admits (D : Direction → Prop) (s : Source) (sel : List Feature) (pre : Option Feature)
    (grp : List Feature) (post : Option Feature) (specs : List OrderSpec) (rows : Option Limit) :
    Prop where
  /-- The source offers every element that a clause reads, at whatever depth. -/
  offered    : ∀ f ∈ asked sel pre grp post specs, f.Offered s
  /-- Filters are Boolean. -/
  predicates : ∀ p ∈ pre.toList ++ post.toList, p.kind = .primitive .boolean
  /-- What is asked of single rows has neither aggregates nor windows. -/
  single     : ∀ f ∈ pre.toList ++ grp, f.Throughout fun g => g.isCollective = false
  /-- What is asked of groups has no windows. -/
  windowless : ∀ p ∈ post, p.Throughout fun g => g.isWindow = false
  /-- With grouping keys, each output that reads elements is one of the keys or aggregated. -/
  grouped    : grp ≠ [] → ∀ f ∈ (if sel.isEmpty then s.features else sel), f.elements ≠ [] →
    (∃ k ∈ grp, k.bare.canonical = f.bare.canonical) ∨ f.Aggregated
  ordered    : ∃ os, OrderTerm.Written D specs os
  limited    : ∀ l ∈ rows, l.count.IsCount ∧ l.offset.IsCount

/-- The checks are passed by what makes sense with the tokens of all directions. -/
theorem queryOf_admits (hs : s.Built) (free : s.Obeys .structFree)
    (known : ∀ f ∈ asked sel pre grp post specs, f.Built ∧ f.Obeys .structFree) :
    (∃ q, s.queryOf ⟨sel.map .feature, pre.map .feature, grp.map .feature, post.map .feature, specs,
      rows⟩ = .ok q) ↔ Admits (fun _ => True) s sel pre grp post specs rows := by
  have source := hs.distinct free
  have distinct : ∀ f ∈ asked sel pre grp post specs, f.Obeys .distinct := fun f hf =>
    (known f hf).1.distinct (known f hf).2
  simp only [asked, List.forall_mem_append, Option.mem_toList] at distinct
  obtain ⟨⟨⟨⟨hsel, hpre⟩, hgrp⟩, hpost⟩, hord⟩ := distinct
  have keys : ∀ k ∈ grp.map Feature.bare, k.Obeys .distinct :=
    List.forall_mem_map.2 fun k hk => (hgrp k hk).bare
  have outputs : ∀ f ∈ (if sel.isEmpty then s.features else sel), f.Obeys .distinct := by
    split
    · exact Obeys.features Rules.distinct_offered s source
    · exact hsel
  have within : ∀ fs : List Feature, (∀ f ∈ fs, f.Obeys .distinct) →
      ((∀ f ∈ fs, f.Within (elementsIn s.features)) ↔ ∀ f ∈ fs, f.Offered s) := fun fs hfs =>
    forall₂_congr fun f hf => Feature.within_iff_offered (hfs f hf) source
  have collective : (∀ f ∈ grp.map Feature.bare, f.refuseCollective = .ok ()) ↔
      ∀ f ∈ grp, f.Throughout fun g => g.isCollective = false := by
    rw [List.forall_mem_map]
    refine forall₂_congr fun f hf => ?_
    rw [Feature.refuseCollective_eq_ok_iff (hgrp f hf).bare,
      Feature.throughout_bare fun _ _ => rfl]
  have keyed : (∀ f ∈ grp.map Feature.bare, f.Offered s) ↔ ∀ f ∈ grp, f.Offered s := by
    simp only [List.forall_mem_map, Feature.offered_bare]
  rw [queryOf_accepts, within sel hsel, within _ keys, keyed, collective, OrderTerm.make_accepts,
    within _ hord,
    filterOf_accepts_iff source hpre (fun f hf => f.refuseCollective_eq_ok_iff hf) fun _ _ => rfl,
    filterOf_accepts_iff source hpost (fun f hf => f.refuseWindow_eq_ok_iff hf) fun _ _ => rfl,
    ensureGrouped_eq_ok_iff keys outputs]
  simp only [Limit.toRange_accepts, List.mem_map, exists_exists_and_eq_and]
  constructor
  · rintro ⟨selection, prefilter, single, grouping, grouped, postfilter, ⟨written, ordering⟩, limited⟩
    refine ⟨?_, ?_, ?_, fun p hp => (postfilter p hp).2.1, grouped, written, limited⟩ <;>
      simp only [asked, List.forall_mem_append, Option.mem_toList]
    · exact ⟨⟨⟨⟨selection, fun p hp => (prefilter p hp).2.2⟩, grouping⟩,
        fun p hp => (postfilter p hp).2.2⟩, ordering⟩
    · exact ⟨fun p hp => (prefilter p hp).1, fun p hp => (postfilter p hp).1⟩
    · exact ⟨fun p hp => (prefilter p hp).2.1, single⟩
  · rintro ⟨offered, predicates, single, windowless, grouped, written, limited⟩
    simp only [asked, List.forall_mem_append, Option.mem_toList] at offered predicates single
    obtain ⟨⟨⟨⟨selection, prefilter⟩, grouping⟩, postfilter⟩, ordering⟩ := offered
    exact ⟨selection, fun p hp => ⟨predicates.1 p hp, single.1 p hp, prefilter p hp⟩, single.2,
      grouping, grouped, fun p hp => ⟨predicates.2 p hp, windowless p hp, postfilter p hp⟩,
      ⟨written, ordering⟩, limited⟩

/-- Where no text names what every record knows, no other tokens are needed. -/
theorem admits_proper
    (own : ∀ token ∈ specs.flatMap OrderSpec.texts, ∀ m, ¬(Direction.inherited m).Token token) :
    Admits (fun _ => True) s sel pre grp post specs rows ↔
      Admits Direction.Proper s sel pre grp post specs rows :=
  ⟨fun h => { h with ordered := h.ordered.imp fun _ written => written.proper own },
    fun h => { h with ordered := h.ordered.imp fun _ written => written.mono fun _ _ => trivial }⟩

/-- **Exactly the statements that make sense are accepted**, where the names of what every record knows
are tokens of directions too. Without such a name the tokens are those of the two directions. -/
theorem accepted_iff_admits (hs : s.Built) (free : s.Obeys .structFree)
    (known : ∀ f ∈ asked sel pre grp post specs, f.Built ∧ f.Obeys .structFree) :
    let accepted := ∃ q, s.queryOf ⟨sel.map .feature, pre.map .feature, grp.map .feature,
      post.map .feature, specs, rows⟩ = .ok q
    (accepted ↔ Admits (fun _ => True) s sel pre grp post specs rows) ∧
      ((∀ token ∈ specs.flatMap OrderSpec.texts, ∀ m, ¬(Direction.inherited m).Token token) →
        (accepted ↔ Admits Direction.Proper s sel pre grp post specs rows)) :=
  ⟨queryOf_admits hs free known, fun own => (queryOf_admits hs free known).trans (admits_proper own)⟩

end Source

/-! ### A roster -/

/-- A table of names and scores. -/
def roster : Source := .table ⟨"roster", [("name", ⟨.primitive .string, "name"⟩),
  ("score", ⟨.primitive .integer, "score"⟩)]⟩

/-- The best scores by names are accepted, the scores themselves beside the names are not. -/
theorem accepted_iff_admits_of_roster :
    let name : Feature := .element roster "name" (.primitive .string)
    let score : Feature := .element roster "score" (.primitive .integer)
    let best : Feature := .expression .max [score] none
    let known (f : Feature) : Feature := .expression .notNull [f] none
    let statement (sel : List Feature) : Except Fault Source := roster.queryOf
      ⟨sel.map .feature, (some (known score)).map .feature, [name].map .feature,
        (some (known best)).map .feature, [.feature name, .value (.text "DESC")],
        some ⟨.number (.ofNat 1), .number (.ofNat 0)⟩⟩
    (∃ q, statement [name, .aliased best "best"] = .ok q) ∧ ¬∃ q, statement [name, score] = .ok q := by
  intro name score best known statement
  have table : roster.Built := .of_distinct rfl
  have free : roster.Obeys .structFree := structFree_table rfl
  have hname : name.Built := .element table (show roster.get "name" = .ok name from rfl)
  have hscore : score.Built := .element table (show roster.get "score" = .ok score from rfl)
  have hbest : best.Built := built_single hscore rfl
  have parts : ∀ f ∈ [name, score, .aliased best "best", known score, known best],
      (f.Built ∧ f.Obeys .structFree) ∧ ∀ e ∈ f.elements, e = name ∨ e = score := by
    have column : score.Obeys .structFree := ⟨trivial, free⟩
    have aggregate : best.Obeys .structFree := ⟨nofun, column, trivial⟩
    simp only [List.forall_mem_cons]
    refine ⟨⟨⟨hname, trivial, free⟩, ?_⟩, ⟨⟨hscore, column⟩, ?_⟩,
      ⟨⟨@Feature.Built.aliased (.feature best) _ _ (.feature hbest) rfl, trivial, aggregate⟩, ?_⟩,
      ⟨⟨built_single hscore rfl,
        nofun, column, trivial⟩, ?_⟩,
      ⟨⟨built_single hbest rfl,
        nofun, aggregate, trivial⟩, ?_⟩, nofun⟩ <;>
      simp [name, score, best, known, Feature.elements, elementsOf]
  have distinct : ∀ f ∈ [name, score, .aliased best "best", known score, known best],
      f.Obeys .distinct := fun f hf => (parts f hf).1.1.distinct (parts f hf).1.2
  have asked : ∀ sel : List Feature, (∀ f ∈ sel, f ∈ [name, score, .aliased best "best"]) →
      ∀ f ∈ Source.asked sel (some (known score)) [name] (some (known best))
        [.feature name, .value (.text "DESC")],
        f ∈ [name, score, .aliased best "best", known score, known best] := by
    intro sel hsel f hf
    simp only [Source.asked, List.mem_append, Option.toList_some, List.mem_singleton] at hf
    rcases hf with (((hf | rfl) | rfl) | rfl) | hf
    · exact List.mem_append_left _ (hsel f hf)
    · simp
    · simp
    · simp
    · obtain rfl : f = name.bare := by simpa [OrderSpec.target?, List.filterMap_cons] using hf
      exact List.mem_cons_self
  have lower : "DESC".toLower = "desc" := by decide +kernel
  have own : ∀ token ∈ [OrderSpec.feature name, .value (.text "DESC")].flatMap OrderSpec.texts,
      ∀ m, ¬(Direction.inherited m).Token token := by
    intro token htoken m
    obtain rfl : token = "DESC" := by simpa [OrderSpec.texts] using htoken
    rw [Direction.token_iff, lower]
    cases m <;> decide
  have accepts : ∀ sel : List Feature, (∀ f ∈ sel, f ∈ [name, score, .aliased best "best"]) →
      ((∃ q, statement sel = .ok q) ↔ roster.Admits Direction.Proper sel (some (known score)) [name]
        (some (known best)) [.feature name, .value (.text "DESC")]
        (some ⟨.number (.ofNat 1), .number (.ofNat 0)⟩)) := fun sel hsel =>
    (Source.accepted_iff_admits table free fun f hf => (parts f (asked sel hsel f hf)).1).2 own
  constructor
  · have token : Direction.descending.Token "DESC" := Direction.token_iff.2 (lower ▸ .head _)
    have offers : roster.features = [name, score] := rfl
    refine (accepts _ (by simp)).2 ⟨fun f hf e he => ?_, ?_, ?_, ?_, fun _ f hf _ => ?_,
      ⟨_, .directed name (.inr rfl) token .nil⟩, ?_⟩
    · rcases (parts f (asked _ (by simp) f hf)).2 e he with rfl | rfl
      · exact ⟨name, by simp [offers], name, List.mem_singleton_self _, rfl⟩
      · exact ⟨score, by simp [offers], score, List.mem_singleton_self _, rfl⟩
    · simpa using ⟨rfl, rfl⟩
    · have plain : ∀ f ∈ [known score, name], f.hasCollective = false := by decide +kernel
      refine fun f hf => Feature.throughout_of_hasCollective (distinct f ?_) (plain f hf)
      rcases List.mem_pair.1 hf with rfl | rfl <;> simp
    · rintro p ⟨⟩
      exact (Feature.any_partsIn_eq_false Feature.isWindow_canonical (distinct _ (by simp))).1
        (by decide +kernel)
    · rcases List.mem_pair.1 hf with rfl | rfl
      · exact .inl ⟨name, by simp, rfl⟩
      · exact .inr (.inside rfl (List.mem_singleton_self best) (.own rfl))
    · rintro l ⟨⟩
      exact ⟨⟨1, Value.natural?_eq_some.1 (by decide +kernel)⟩,
        ⟨0, Value.natural?_eq_some.1 (by decide +kernel)⟩⟩
  · rw [accepts _ (by simp)]
    intro h
    have reads : score.elements ≠ [] := List.cons_ne_nil score []
    rcases h.grouped (by simp) score (by simp) reads with ⟨k, hk, same⟩ | aggregated
    · obtain rfl := List.mem_singleton.1 hk
      exact absurd (Feature.element.inj same).2.1 (by decide)
    · exact Bool.false_ne_true (score.hasAggregate_iff.2 aggregated)

/-- **The name of what every record knows is accepted as a token**, though no ordering is written so. -/
theorem accepted_of_inherited :
    let score : Feature := .element roster "score" (.primitive .integer)
    let specs : List OrderSpec := [.feature score, .value (.text "constructor")]
    (∃ q, roster.queryOf ⟨[], none, [], none, specs, none⟩ = .ok q) ∧
      ¬roster.Admits Direction.Proper [] none [] none specs none := by
  intro score specs
  have accepted : (roster.queryOf ⟨[], none, [], none, specs, none⟩).isOk = true := by decide +kernel
  refine ⟨?_, fun admits => ?_⟩
  · rcases given : roster.queryOf ⟨[], none, [], none, specs, none⟩ with e | q
    · rw [given] at accepted
      cases accepted
    · exact ⟨q, rfl⟩
  · obtain ⟨os, written⟩ : ∃ os, OrderTerm.Written Direction.Proper
      [.feature score, .value (.text "constructor")] os := admits.ordered
    have lower : "constructor".toLower = "constructor" := by decide +kernel
    cases written with
    | plain _ rest => cases rest
    | directed _ proper direction _ =>
      rw [Direction.token_iff, lower] at direction
      rcases proper with rfl | rfl <;> revert direction <;> decide

end QueryAlgebra
