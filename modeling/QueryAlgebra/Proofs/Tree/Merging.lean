import QueryAlgebra.Proofs.Tree.Factors

/-!
# Merging factors

Merging goes through the entries of the right side. A table that is new is put behind those of the left
side, and one that is known keeps its place and has its two predicates united.

* `KeyedMap.nodes_set`, `KeyedMap.Proper.ext`: proper maps are told by their nodes and by look-up.
* `Factors.nodes_merge`, `Factors.get?_merge`: the tables of merged factors, and the predicate of each.
* `Factors.merge_self`, `Factors.merge_empty`, `Factors.empty_merge`, `Factors.merge_comm_of_disjoint`: the
  laws of merging.
* `Factors.Obtained`: factors that predicates give, also merged ones; `Factors.expr_eq_ok`: the operators
  that unite their predicates accept them.
* `factors_merged`: all of this for factors that predicates give.
-/

namespace QueryAlgebra

/-! ### Maps told by their nodes -/

namespace KeyedMap

variable {α γ : Type} [Keyed α] {m n : KeyedMap α γ}

theorem has_iff_mem_keys (m : KeyedMap α γ) (a : α) : m.has a = true ↔ Keyed.key a ∈ m.keys := by
  simp [has, Assoc.has, keys, eq_comm (a := Keyed.key a)]

theorem has_eq_isSome (m : KeyedMap α γ) (a : α) : m.has a = (m.get? a).isSome := by
  rw [Bool.eq_iff_iff, has_iff_mem_keys, isSome_get?]

theorem has_congr (m : KeyedMap α γ) {a b : α} (h : Keyed.key a = Keyed.key b) : m.has a = m.has b := by
  simp only [has, h]

theorem get?_eq_none {m : KeyedMap α γ} {a : α} (h : m.has a = false) : m.get? a = none := by
  rw [has_eq_isSome] at h
  simpa using h

omit [Keyed α] in
theorem mem_values {v : γ} : v ∈ m.values ↔ ∃ e ∈ m.toList, e.2 = v := by
  simp only [values, toList, List.mem_map, exists_exists_and_eq_and]

/-- A node that is put keeps the place that its key has, or stands at the end. -/
theorem nodes_set (m : KeyedMap α γ) (a : α) (v : γ) :
    (m.set a v).nodes = if m.has a then m.nodes else m.nodes ++ [a] := by
  obtain ⟨es⟩ := m
  show (Assoc.put (· == ·) (Keyed.key a) (((Assoc.find? (Keyed.key a == ·) es).map (·.1)).getD a, v)
      es).map (·.2.1) = if Assoc.has (Keyed.key a == ·) es then es.map (·.2.1) else es.map (·.2.1) ++ [a]
  induction es with
  | nil => simp [Assoc.put, Assoc.find?, Assoc.has]
  | cons e r ih =>
    obtain ⟨k, b, w⟩ := e
    by_cases h : Keyed.key a = k
    · simp [Assoc.put, Assoc.find?, Assoc.has, h]
    · have other : (Keyed.key a == k) = false := beq_eq_false_iff_ne.2 h
      unfold Assoc.has at ih ⊢
      simp only [Assoc.put, Assoc.find?, other, Bool.false_eq_true, if_false, List.map_cons,
        List.any_cons, Bool.false_or, List.cons_append]
      rw [ih]
      split <;> rfl

namespace Proper

theorem entries_eq (h : m.Proper) : m.entries = m.toList.map fun e => (Keyed.key e.1, e) := by
  simp only [toList, List.map_map]
  conv_lhs => rw [← List.map_id m.entries]
  exact List.map_congr_left fun e he => by simp [h.keyed e he]

theorem keys_eq (h : m.Proper) : m.keys = m.nodes.map Keyed.key := by
  simp only [keys, nodes, List.map_map]
  exact List.map_congr_left fun e he => (h.keyed e he).symm

theorem has_of_mem (h : m.Proper) {a : α} (ha : a ∈ m.nodes) : m.has a = true := by
  rw [has_iff_mem_keys, h.keys_eq]
  exact List.mem_map_of_mem ha

/-- **Proper maps with the same nodes and the same values are equal.** -/
theorem ext (hm : m.Proper) (hn : n.Proper) (nodes : m.nodes = n.nodes)
    (values : ∀ a, m.get? a = n.get? a) : m = n := by
  have entries : ∀ {l : KeyedMap α γ}, l.Proper →
      l.toList.map (fun e => (e.1, some e.2)) = l.nodes.map fun a => (a, l.get? a) := by
    intro l hl
    simp only [KeyedMap.nodes, toList, List.map_map]
    refine List.map_congr_left fun e he => ?_
    have found := hl.get?_of_mem (List.mem_map_of_mem he)
    simp [found]
  have same : m.toList.map (fun e => (e.1, some e.2)) = n.toList.map fun e => (e.1, some e.2) := by
    rw [entries hm, entries hn, nodes]
    exact List.map_congr_left fun a _ => by rw [values a]
  have injective : Function.Injective fun e : α × γ => (e.1, some e.2) := by
    rintro ⟨a, v⟩ ⟨b, w⟩ h
    simpa using h
  have lists := List.map_injective_iff.2 injective same
  obtain ⟨es⟩ := m
  obtain ⟨fs⟩ := n
  exact congrArg KeyedMap.mk ((hm.entries_eq.trans (by rw [lists])).trans hn.entries_eq.symm)

end Proper

end KeyedMap

/-! ### Laws of merging -/

namespace Factors

variable {op : Operator} {F G : Factors}

theorem nodes_add (F : Factors) (t : Schema) (p : Feature) :
    (add op F t p).nodes = if F.has t then F.nodes else F.nodes ++ [t] := by
  unfold add
  split <;> exact F.nodes_set _ _

theorem has_add (F : Factors) (t u : Schema) (p : Feature) :
    (add op F t p).has u = (F.has u || Keyed.key u == Keyed.key t) := by
  by_cases same : Keyed.key u = Keyed.key t
  · rw [KeyedMap.has_congr _ same, KeyedMap.has_eq_isSome, get?_add_self]
    simp [same]
  · rw [KeyedMap.has_eq_isSome, get?_add_of_ne op F p same, ← KeyedMap.has_eq_isSome]
    simp [same]

/-- **The tables of merged factors** are those of the left side, and behind them those that only the right
side has. -/
theorem nodes_merge (hG : G.Proper) :
    (merge op F G).nodes = F.nodes ++ G.nodes.filter fun t => !F.has t := by
  have fold : ∀ (es : List (Schema × Feature)) (F : Factors), (es.map fun e => Keyed.key e.1).Nodup →
      (es.foldl (fun acc e => add op acc e.1 e.2) F).nodes
        = F.nodes ++ (es.map (·.1)).filter fun t => !F.has t := by
    intro es
    induction es with
    | nil => simp
    | cons e r ih =>
      intro F once
      obtain ⟨new, once⟩ := List.nodup_cons.1 once
      -- No later table has the key of this one.
      have later : (r.map (·.1)).filter (fun t => !(add op F e.1 e.2).has t)
          = (r.map (·.1)).filter fun t => !F.has t := by
        refine List.filter_congr fun t ht => ?_
        obtain ⟨d, hd, rfl⟩ := List.mem_map.1 ht
        have other : Keyed.key d.1 ≠ Keyed.key e.1 := fun same => new (List.mem_map.2 ⟨d, hd, same⟩)
        simp [has_add, other]
      rw [List.foldl_cons, ih _ once, later, nodes_add, List.map_cons, List.filter_cons]
      cases F.has e.1 <;> simp
  have tables : G.nodes = G.toList.map (·.1) := by simp [KeyedMap.nodes, KeyedMap.toList]
  rw [tables]
  exact fold G.toList F hG.nodup_toList

theorem has_merge (hF : F.Proper) (hG : G.Proper) (t : Schema) :
    (merge op F G).has t = (F.has t || G.has t) := by
  rw [Bool.eq_iff_iff, Bool.or_eq_true]
  simp only [KeyedMap.has_iff_mem_keys, (merge_proper hF op G).keys_eq, nodes_merge hG, List.map_append,
    List.mem_append, ← hF.keys_eq]
  refine or_congr_right' fun new => ?_
  rw [hG.keys_eq, List.mem_map, List.mem_map]
  refine exists_congr fun u => and_congr_left fun same => ?_
  have free : F.has u = false := by
    rw [KeyedMap.has_congr F same, ← Bool.not_eq_true, KeyedMap.has_iff_mem_keys]
    exact new
  simp [List.mem_filter, free]

/-- **The predicate of a table in merged factors**: that of the only side that has one, or both united. -/
theorem get?_merge (hF : F.Proper) (hG : G.Proper) (t : Schema) :
    (merge op F G).get? t = match F.get? t, G.get? t with
      | none,   q      => q
      | some p, none   => some p
      | some p, some q => some (unite op p q) := by
  cases found : (merge op F G).get? t with
  | none =>
    have missing : (merge op F G).has t = (F.has t || G.has t) := has_merge hF hG t
    simp only [KeyedMap.has_eq_isSome, found, Option.isSome_none, Bool.false_eq, Bool.or_eq_false_iff,
      Option.isSome_eq_false_iff, Option.isNone_iff_eq_none] at missing
    rw [missing.1, missing.2]
  | some p =>
    have merged := merge_cases hG found
    generalize F.get? t = f at merged
    generalize G.get? t = g at merged
    cases merged <;> rfl

theorem unite_self (op : Operator) (p : Feature) : unite op p p = p := by simp [unite]

/-- Factors merged with themselves are the same. -/
theorem merge_self (hF : F.Proper) : merge op F F = F := by
  refine (merge_proper hF op F).ext hF ?_ fun t => ?_
  · rw [nodes_merge hF, List.filter_eq_nil_iff.2 fun t ht => by simp [hF.has_of_mem ht], List.append_nil]
  · rw [get?_merge hF hF]
    cases F.get? t with
    | none => rfl
    | some p => exact congrArg some (unite_self op p)

theorem merge_empty : merge op F .empty = F := rfl

theorem empty_merge (hG : G.Proper) : merge op .empty G = G := by
  have none : ∀ t, KeyedMap.has (KeyedMap.empty : Factors) t = false := fun _ => rfl
  refine (merge_proper .empty op G).ext hG ?_ fun t => ?_
  · rw [nodes_merge hG, List.filter_eq_self.2 fun t _ => by simp [none t]]
    rfl
  · rw [get?_merge .empty hG, KeyedMap.get?_eq_none (none t)]

/-- Both give the same predicates to the same tables if they have as many tables and give the same
wherever the first has one. -/
theorem same_of_get? (hF : F.Proper) (size : F.size = G.size)
    (values : ∀ t, (F.get? t).isSome → G.get? t = F.get? t) : same F G = true := by
  simp only [same, Bool.and_eq_true, beq_iff_eq, List.all_eq_true]
  refine ⟨size, fun e he => ?_⟩
  have found := hF.get?_of_mem he
  rw [values e.1 (by simp [found]), found]
  exact beq_self_eq_true _

/-- **Factors of different tables merge in either order** into the same ones. -/
theorem merge_comm_of_disjoint (hF : F.Proper) (hG : G.Proper)
    (apart : ∀ t, F.has t = true → G.has t = false) :
    same (merge op F G) (merge op G F) = true := by
  have sizes : ∀ {F G : Factors}, G.Proper → (∀ t, G.has t = true → F.has t = false) →
      (merge op F G).size = F.size + G.size := by
    intro F G hG apart
    have tables : (merge op F G).nodes = F.nodes ++ G.nodes.filter fun t => !F.has t := nodes_merge hG
    rw [List.filter_eq_self.2 fun t ht => by simp [apart t (hG.has_of_mem ht)]] at tables
    simpa [KeyedMap.size, KeyedMap.nodes] using congrArg List.length tables
  have apart' : ∀ t, G.has t = true → F.has t = false := fun t h => by
    by_contra known
    simp [apart t (by simpa using known)] at h
  refine same_of_get? (merge_proper hF op G) ?_ fun t _ => ?_
  · rw [sizes hG apart', sizes hF apart, Nat.add_comm]
  · rw [get?_merge hF hG, get?_merge hG hF]
    cases known : F.has t with
    | true => rw [KeyedMap.get?_eq_none (apart t known)]; cases F.get? t <;> rfl
    | false => rw [KeyedMap.get?_eq_none known]; cases G.get? t <;> rfl

/-! ### Factors of predicates -/

/-- Factors that predicates give, also when they are merged. -/
inductive Obtained : Factors → Prop where
  | of (p : Feature) : Obtained p.factors
  | merge {op : Operator} {F G : Factors} (hop : op ∈ connectives) (hF : Obtained F) (hG : Obtained G) :
      Obtained (merge op F G)

theorem Obtained.proper (h : F.Obtained) : F.Proper := by
  induction h with
  | of p => exact p.factors_proper
  | merge _ _ _ ihF _ => exact merge_proper ihF _ _

/-- Their predicates are of Boolean kind and have no aliases. -/
theorem Obtained.predicates (h : F.Obtained) :
    ∀ e ∈ F.toList, e.2.bare = e.2 ∧ e.2.kind.isBoolean = true := by
  induction h with
  | of p =>
    intro e he
    have made := Feature.factorFrom p e he
    have bare := Feature.factors_forall (P := fun _ => True) (fun _ _ _ _ _ _ _ _ => trivial)
      (fun _ _ _ _ => trivial) p trivial e he
    exact ⟨bare.1, made.boolean⟩
  | @merge op F G hop hF _ ihF ihG =>
    refine merge_entries (R := fun _ q => q.bare = q ∧ q.kind.isBoolean = true)
      (fun _ _ p q _ hp hq => ?_) hF.proper ihF ihG
    refine unite_forall (P := fun g => g.bare = g ∧ g.kind.isBoolean = true)
      (fun op hop a b _ _ => ⟨rfl, ?_⟩) hop hp hq
    simp only [connectives, List.mem_cons, List.not_mem_nil, or_false] at hop
    rcases hop with rfl | rfl <;> rfl

/-- A connective accepts predicates. -/
theorem expr_eq_ok {p q : Feature} (hop : op ∈ connectives) (hp : p.bare = p ∧ p.kind.isBoolean = true)
    (hq : q.bare = q ∧ q.kind.isBoolean = true) :
    Feature.expr op [.feature p, .feature q] none = .ok (.expression op [p, q] none) := by
  have args : [Operand.feature p, .feature q].mapM Operand.bare = .ok [p, q] := by
    simp [Operand.bare, hp.1, hq.1]
  have boolean : ∀ {f : Feature}, f.kind.isBoolean = true →
      (Kind.primitive .boolean).ensure f.kind = .ok f.kind := fun {f} h => by
    cases hk : f.kind with
    | primitive r => cases r <;> simp_all [Kind.isBoolean, Kind.ensure, Kind.sameFamily]
    | _ => simp [hk, Kind.isBoolean] at h
  simp only [connectives, List.mem_cons, List.not_mem_nil, or_false] at hop
  unfold Feature.expr
  rw [args]
  rcases hop with rfl | rfl <;>
    simp [Operator.arity, Operator.fixity, Operator.check, Operator.group, boolean hp.2, boolean hq.2]

/-- What factors of predicates give a table has Boolean kind and no alias. -/
theorem Obtained.predicate (h : F.Obtained) {t : Schema} {p : Feature} (found : F.get? t = some p) :
    p.bare = p ∧ p.kind.isBoolean = true := by
  obtain ⟨e, he, -, rfl⟩ := h.proper.mem_of_get? found
  exact h.predicates e he

end Factors

/-- **Factors of predicates merge lawfully**, whichever way they overlap: the tables of the left side come
first and the new ones of the right side behind them. A table of one side keeps its predicate. One of both
sides keeps a predicate that they share, and else gets the operator on both, which accepts them. Merging is
idempotent, the empty factors change nothing, and factors of different tables may be swapped. -/
theorem factors_merged {op : Operator} (hop : op ∈ connectives) {F G : Factors} (hF : F.Obtained)
    (hG : G.Obtained) :
    (F.merge op G).nodes = F.nodes ++ G.nodes.filter (fun t => !F.has t) ∧
    (∀ t, G.has t = false → (F.merge op G).get? t = F.get? t) ∧
    (∀ t, F.has t = false → (F.merge op G).get? t = G.get? t) ∧
    (∀ t p q, F.get? t = some p → G.get? t = some q →
      (p.key = q.key → (F.merge op G).get? t = some p) ∧
      (p.key ≠ q.key → ∃ r, Feature.expr op [.feature p, .feature q] none = .ok r ∧
        (F.merge op G).get? t = some r)) ∧
    F.merge op F = F ∧ F.merge op .empty = F ∧ Factors.merge op .empty F = F ∧
    ((∀ t, F.has t = true → G.has t = false) → (F.merge op G).same (G.merge op F) = true) := by
  refine ⟨Factors.nodes_merge hG.proper, fun t new => ?_, fun t new => ?_, fun t p q hp hq => ⟨?_, ?_⟩,
    Factors.merge_self hF.proper, Factors.merge_empty, Factors.empty_merge hF.proper,
    Factors.merge_comm_of_disjoint hF.proper hG.proper⟩
  · rw [Factors.get?_merge hF.proper hG.proper, KeyedMap.get?_eq_none new]
    cases F.get? t <;> rfl
  · rw [Factors.get?_merge hF.proper hG.proper, KeyedMap.get?_eq_none new]
  · intro same
    rw [Factors.get?_merge hF.proper hG.proper, hp, hq]
    simp [unite, same]
  · intro differ
    refine ⟨_, Factors.expr_eq_ok hop (hF.predicate hp) (hG.predicate hq), ?_⟩
    rw [Factors.get?_merge hF.proper hG.proper, hp, hq]
    simp [unite, differ]

/-- Two conjunctions over two tables each, of which they share one: there they differ, and are united. The
other tables keep their predicates, and factors of these alone may be swapped. -/
theorem factors_merged_of_conjunctions :
    let table (t : String) : Schema := ⟨t, [(t, ⟨.primitive .boolean, t⟩)]⟩
    let column (t : String) : Feature := .element (.table (table t)) t (.primitive .boolean)
    let left : Feature := .expression .and [column "a", column "b"] none
    let right : Feature := .expression .and [.expression .not [column "b"] none, column "c"] none
    let merged := left.factors.merge .or right.factors
    merged.nodes.map Schema.name = ["a", "b", "c"] ∧
      (∃ p, left.factors.get? (table "a") = some p ∧ merged.get? (table "a") = some p) ∧
      (∃ p q r, left.factors.get? (table "b") = some p ∧ right.factors.get? (table "b") = some q ∧
        p.key ≠ q.key ∧ Feature.expr .or [.feature p, .feature q] none = .ok r ∧
        merged.get? (table "b") = some r) ∧
      (∃ p, right.factors.get? (table "c") = some p ∧ merged.get? (table "c") = some p) ∧
      left.factors.merge .or left.factors = left.factors ∧
      ((column "a").factors.merge .or (column "c").factors).same
        ((column "c").factors.merge .or (column "a").factors) = true := by
  intro table column left right merged
  have connective : Operator.or ∈ connectives := by decide
  obtain ⟨tables, own, new, both, self, -⟩ :=
    factors_merged connective (Factors.Obtained.of left) (Factors.Obtained.of right)
  obtain ⟨-, -, -, -, -, -, -, swapped⟩ :=
    factors_merged connective (Factors.Obtained.of (column "a")) (Factors.Obtained.of (column "c"))
  have entry {F : Factors} {t : String} (h : (F.get? (table t)).isSome = true) :
      ∃ p, F.get? (table t) = some p := Option.isSome_iff_exists.1 h
  obtain ⟨a, ha⟩ : ∃ p, left.factors.get? (table "a") = some p := entry (by decide +kernel)
  obtain ⟨p, hp⟩ : ∃ p, left.factors.get? (table "b") = some p := entry (by decide +kernel)
  obtain ⟨q, hq⟩ : ∃ p, right.factors.get? (table "b") = some p := entry (by decide +kernel)
  obtain ⟨c, hc⟩ : ∃ p, right.factors.get? (table "c") = some p := entry (by decide +kernel)
  have keys : (left.factors.get? (table "b")).map Feature.key ≠
      (right.factors.get? (table "b")).map Feature.key := by decide +kernel
  have differ : p.key ≠ q.key := by simpa [hp, hq] using keys
  obtain ⟨r, accepted, found⟩ := (both _ p q hp hq).2 differ
  refine ⟨tables ▸ by decide +kernel, ⟨a, ha, ?_⟩, ⟨p, q, r, hp, hq, differ, accepted, found⟩,
    ⟨c, hc, ?_⟩, self, swapped fun t known => ?_⟩
  · rw [own _ (by decide +kernel), ha]
  · rw [new _ (by decide +kernel), hc]
  · -- The only table of the first factors has another key than that of the second ones.
    have only : (column "a").factors.keys = [Keyed.key (table "a")] := by decide +kernel
    have same := (KeyedMap.has_iff_mem_keys _ t).1 known
    rw [only, List.mem_singleton] at same
    rw [KeyedMap.has_congr _ same]
    decide +kernel

end QueryAlgebra
