import QueryAlgebra.Proofs.Evaluation.Exclusive
import QueryAlgebra.Proofs.Evaluation.Pushdown
import QueryAlgebra.Proofs.Tree.Merging

/-!
# Conjunctions that are split by table

The factors of nested conjunctions are conjunctions again, of the sides that speak about one table. A side
that stands twice may be left out of a factor, so the value of the whole and those of the factors are
compared as conjunctions of one set of values.

* `Feature.conjuncts`: the sides of nested conjunctions; `Feature.ReadsOnly`: one that reads one table.
* `tables_of_conjunction`: the factors of a conjunction have the tables of its sides.
* `conjuncts_of_factors`: together they have its sides.
* `conjunction_congr`, `conjunction_flatten`: a conjunction depends on the set of its values alone.
* `conjunction_gives`: what the plan of a conjunction gives for a row.
* `tabular_served`: a feature of columns alone is translated without a fault.
* `conjunction_split`: a conjunction and its factors, for a translator that has worked before.
-/

namespace QueryAlgebra

open Evaluation Translation

/-- Repetitions are left out of some elements of a list as out of all of them. -/
theorem eraseDups_filter {α : Type} [BEq α] [LawfulBEq α] (p : α → Bool) :
    ∀ l : List α, (l.filter p).eraseDups = l.eraseDups.filter p
  | [] => rfl
  | a :: r => by
    have shorter : (r.filter fun b => !b == a).length < (a :: r).length :=
      Nat.lt_succ_of_le (List.length_filter_le _ _)
    rw [List.eraseDups_cons, List.filter_cons]
    cases h : p a with
    | true =>
      simp only [if_true, List.filter_cons, h]
      rw [List.eraseDups_cons, ← eraseDups_filter p, List.filter_filter, List.filter_filter]
      simp only [Bool.and_comm]
    | false =>
      simp only [Bool.false_eq_true, if_false, List.filter_cons, h]
      rw [← eraseDups_filter p, List.filter_filter]
      congr 1
      refine List.filter_congr fun b _ => ?_
      by_cases same : b = a <;> simp [same, h]
termination_by l => l.length
decreasing_by all_goals exact shorter

namespace Feature

/-! ### Sides of conjunctions -/

/-- The sides of nested conjunctions that are none themselves. -/
def conjuncts : Feature → List Feature
  | .aliased f _               => f.conjuncts
  | .expression .and [a, b] _  => a.conjuncts ++ b.conjuncts
  | f                          => [f]

/-- The feature is neither a conjunction nor has it another name. -/
structure IsConjunct (f : Feature) : Prop where
  plain : ∀ g n, f ≠ .aliased g n
  alone : ∀ a b k, f ≠ .expression .and [a, b] k

theorem IsConjunct.conjuncts {f : Feature} (h : f.IsConjunct) : f.conjuncts = [f] := by
  unfold Feature.conjuncts
  split
  · exact absurd rfl (h.plain _ _)
  · exact absurd rfl (h.alone _ _ _)
  · rfl

/-- Induction over nested conjunctions. -/
theorem conjunctInduction {P : Feature → Prop} (aliased : ∀ f n, P f → P (.aliased f n))
    (and : ∀ a b k, P a → P b → P (.expression .and [a, b] k)) (side : ∀ f, f.IsConjunct → P f)
    (f : Feature) : P f := by
  induction f using conjuncts.induct with
  | case1 f n ih => exact aliased f n ih
  | case2 a b k iha ihb => exact and a b k iha ihb
  | case3 f plain alone => exact side f ⟨plain, alone⟩

theorem IsConjunct.canonical {f : Feature} (h : f.IsConjunct) : f.canonical.IsConjunct where
  plain g n same := by
    cases f with
    | aliased g n => exact h.plain _ _ rfl
    | _ => simp [Feature.canonical] at same
  alone a b k same := by
    cases f with
    | expression op args t =>
      obtain ⟨rfl, args_eq, -⟩ := Feature.expression.inj same
      rw [canonicalFeatures_eq_map] at args_eq
      obtain ⟨c, r, rfl, -, rest⟩ := List.map_eq_cons_iff.1 args_eq
      obtain ⟨d, s, rfl, -, rest⟩ := List.map_eq_cons_iff.1 rest
      obtain rfl := List.map_eq_nil_iff.1 rest
      exact h.alone _ _ _ rfl
    | _ => simp [Feature.canonical] at same

theorem conjuncts_canonical : ∀ f : Feature, f.canonical.conjuncts = f.conjuncts.map canonical := by
  refine conjunctInduction (fun f n ih => ?_) (fun a b k iha ihb => ?_) fun f side => ?_
  · simpa [Feature.canonical, conjuncts] using ih
  · simp [Feature.canonical, canonicalFeatures, conjuncts, iha, ihb]
  · rw [side.conjuncts, side.canonical.conjuncts, List.map_singleton]

/-- Features with one key have sides with the same keys. -/
theorem key_conjuncts_of_key {f g : Feature} (hf : f.Obeys .distinct) (hg : g.Obeys .distinct)
    (same : f.key = g.key) : f.conjuncts.map key = g.conjuncts.map key := by
  have keys : ∀ h : Feature, h.conjuncts.map key = h.canonical.conjuncts.map key := by
    intro h
    rw [conjuncts_canonical, List.map_map]
    exact List.map_congr_left fun c _ => c.key_canonical.symm
  rw [keys f, keys g, canonical_eq_of_key hf hg same]

/-- The elements inside the sides are those inside the conjunction. -/
theorem elements_of_conjuncts {e : Feature} : ∀ f : Feature,
    e ∈ f.elements ↔ ∃ l ∈ f.conjuncts, e ∈ l.elements := by
  refine conjunctInduction (fun f n ih => ?_) (fun a b k iha ihb => ?_) fun f side => ?_
  · simpa [conjuncts, elements] using ih
  · simp [conjuncts, elements, elementsOf, iha, ihb, or_and_right, exists_or]
  · simp [side.conjuncts]

/-! ### Sides that read one table -/

/-- The feature reads columns of one table, and nothing else. -/
structure ReadsOnly (t : Schema) (f : Feature) : Prop where
  some : f.elements ≠ []
  all  : ∀ e ∈ f.elements, ∃ u, e.table? = Option.some u ∧ u.key = t.key

/-- Such a feature speaks about one table alone. -/
theorem ReadsOnly.tablesIn_eq {t : Schema} {f : Feature} (h : f.ReadsOnly t)
    (distinct : f.Obeys .distinct) : ∃ u, tablesIn f = [u] ∧ u.key = t.key := by
  have own : ∀ u ∈ tablesIn f, u.key = t.key := by
    intro u hu
    obtain ⟨n, k, he⟩ := column_of_tablesIn hu
    obtain ⟨v, same, key⟩ := h.all _ he
    exact Option.some.inj same ▸ key
  have found : tablesIn f ≠ [] := by
    obtain ⟨e, he⟩ := List.exists_mem_of_ne_nil _ h.some
    obtain ⟨u, table, -⟩ := h.all e he
    obtain ⟨c, hc, -⟩ := (key_mem_columnsIn (List.forall_mem_singleton.2 distinct)).2
      ⟨e, mem_columnsOf.2 ⟨f, List.mem_singleton_self f, mem_columns.2 ⟨he, by simp [table]⟩⟩, rfl⟩
    obtain ⟨v, hv⟩ := Option.isSome_iff_exists.1 (List.mem_filter.1 hc).2
    have known : (KeyedSet.ofList ((columnsIn [f]).filterMap table?)).hasKey v.key = true :=
      KeyedSet.hasKey_ofList.2 ⟨v, List.mem_filterMap.2 ⟨c, hc, hv⟩, rfl⟩
    obtain ⟨w, hw, -⟩ := (KeyedSet.Proper.ofList _).hasKey.1 known
    exact List.ne_nil_of_mem hw
  have once : ((tablesIn f).map Keyed.key).Nodup := (KeyedSet.Proper.ofList _).nodup_toList
  match eq : tablesIn f, found with
  | [u], _ => exact ⟨u, rfl, own u (eq ▸ List.mem_singleton_self u)⟩
  | u :: v :: r, _ =>
    rw [eq] at once own
    have same : Keyed.key u = Keyed.key v :=
      (own u (by simp)).trans (own v (by simp)).symm
    simp [same] at once

/-- The only factor of such a predicate is the predicate, if it is no conjunction. -/
theorem IsConjunct.factors {f : Feature} (side : f.IsConjunct) (boolean : f.kind.isBoolean = true)
    {u : Schema} (alone : tablesIn f = [u]) : f.factors = KeyedMap.empty.set u f := by
  have own : f.ownFactor = KeyedMap.empty.set u f := by
    unfold ownFactor
    rw [alone]
  unfold Feature.factors
  split
  · exact absurd rfl (side.plain _ _)
  · rename_i op a b k
    simp only [boolean, Bool.not_true, Bool.false_eq_true, if_false]
    split
    · exact absurd rfl (side.alone _ _ _)
    · simp only [alone]
    · exact own
  · rw [if_pos boolean, own]

end Feature

/-! ### Factors of conjunctions -/

section

variable {table : Feature → Schema}

/-- The factors of a conjunction are merged. -/
theorem Feature.factors_and (a b : Feature) (k : Option Kind) :
    (Feature.expression .and [a, b] k).factors = Factors.merge .and a.factors b.factors := rfl

/-- **The factors of a conjunction have the tables of its sides**, in the order of their first side. -/
theorem tables_of_conjunction : ∀ p : Feature, p.Built → p.Obeys .distinct →
    p.kind.isBoolean = true → (∀ l ∈ p.conjuncts, l.ReadsOnly (table l)) →
    p.factors.nodes.map Schema.key = (p.conjuncts.map fun l => (table l).key).eraseDups := by
  refine Feature.conjunctInduction (fun f n ih => ?_) (fun a b k iha ihb => ?_) fun f side => ?_
  · intro built distinct boolean reads
    exact ih built.inv_aliased.1 distinct.2 boolean reads
  · intro built distinct boolean reads
    obtain ⟨builta, booleana⟩ := built.connected (by decide) a (by simp)
    obtain ⟨builtb, booleanb⟩ := built.connected (by decide) b (by simp)
    obtain ⟨-, distincta, distinctb, -⟩ := distinct
    have lefts := iha builta distincta booleana fun l hl => reads l (by simp [Feature.conjuncts, hl])
    have rights := ihb builtb distinctb booleanb fun l hl => reads l (by simp [Feature.conjuncts, hl])
    have known : ∀ t : Schema, a.factors.has t
        = (a.conjuncts.map fun l => (table l).key).elem t.key := by
      intro t
      rw [Bool.eq_iff_iff, KeyedMap.has_iff_mem_keys, a.factors_proper.keys_eq, List.elem_eq_mem,
        decide_eq_true_iff, ← List.mem_eraseDups (l := a.conjuncts.map _), ← lefts]
      rfl
    rw [Feature.factors_and, Factors.nodes_merge b.factors_proper, List.map_append, lefts, Feature.conjuncts,
      List.map_append, List.eraseDups_append, List.removeAll, eraseDups_filter, ← rights, List.filter_map]
    congr 2
    exact List.filter_congr fun t _ => by simp [known]
  · intro built distinct boolean reads
    rw [side.conjuncts] at reads ⊢
    obtain ⟨u, alone, key⟩ := (reads f (by simp)).tablesIn_eq distinct
    rw [side.factors boolean alone]
    exact congrArg (fun k => [k]) key

/-- The sides of united predicates are theirs. -/
theorem mem_conjuncts_unite {f g l : Feature} (h : l ∈ (unite .and f g).conjuncts) :
    l ∈ f.conjuncts ∨ l ∈ g.conjuncts := by
  unfold unite at h
  split at h
  · exact .inl h
  · exact List.mem_append.1 h

/-- Each side of either predicate has its key among those of the sides of both united. -/
theorem key_conjuncts_unite {f g : Feature} (hf : f.Obeys .distinct) (hg : g.Obeys .distinct) {k : String}
    (h : k ∈ f.conjuncts.map Feature.key ∨ k ∈ g.conjuncts.map Feature.key) :
    k ∈ (unite .and f g).conjuncts.map Feature.key := by
  unfold unite
  split
  · rename_i same
    rwa [← Feature.key_conjuncts_of_key hf hg (beq_iff_eq.1 same), or_self] at h
  · rw [Feature.conjuncts, List.map_append]
    exact List.mem_append.2 h

/-- **The factors of a conjunction have its sides**, all of them together. -/
theorem conjuncts_of_factors : ∀ p : Feature, p.Built → p.Obeys .distinct → p.kind.isBoolean = true →
    (∀ l ∈ p.conjuncts, l.ReadsOnly (table l)) →
    (∀ e ∈ p.factors.toList, ∀ l ∈ e.2.conjuncts, l ∈ p.conjuncts) ∧
      ∀ l ∈ p.conjuncts, ∃ e ∈ p.factors.toList, l.key ∈ e.2.conjuncts.map Feature.key := by
  refine Feature.conjunctInduction (fun f n ih => ?_) (fun a b k iha ihb => ?_) fun f side => ?_
  · intro built distinct boolean reads
    exact ih built.inv_aliased.1 distinct.2 boolean reads
  · intro built distinct boolean reads
    obtain ⟨builta, booleana⟩ := built.connected (by decide) a (by simp)
    obtain ⟨builtb, booleanb⟩ := built.connected (by decide) b (by simp)
    obtain ⟨-, distincta, distinctb, -⟩ := distinct
    obtain ⟨ina, alla⟩ := iha builta distincta booleana fun l hl => reads l (by simp [Feature.conjuncts, hl])
    obtain ⟨inb, allb⟩ := ihb builtb distinctb booleanb fun l hl => reads l (by simp [Feature.conjuncts, hl])
    have proper := Factors.merge_proper a.factors_proper .and b.factors
    rw [Feature.factors_and, Feature.conjuncts]
    refine ⟨Factors.merge_entries (R := fun _ q => ∀ l ∈ q.conjuncts, l ∈ a.conjuncts ++ b.conjuncts)
      (fun _ _ _ _ _ hp hq l hl => (mem_conjuncts_unite hl).elim (hp l) (hq l)) a.factors_proper
      (fun e he l hl => List.mem_append_left _ (ina e he l hl))
      fun e he l hl => List.mem_append_right _ (inb e he l hl), fun l hl => ?_⟩
    -- What a table is given has the sides of the factor on either side.
    have merged : ∀ t k, ((∃ q, a.factors.get? t = some q ∧ k ∈ q.conjuncts.map Feature.key) ∨
        ∃ q, b.factors.get? t = some q ∧ k ∈ q.conjuncts.map Feature.key) →
        ∃ e ∈ (Factors.merge .and a.factors b.factors).toList, k ∈ e.2.conjuncts.map Feature.key := by
      intro t k known
      have given : ∃ q, (Factors.merge .and a.factors b.factors).get? t = some q ∧
          k ∈ q.conjuncts.map Feature.key := by
        rw [Factors.get?_merge a.factors_proper b.factors_proper]
        cases ha : a.factors.get? t with
        | none => simpa [ha] using known
        | some f =>
          cases hb : b.factors.get? t with
          | none => simpa [ha, hb] using known
          | some g =>
            refine ⟨_, rfl, key_conjuncts_unite (factor_distinct distincta ha) (factor_distinct distinctb hb) ?_⟩
            simpa only [ha, hb, Option.some.injEq, exists_eq_left'] using known
      obtain ⟨q, found, hk⟩ := given
      obtain ⟨e, he, -, rfl⟩ := proper.mem_of_get? found
      exact ⟨e, he, hk⟩
    rcases List.mem_append.1 hl with hl | hl
    · obtain ⟨e, he, hk⟩ := alla l hl
      exact merged e.1 l.key (.inl ⟨e.2, a.factors_proper.get?_of_mem he, hk⟩)
    · obtain ⟨e, he, hk⟩ := allb l hl
      exact merged e.1 l.key (.inr ⟨e.2, b.factors_proper.get?_of_mem he, hk⟩)
  · intro built distinct boolean reads
    rw [side.conjuncts] at reads ⊢
    obtain ⟨u, alone, -⟩ := (reads f (by simp)).tablesIn_eq distinct
    have entries : f.factors.toList = [(u, f)] := by rw [side.factors boolean alone]; rfl
    simp [entries, side.conjuncts]

end

/-! ### Conjunctions of values -/

namespace Evaluation

theorem conjunction_isFalse (vs : List Value) :
    (conjunction vs).isBool false = vs.any (Value.isBool false) := by
  unfold conjunction
  split
  · rename_i h
    rw [h]
    rfl
  · rename_i h
    rw [Bool.not_eq_true] at h
    rw [h]
    split <;> rfl

theorem conjunction_isNull (vs : List Value) :
    (conjunction vs).isNull = (!vs.any (Value.isBool false) && vs.any Value.isNull) := by
  unfold conjunction
  cases vs.any (Value.isBool false) <;> cases vs.any Value.isNull <;> rfl

/-- **A conjunction depends on the set of its values alone.** -/
theorem conjunction_congr {vs ws : List Value} (h : ∀ v, v ∈ vs ↔ v ∈ ws) :
    conjunction vs = conjunction ws := by
  have any : ∀ p : Value → Bool, vs.any p = ws.any p := fun p => by
    rw [Bool.eq_iff_iff, List.any_eq_true, List.any_eq_true]
    exact exists_congr fun v => and_congr_left fun _ => h v
  rw [conjunction, conjunction, any, any]

/-- **A conjunction of conjunctions** is that of all their values. -/
theorem conjunction_flatten (vss : List (List Value)) :
    conjunction (vss.map conjunction) = conjunction vss.flatten := by
  have falses : (vss.map conjunction).any (Value.isBool false) = vss.flatten.any (Value.isBool false) := by
    simp [List.any_map, Function.comp_def, conjunction_isFalse, List.any_flatten]
  rw [conjunction, conjunction, falses]
  cases h : vss.flatten.any (Value.isBool false) with
  | true => rfl
  | false =>
    have nulls : (vss.map conjunction).any Value.isNull = vss.flatten.any Value.isNull := by
      rw [List.any_flatten, List.any_eq_false] at h
      rw [List.any_map, List.any_flatten, Bool.eq_iff_iff, List.any_eq_true, List.any_eq_true]
      refine exists_congr fun vs => and_congr_right fun hvs => ?_
      simp [conjunction_isNull, Bool.eq_false_iff.2 (h vs hvs)]
    rw [nulls]

theorem conjunction_truth (vs : List Value) : Truth (conjunction vs) := by
  unfold conjunction
  split
  · exact .inr ⟨_, rfl⟩
  · split
    · exact .inl rfl
    · exact .inr ⟨_, rfl⟩

theorem conjunction_singleton {v : Value} (h : Truth v) : conjunction [v] = v := by
  rcases h with rfl | ⟨_ | _, rfl⟩ <;> rfl

/-- A conjunction is true if none of its values is false or empty. -/
theorem conjunction_isTrue {vs : List Value} (truth : ∀ v ∈ vs, Truth v) :
    (conjunction vs).isBool true = true ↔ ∀ v ∈ vs, v.isBool true = true := by
  have each : ∀ v, Truth v → (v.isBool true = true ↔ v.isBool false = false ∧ v.isNull = false) := by
    rintro v (rfl | ⟨_ | _, rfl⟩) <;> decide
  rw [each _ (conjunction_truth vs), conjunction_isFalse, conjunction_isNull]
  constructor
  · rintro ⟨falses, nulls⟩ v hv
    rw [falses, Bool.not_false, Bool.true_and] at nulls
    rw [each v (truth v hv)]
    exact ⟨by simpa using List.any_eq_false.1 falses v hv, by simpa using List.any_eq_false.1 nulls v hv⟩
  · intro all
    have falses : vs.any (Value.isBool false) = false := List.any_eq_false.2 fun v hv => by
      simp [((each v (truth v hv)).1 (all v hv)).1]
    have nulls : vs.any Value.isNull = false := List.any_eq_false.2 fun v hv => by
      simp [((each v (truth v hv)).1 (all v hv)).2]
    simp [falses, nulls]

/-! ### Plans of conjunctions -/

/-- The plan has values on the batch, and this one at the position. -/
def FeaturePlan.Gives (x : FeaturePlan) (b : Batch) (i : Nat) (v : Value) : Prop :=
  ∃ vs, x.values b = .ok vs ∧ Dataset.item vs i = v

namespace FeaturePlan

variable {x y : FeaturePlan} {b : Batch} {i : Nat} {v w : Value}

theorem Gives.holds_iff (h : x.Gives b i v) : x.Holds b i ↔ v.isBool true = true := by
  obtain ⟨vs, hvs, rfl⟩ := h
  exact ⟨fun ⟨ws, hws, ht⟩ => Except.ok.inj (hvs.symm.trans hws) ▸ ht, fun ht => ⟨vs, hvs, ht⟩⟩

/-- The conjunction of two plans gives that of their values. -/
theorem Gives.and (hx : x.Gives b i v) (hy : y.Gives b i w) (k : Kind) (hi : i < b.size) :
    (rowWise .and [x, y] k).Gives b i (conjunction [v, w]) := by
  obtain ⟨vs, hvs, rfl⟩ := hx
  obtain ⟨ws, hws, rfl⟩ := hy
  refine ⟨_, (rowWise_values (by decide) x y k b _).2 ⟨vs, ws, hvs, hws, rfl⟩, ?_⟩
  simp [Dataset.item, List.getD, hi, connective]

end FeaturePlan

/-- **The plan of a conjunction gives the conjunction of what the plans of its sides give.** -/
theorem conjunction_gives {sources : KeyedMap Source SourcePlan} {m : List (String × FeaturePlan)}
    (hm : (kept sources).memo m) {b : Batch} {i : Nat} (hi : i < b.size) (v : String → Value) :
    ∀ p : Feature, p.Obeys .distinct →
      (∀ l ∈ p.conjuncts, Truth (v l.key) ∧ ∀ y, Remembers m l.key y → y.Gives b i (v l.key)) →
      ∀ x, Remembers m p.key x → x.Gives b i (conjunction (p.conjuncts.map fun l => v l.key)) := by
  refine Feature.conjunctInduction (fun f n ih => ?_) (fun f g k ihf ihg => ?_) fun f side => ?_
  · intro distinct sides x hx
    obtain ⟨y, hy, rfl⟩ := (hm _ _ hx).aliased distinct
    exact ih distinct.2 sides y hy
  · intro distinct sides x hx
    obtain ⟨y, z, l, hy, hz, rfl⟩ := connective_stems hm (by decide) distinct hx
    obtain ⟨-, distinctf, distinctg, -⟩ := distinct
    obtain ⟨left, right⟩ := List.forall_mem_append.1 sides
    have both := (ihf distinctf left y hy).and (ihg distinctg right z hz) l hi
    have values := conjunction_flatten
      [f.conjuncts.map fun l => v l.key, g.conjuncts.map fun l => v l.key]
    simp only [List.map_cons, List.map_nil, List.flatten_cons, List.flatten_nil, List.append_nil] at values
    rw [Feature.conjuncts, List.map_append, ← values]
    exact both
  · intro distinct sides x hx
    rw [side.conjuncts] at sides ⊢
    obtain ⟨truth, gives⟩ := sides f (by simp)
    rw [List.map_singleton, conjunction_singleton truth]
    exact gives x hx

/-! ### Translations -/

/-- Symbols are provided for the sources alone. -/
theorem backend_provides (sources : KeyedMap Source SourcePlan) :
    (backend sources .empty).Provides ⟨sources.keys, []⟩ where
  sources s := sources.isSome_get? s
  features f := (KeyedMap.empty : KeyedMap Feature FeaturePlan).isSome_get? f
  table _ := ⟨_, rfl⟩

/-- No feature of columns of tables is refused that holds no window. -/
theorem accepted_of_tabular (sources : KeyedMap Source SourcePlan) : ∀ f : Feature, f.Tabular →
    (f.Throughout fun g => g.isCollective = false) → f.Obeys (.acceptedBy (backend sources .empty)) := by
  refine Feature.childInduction fun f ih tabular single => ?_
  have parts : ∀ c ∈ f.children, c.Obeys (.acceptedBy (backend sources .empty)) := fun c hc =>
    ih c hc (fun e he => tabular e (Feature.elements_of_child hc he)) (single.parts c hc)
  cases f with
  | aliased f n => exact ⟨trivial, parts f (by simp [Feature.children])⟩
  | literal v k => exact ⟨_, rfl⟩
  | element s n k =>
    obtain ⟨t, ht⟩ := Option.isSome_iff_exists.1 (tabular (.element s n k) (by simp [Feature.elements]))
    obtain ⟨_, _, same⟩ := Feature.table?_eq_some ht
    obtain ⟨rfl, -, -⟩ := Feature.element.inj same
    exact ⟨trivial, trivial⟩
  | expression op args t => exact ⟨fun _ => ⟨_, rfl⟩, featuresObey_iff.2 parts⟩
  | window fn ps os fr =>
    have own := single.own
    simp [Feature.isCollective, Feature.isWindow] at own

/-- The sides of a conjunction that is remembered are. -/
theorem conjuncts_remembered {sources : KeyedMap Source SourcePlan} {m : List (String × FeaturePlan)}
    (hm : (kept sources).memo m) : ∀ p : Feature, p.Obeys .distinct → ∀ x, Remembers m p.key x →
      ∀ l ∈ p.conjuncts, ∃ y, Remembers m l.key y := by
  refine Feature.conjunctInduction (fun f n ih => ?_) (fun f g k ihf ihg => ?_) fun f side => ?_
  · intro distinct x hx
    obtain ⟨y, hy, -⟩ := (hm _ _ hx).aliased distinct
    exact ih distinct.2 y hy
  · intro distinct x hx
    obtain ⟨y, z, -, hy, hz, -⟩ := connective_stems hm (by decide) distinct hx
    obtain ⟨-, distinctf, distinctg, -⟩ := distinct
    exact List.forall_mem_append.2 ⟨ihf distinctf y hy, ihg distinctg z hz⟩
  · intro _ x hx
    rw [side.conjuncts]
    simpa using ⟨x, hx⟩

/-- Where a predicate is remembered, each factor of it is translated without a fault, and what was remembered
stays so. -/
theorem factor_served {sources : KeyedMap Source SourcePlan} {t : Translator SourcePlan FeaturePlan}
    (hb : t.backend = backend sources .empty) (hI : (kept sources).Holds t.state.bench) {p : Feature}
    (distinct : p.Obeys .distinct) {x : FeaturePlan} (hx : Remembers t.state.memo p.key x) {q : Feature}
    (hq : q ∈ p.factors.values) :
    ∃ (y : FeaturePlan) (m : List (String × FeaturePlan)),
      (t.serve (.symbolOf (.feature q))).1 = .ok (some (.feature y)) ∧ q.Obeys .distinct ∧
      (kept sources).memo m ∧ Remembers m q.key y ∧
      ∀ k z, Remembers t.state.memo k z → Remembers m k z := by
  have lawful := stemming_lawful (backend sources .empty).visits_any
  obtain ⟨⟨u, q⟩, he, rfl⟩ := KeyedMap.mem_values.1 hq
  have entry := p.factors_proper.get?_of_mem he
  have hw : (kept sources).Holds t.cleared.state.bench := ⟨hI.memo, hI.origins, hI.tables⟩
  obtain ⟨y, hy⟩ := factor_recalled u p distinct q entry _ hw ⟨x, hx⟩
  have recalled := lawful.recalls q (factor_distinct distinct entry) _ hw
  refine ⟨y, _, ?_, factor_distinct distinct entry, recalled.holds.memo, recalled.ok y hy,
    fun k z hz => recalled.stays k z hz⟩
  rw [Translator.serve_symbolOf_feature, hb]
  exact congrArg (Except.map _) hy

/-- A feature of columns alone, without aggregates and windows, is translated without a fault. -/
theorem tabular_served {sources : KeyedMap Source SourcePlan} {history : List Tree}
    (known : ∀ tree ∈ history, tree.Obeys .distinct) {p : Feature} (distinct : p.Obeys .distinct)
    (tabular : p.Tabular) (single : p.Throughout fun f => f.isCollective = false) :
    ∃ plan t, (translatorAfter sources history).serve (.symbolOf (.feature p))
      = (.ok (some (.feature plan)), t) := by
  obtain ⟨hb, -, closed⟩ := (closedMemo_lawful (backend sources .empty)).after_holds known
    (t := .ofBackend (backend sources .empty)) rfl State.clean_fresh
    ⟨fun _ _ ⟨_, hx⟩ => (nomatch hx), trivial, Readings.All.empty⟩
  -- It asks for columns of tables alone, and those are there.
  obtain ⟨plan, translated, -⟩ := (recall_settles (backend_provides sources) p distinct
    (accepted_of_tabular sources p tabular single) _ _ _ _ (Sees.of_closed _
      (w := (translatorAfter sources history).cleared.state.bench) closed.memo)).1
    fun e he => Feature.found_of_table (tabular e he)
  refine ⟨plan, _, Prod.ext ?_ rfl⟩
  rw [Translator.serve_symbolOf_feature, translatorAfter, hb]
  exact congrArg (Except.map _) translated

/-- Sides with one key have one plan, and so one value. -/
theorem exists_values_by_key {m : List (String × FeaturePlan)} {b : Batch} {i : Nat} {ls : List Feature}
    {side : Feature → FeaturePlan} (hside : ∀ l ∈ ls, Remembers m l.key (side l)) {v : Feature → Value}
    (gives : ∀ l ∈ ls, Truth (v l) ∧ (side l).Gives b i (v l)) :
    ∃ u : String → Value, ∀ l ∈ ls, Truth (u l.key) ∧
      ∀ y, Remembers m l.key y → y.Gives b i (u l.key) := by
  have values : ∀ k, ∃ u, ∀ l ∈ ls, l.key = k → Truth u ∧ ∀ y, Remembers m k y → y.Gives b i u := by
    intro k
    by_cases hk : ∃ l ∈ ls, l.key = k
    · obtain ⟨l, hl, rfl⟩ := hk
      refine ⟨v l, fun _ _ _ => ⟨(gives l hl).1, fun y hy => ?_⟩⟩
      exact Option.some.inj ((hside l hl).symm.trans hy) ▸ (gives l hl).2
    · exact ⟨.null, fun l hl same => absurd ⟨l, hl, same⟩ hk⟩
  choose u hu using values
  exact ⟨u, fun l hl => hu l.key l hl rfl⟩

/-- The conjunction of the values of the factors is that of the values of all sides. -/
theorem conjunction_of_factors {p : Feature} (built : p.Built) (distinct : p.Obeys .distinct)
    (boolean : p.kind.isBoolean = true) {table : Feature → Schema}
    (reads : ∀ l ∈ p.conjuncts, l.ReadsOnly (table l)) (u : String → Value) :
    conjunction (p.factors.values.map fun q => conjunction (q.conjuncts.map fun l => u l.key))
      = conjunction (p.conjuncts.map fun l => u l.key) := by
  obtain ⟨within, whole⟩ := conjuncts_of_factors p built distinct boolean reads
  have flat := conjunction_flatten (p.factors.values.map fun q => q.conjuncts.map fun l => u l.key)
  rw [List.map_map] at flat
  refine flat.trans (conjunction_congr fun x => ?_)
  simp only [List.mem_flatten, List.mem_map]
  constructor
  · rintro ⟨_, ⟨q, hq, rfl⟩, hx⟩
    obtain ⟨e, he, rfl⟩ := KeyedMap.mem_values.1 hq
    obtain ⟨l, hl, rfl⟩ := List.mem_map.1 hx
    exact ⟨l, within e he l hl, rfl⟩
  · rintro ⟨l, hl, rfl⟩
    obtain ⟨e, he, hk⟩ := whole l hl
    obtain ⟨l', hl', same⟩ := List.mem_map.1 hk
    exact ⟨_, ⟨e.2, KeyedMap.mem_values.2 ⟨e, he, rfl⟩, rfl⟩, List.mem_map.2 ⟨l', hl', congrArg u same⟩⟩

/-- **Conjunctions are split without loss.** If each side reads columns of one table alone, the factors have
the tables of the sides in order. The conjunction and its factors are translated without a fault, and where
the sides have truth values or empty ones, the value of the whole is the conjunction of those of the
factors. So the rows that all factors keep are those that it keeps. -/
theorem conjunction_split {sources : KeyedMap Source SourcePlan} {history : List Tree}
    (known : ∀ tree ∈ history, tree.Obeys .distinct) {p : Feature} (built : p.Built)
    (free : p.Obeys .structFree) (boolean : p.kind.isBoolean = true)
    (single : p.Throughout fun f => f.isCollective = false) {table : Feature → Schema}
    (reads : ∀ l ∈ p.conjuncts, l.ReadsOnly (table l)) :
    p.factors.nodes.map Schema.key = (p.conjuncts.map fun l => (table l).key).eraseDups ∧
    ∃ plan t, (translatorAfter sources history).serve (.symbolOf (.feature p))
      = (.ok (some (.feature plan)), t) ∧
    ∃ side factor : Feature → FeaturePlan,
      (∀ l ∈ p.conjuncts, (t.serve (.symbolOf (.feature l))).1 = .ok (some (.feature (side l)))) ∧
      (∀ q ∈ p.factors.values, (t.serve (.symbolOf (.feature q))).1 = .ok (some (.feature (factor q)))) ∧
      ∀ (b : Batch) (i : Nat), i < b.size → ∀ v : Feature → Value,
        (∀ l ∈ p.conjuncts, Truth (v l) ∧ (side l).Gives b i (v l)) →
        ∃ w : Feature → Value, (∀ q ∈ p.factors.values, (factor q).Gives b i (w q)) ∧
          plan.Gives b i (conjunction (p.factors.values.map w)) ∧
          (plan.Holds b i ↔ ∀ q ∈ p.factors.values, (factor q).Holds b i) := by
  have lawful := stemming_lawful (backend sources .empty).visits_any
  have distinct := built.distinct free
  refine ⟨tables_of_conjunction p built distinct boolean reads, ?_⟩
  obtain ⟨hb, clean, hI⟩ := lawful.after_holds known (t := .ofBackend (backend sources .empty)) rfl
    State.clean_fresh ⟨nofun, trivial, Readings.All.empty⟩
  have tabular : p.Tabular := by
    intro e he
    obtain ⟨l, hl, inside⟩ := (Feature.elements_of_conjuncts p).1 he
    obtain ⟨u, hu, -⟩ := (reads l hl).all e inside
    exact Option.isSome_iff_exists.2 ⟨u, hu⟩
  obtain ⟨plan, t, served⟩ := tabular_served known distinct tabular single
  obtain ⟨hb, -, hI, hx⟩ := lawful.keptBy.recalled hb clean hI distinct served
  have : Nonempty FeaturePlan := ⟨plan⟩
  choose! side hside using conjuncts_remembered hI.memo p distinct plan hx
  choose! factor memo hfactor using fun q (hq : q ∈ p.factors.values) =>
    factor_served hb hI distinct hx hq
  refine ⟨plan, t, served, side, factor, fun l hl => ?_, fun q hq => (hfactor q hq).1,
    fun b i hi v gives => ?_⟩
  · rw [Translator.serve_remembered (hside l hl)]
  obtain ⟨u, hu⟩ := exists_values_by_key hside gives
  let w : Feature → Value := fun q => conjunction (q.conjuncts.map fun l => u l.key)
  have hw : ∀ q ∈ p.factors.values, (factor q).Gives b i (w q) := by
    intro q hq
    obtain ⟨-, qd, hm, hy, stays⟩ := hfactor q hq
    refine conjunction_gives hm hi u q qd (fun l hl => ?_) _ hy
    obtain ⟨e, he, rfl⟩ := KeyedMap.mem_values.1 hq
    have inside := (conjuncts_of_factors p built distinct boolean reads).1 e he l hl
    obtain ⟨truth, given⟩ := hu l inside
    refine ⟨truth, fun y hy => ?_⟩
    obtain rfl : side l = y := Option.some.inj ((stays _ _ (hside l inside)).symm.trans hy)
    exact given _ (hside l inside)
  have given : plan.Gives b i (conjunction (p.factors.values.map w)) :=
    conjunction_of_factors built distinct boolean reads u ▸
      conjunction_gives hI.memo hi u p distinct hu plan hx
  refine ⟨w, hw, given, ?_⟩
  rw [given.holds_iff, conjunction_isTrue (List.forall_mem_map.2 fun q _ => conjunction_truth _),
    List.forall_mem_map]
  exact forall_congr' fun q => imp_congr_right fun hq => ((hw q hq).holds_iff).symm

theorem FeaturePlan.Holds.gives {x : FeaturePlan} {b : Batch} {i : Nat} (h : x.Holds b i) :
    x.Gives b i (.bool true) := by
  obtain ⟨vs, hvs, holds⟩ := h
  exact ⟨vs, hvs, eq_of_isTrue holds⟩

/-- A conjunction over two tables, in which one side stands twice. -/
theorem conjunction_split_of_repeated :
    let student : Schema := ⟨"student", [("score", ⟨.primitive .float, "score"⟩)]⟩
    let school : Schema := ⟨"school", [("name", ⟨.primitive .string, "name"⟩)]⟩
    let scored : Feature := .expression .notNull [.element (.table student) "score" (.primitive .float)] none
    let named : Feature := .expression .notNull [.element (.table school) "name" (.primitive .string)] none
    let p : Feature := .expression .and [scored, .expression .and [named, scored] none] none
    let row : Batch := .ofData ⟨[⟨"score", some "student"⟩, ⟨"name", some "school"⟩],
      [[.bool true], [.text "Alpha"]], 1⟩
    p.factors.nodes.map Schema.key = [student.key, school.key, student.key].eraseDups ∧
      ∃ plan t, (translatorAfter .empty []).serve (.symbolOf (.feature p)) = (.ok (some (.feature plan)), t) ∧
        plan.Holds row 0 ∧ ∀ q ∈ p.factors.values, ∃ factor,
          (t.serve (.symbolOf (.feature q))).1 = .ok (some (.feature factor)) ∧ factor.Holds row 0 := by
  intro student school scored named p row
  have hstudent : (Source.table student).Built := .of_distinct rfl
  have hschool : (Source.table school).Built := .of_distinct rfl
  have hscored : scored.Built := built_test hstudent rfl rfl
  have hnamed : named.Built := built_test hschool rfl rfl
  have built : p.Built := built_pair hscored (built_pair hnamed hscored rfl) rfl
  have hs : (Source.table student).Obeys .structFree := structFree_table rfl
  have ht : (Source.table school).Obeys .structFree := structFree_table rfl
  have plain : ∀ (op : Operator) (fs : List Feature),
      Rules.structFree.feature (.expression op fs none) := by simp [Rules.structFree]
  have free : p.Obeys .structFree :=
    ⟨plain _ _, ⟨plain _ _, ⟨trivial, hs⟩, trivial⟩, ⟨plain _ _, ⟨plain _ _, ⟨trivial, ht⟩, trivial⟩,
      ⟨plain _ _, ⟨trivial, hs⟩, trivial⟩, trivial⟩, trivial⟩
  have single := Feature.throughout_of_hasCollective (built.distinct free) (by decide +kernel)
  let table : Feature → Schema := fun l => (l.elements.head?.bind Feature.table?).getD student
  have test : ∀ (t : Schema) (n : String) (k : Kind),
      (Feature.expression .notNull [.element (.table t) n k] none).ReadsOnly t := fun t n k =>
    ⟨by simp [Feature.elements, elementsOf], by simp [Feature.elements, elementsOf, Feature.table?]⟩
  have each : ∀ {P : Feature → Prop}, P scored → P named → ∀ l ∈ p.conjuncts, P l := by
    intro P first second l hl
    rcases List.mem_cons.1 hl with rfl | hl
    · exact first
    · rcases List.mem_pair.1 hl with rfl | rfl
      · exact second
      · exact first
  have reads : ∀ l ∈ p.conjuncts, l.ReadsOnly (table l) :=
    each (test student _ _) (test school _ _)
  obtain ⟨tables, plan, t, served, side, factor, sides, factors, split⟩ :=
    @conjunction_split .empty [] (by simp) p built free rfl single table reads
  have holds : ∀ l ∈ p.conjuncts, (side l).Holds row 0 := by
    have after : t = ((translatorAfter .empty []).serve (.symbolOf (.feature p))).2 := by rw [served]
    subst after
    have kept : ∀ l ∈ p.conjuncts, truthAt (((translatorAfter .empty []).serve
        (.symbolOf (.feature p))).2.serve (.symbolOf (.feature l))).1 row 0 = some true :=
      each (by decide +kernel) (by decide +kernel)
    intro l hl
    obtain ⟨x, same, holds⟩ := holds_of_truthAt (kept l hl)
    obtain rfl : x = side l := by simpa using same.symm.trans (sides l hl)
    exact holds.2 rfl
  obtain ⟨-, -, -, all⟩ := split row 0 (by decide) (fun _ => .bool true) fun l hl =>
    ⟨.inr ⟨_, rfl⟩, (holds l hl).gives⟩
  have kept : truthAt ((translatorAfter .empty []).serve (.symbolOf (.feature p))).1 row 0 = some true := by
    decide +kernel
  obtain ⟨x, same, kept⟩ := holds_of_truthAt kept
  obtain rfl : x = plan := by simpa [served] using same.symm
  exact ⟨tables, x, t, served, kept.2 rfl, fun q hq => ⟨factor q, factors q hq, all.1 (kept.2 rfl) q hq⟩⟩

end Evaluation

end QueryAlgebra
