import QueryAlgebra.Proofs.Tree.Elements

/-!
# Where factors come from

* `Feature.factorFrom`: factors are made out of predicates that speak about one table alone.
* `FactorFrom.boolean`, `FactorFrom.inside`: they are predicates, and what lies inside them lies inside the
  predicate; `Feature.factors_forall`: what passes from predicates on to their factors.
* `Factors.merge_cases`: a merged factor is one of a side, or both sides have one and they are united.
* `Feature.factor_cases`: so is the factor of any predicate, unless it is the whole predicate.
* `Feature.Covers`: no disjunction over several tables has the factor from one side alone.
-/

namespace QueryAlgebra

/-! ### Merged factors -/

namespace Factors

theorem get?_add_self (op : Operator) (fs : Factors) (t : Schema) (p : Feature) :
    (add op fs t p).get? t = some ((fs.get? t).elim p fun q => unite op q p) := by
  unfold add
  cases fs.get? t <;> exact KeyedMap.get?_set_self _ _ _

theorem get?_add_of_ne (op : Operator) (fs : Factors) {t u : Schema} (p : Feature)
    (h : Keyed.key u ≠ Keyed.key t) : (add op fs t p).get? u = fs.get? u := by
  unfold add
  split <;> exact KeyedMap.get?_set_of_ne _ _ h

theorem add_proper {fs : Factors} (h : fs.Proper) (op : Operator) (t : Schema) (p : Feature) :
    (add op fs t p).Proper := by
  unfold add
  split <;> exact h.set _ _

theorem merge_proper {fs : Factors} (h : fs.Proper) (op : Operator) (gs : Factors) :
    (merge op fs gs).Proper := by
  unfold merge
  generalize gs.toList = es
  induction es generalizing fs with
  | nil => exact h
  | cons e r ih => exact ih (add_proper h op e.1 e.2)

/-- After a table is given a predicate its entry is new, or unites the predicate it had with that one. -/
theorem mem_add {fs : Factors} (proper : fs.Proper) {op : Operator} {t : Schema} {p : Feature}
    {e : Schema × Feature} (he : e ∈ (add op fs t p).toList) : e ∈ fs.toList ∨ e = (t, p) ∨
      ∃ q, (e.1, q) ∈ fs.toList ∧ Keyed.key e.1 = Keyed.key t ∧ e.2 = unite op q p := by
  unfold add at he
  cases found : fs.get? t with
  | none =>
    have new : fs.entry? (Keyed.key t) = none := Option.map_eq_none_iff.1 found
    simp only [found] at he
    rcases KeyedMap.mem_set he with he | he
    · exact .inr (.inl (by simpa [new] using he))
    · exact .inl he
  | some q =>
    obtain ⟨x, hx, rfl⟩ := Option.map_eq_some_iff.1 found
    have hmem := KeyedMap.mem_of_find? hx
    have held : x ∈ fs.toList := List.mem_map.2 ⟨(Keyed.key t, x), hmem, rfl⟩
    have key : Keyed.key x.1 = Keyed.key t := proper.keyed (Keyed.key t, x) hmem
    simp only [found] at he
    rcases KeyedMap.mem_set he with he | he
    · obtain rfl : e = (x.1, unite op x.2 p) := by simpa [hx] using he
      exact .inr (.inr ⟨x.2, held, key, rfl⟩)
    · exact .inl he

/-- What holds of the entries of both sides holds of the merged ones, if it passes on to predicates that are
united. -/
theorem merge_entries {op : Operator} {R : Schema → Feature → Prop}
    (united : ∀ t u p q, Keyed.key t = Keyed.key u → R t p → R u q → R t (unite op p q)) {fs gs : Factors}
    (proper : fs.Proper) (hf : ∀ e ∈ fs.toList, R e.1 e.2) (hg : ∀ e ∈ gs.toList, R e.1 e.2) :
    ∀ e ∈ (merge op fs gs).toList, R e.1 e.2 := by
  unfold merge
  generalize gs.toList = es at hg
  induction es generalizing fs with
  | nil => exact hf
  | cons d r ih =>
    obtain ⟨hd, hr⟩ := List.forall_mem_cons.1 hg
    refine ih (add_proper proper op d.1 d.2) (fun e he => ?_) hr
    rcases mem_add proper he with he | rfl | ⟨q, he, key, same⟩
    · exact hf e he
    · exact hd
    · exact same ▸ united _ _ _ _ key (hf _ he) hd

/-- A factor that is merged from two sides: it is that of the only side that has one, or both sides
have one and they are united. -/
inductive Merged (op : Operator) : Option Feature → Option Feature → Feature → Prop where
  | left  (p : Feature) : Merged op (some p) none p
  | right (q : Feature) : Merged op none (some q) q
  | both  (p q : Feature) : Merged op (some p) (some q) (unite op p q)

theorem merge_cases {op : Operator} {fs gs : Factors} (proper : gs.Proper) {t : Schema} {p : Feature}
    (h : (merge op fs gs).get? t = some p) : Merged op (fs.get? t) (gs.get? t) p := by
  have fold : ∀ (es : List (Schema × Feature)), (es.map fun e => Keyed.key e.1).Nodup →
      ∀ fs : Factors, (es.foldl (fun acc e => add op acc e.1 e.2) fs).get? t = some p →
      ((∀ e ∈ es, Keyed.key e.1 ≠ Keyed.key t) ∧ fs.get? t = some p) ∨
        ∃ e ∈ es, Keyed.key e.1 = Keyed.key t ∧ Merged op (fs.get? t) (some e.2) p := by
    intro es
    induction es with
    | nil => exact fun _ fs h => .inl ⟨by simp, h⟩
    | cons e r ih =>
      intro once fs h
      obtain ⟨new, once⟩ := List.nodup_cons.1 once
      by_cases hkey : Keyed.key e.1 = Keyed.key t
      · -- No later entry has the key.
        have later : ∀ d ∈ r, Keyed.key d.1 ≠ Keyed.key t := fun d hd hdt =>
          new (List.mem_map.2 ⟨d, hd, hdt.trans hkey.symm⟩)
        rcases ih once _ h with ⟨_, h⟩ | ⟨d, hd, hdt, _⟩
        · rw [KeyedMap.get?_congr _ hkey.symm, get?_add_self] at h
          refine .inr ⟨e, List.mem_cons_self, hkey, ?_⟩
          rw [fs.get?_congr hkey.symm]
          obtain rfl := Option.some.inj h
          cases fs.get? e.1 with
          | none => exact .right _
          | some q => exact .both _ _
        · exact absurd hdt (later d hd)
      · rcases ih once _ h with ⟨none, h⟩ | ⟨d, hd, hdt, merged⟩
        · rw [get?_add_of_ne op fs e.2 (Ne.symm hkey)] at h
          exact .inl ⟨List.forall_mem_cons.2 ⟨hkey, none⟩, h⟩
        · rw [get?_add_of_ne op fs e.2 (Ne.symm hkey)] at merged
          exact .inr ⟨d, List.mem_cons_of_mem _ hd, hdt, merged⟩
  rcases fold gs.toList proper.nodup_toList fs h with ⟨none, h⟩ | ⟨e, he, hkey, merged⟩
  · have missing : gs.get? t = Option.none := by
      rw [Option.eq_none_iff_forall_not_mem]
      intro q hq
      obtain ⟨e, he, key, -⟩ := proper.mem_of_get? hq
      exact none e he key
    rw [h, missing]
    exact .left p
  · have found : gs.get? t = some e.2 := by
      rw [← gs.get?_congr hkey]
      exact proper.get?_of_mem he
    rw [found]
    exact merged

end Factors

namespace Feature

theorem ownFactor_proper (f : Feature) : f.ownFactor.Proper := by
  unfold ownFactor
  split
  · exact KeyedMap.Proper.empty.set _ _
  · exact .empty

/-- **The factors of a predicate are a proper map.** -/
theorem factors_proper : ∀ f : Feature, f.factors.Proper := by
  refine childInduction fun f ih => ?_
  unfold factors
  split
  · exact ih _ (by simp [children])
  · rename_i op a b t
    have ha := ih a (by simp [children])
    dsimp only
    split
    · exact .empty
    · split
      · exact Factors.merge_proper ha _ _
      · split
        · exact KeyedMap.Proper.empty.set _ _
        · exact Factors.merge_proper ha _ _
      · exact ownFactor_proper _
  · split
    · exact ownFactor_proper _
    · exact .empty

/-- How a factor is made out of a predicate: it is a predicate that speaks about the table alone, a factor
of a part, or unites two factors of the predicate for the table. -/
inductive FactorFrom : Feature → Schema → Feature → Prop where
  | whole {p : Feature} {t : Schema} : p.bare = p → p.kind.isBoolean = true → tablesIn p = [t] →
      FactorFrom p t p
  | part {p c : Feature} {t : Schema} {q : Feature} : c ∈ p.children → FactorFrom c t q → FactorFrom p t q
  | united {p : Feature} {op : Operator} {t u : Schema} {f g : Feature} : op ∈ connectives →
      Keyed.key t = Keyed.key u → FactorFrom p t f → FactorFrom p u g → FactorFrom p t (unite op f g)

/-- **All factors of a predicate are made out of it.** -/
theorem factorFrom : ∀ p : Feature, ∀ e ∈ p.factors.toList, FactorFrom p e.1 e.2 := by
  refine childInduction fun p ih => ?_
  have parts : ∀ c ∈ p.children, ∀ e ∈ c.factors.toList, FactorFrom p e.1 e.2 := fun c hc e he =>
    .part hc (ih c hc e he)
  have none : ∀ e ∈ (KeyedMap.empty : Factors).toList, FactorFrom p e.1 e.2 := by
    simp [KeyedMap.empty, KeyedMap.toList]
  have alone : ∀ t, p.bare = p → p.kind.isBoolean = true → tablesIn p = [t] →
      ∀ e ∈ (KeyedMap.empty.set t p).toList, FactorFrom p e.1 e.2 := fun t bare boolean own e he => by
    rcases KeyedMap.mem_set he with rfl | he
    · exact .whole bare boolean own
    · exact none e he
  have own : p.bare = p → p.kind.isBoolean = true → ∀ e ∈ p.ownFactor.toList, FactorFrom p e.1 e.2 := by
    intro bare boolean
    unfold ownFactor
    split
    · exact alone _ bare boolean ‹_›
    · exact none
  have merged : ∀ (op : Operator) (a b : Feature), op ∈ connectives → a ∈ p.children → b ∈ p.children →
      ∀ e ∈ (Factors.merge op a.factors b.factors).toList, FactorFrom p e.1 e.2 := fun op a b hop ha hb =>
    Factors.merge_entries (fun _ _ _ _ key hf hg => .united hop key hf hg) (factors_proper a) (parts a ha)
      (parts b hb)
  unfold factors
  split
  · exact parts _ (by simp [children])
  · rename_i op a b k
    dsimp only
    split
    · exact none
    · rename_i boolean
      rw [Bool.not_eq_true', Bool.not_eq_false] at boolean
      split
      · exact merged .and a b (by decide) (by simp [children]) (by simp [children])
      · split
        · exact alone _ rfl boolean ‹_›
        · exact merged .or a b (by decide) (by simp [children]) (by simp [children])
      · exact own rfl boolean
  · rename_i plain _
    have bare : p.bare = p := by
      cases p with
      | aliased g n => exact (plain g n rfl).elim
      | _ => rfl
    split
    · exact own bare ‹_›
    · exact none

theorem elements_unite {op : Operator} {f g : Feature} :
    ∀ e ∈ (unite op f g).elements, e ∈ f.elements ∨ e ∈ g.elements := by
  intro e he
  unfold unite at he
  split at he
  · exact .inl he
  · simpa [elements, elementsOf] using he

theorem elements_unite_left {op : Operator} {f g : Feature} :
    ∀ e ∈ f.elements, e ∈ (unite op f g).elements := by
  intro e he
  unfold unite
  split
  · exact he
  · simp [elements, elementsOf, he]

namespace FactorFrom

variable {p q : Feature} {t : Schema}

/-- A factor is a predicate. -/
theorem boolean (h : FactorFrom p t q) : q.kind.isBoolean = true := by
  induction h with
  | whole _ boolean => exact boolean
  | part _ _ ih => exact ih
  | united hop _ _ _ ihf ihg =>
    refine unite_forall (P := fun g => g.kind.isBoolean = true) (fun op hop a b _ _ => ?_) hop ihf ihg
    simp only [connectives, List.mem_cons, List.not_mem_nil, or_false] at hop
    rcases hop with rfl | rfl <;> rfl

/-- What lies inside a factor lies inside the predicate. -/
theorem inside (h : FactorFrom p t q) : ∀ e ∈ q.elements, e ∈ p.elements := by
  induction h with
  | whole => exact fun _ he => he
  | part inner _ ih => exact fun e he => elements_of_child inner (ih e he)
  | united _ _ _ _ ihf ihg => exact fun e he => (elements_unite e he).elim (ihf e) (ihg e)

end FactorFrom

/-- **What holds of a predicate holds of its factors**, which have no aliases, if it passes on to direct
parts and to both sides of an operator taken together. -/
theorem factors_forall {P : Feature → Prop} (pair : ∀ op ∈ connectives, ∀ a b, a.bare = a → b.bare = b →
      P a → P b → P (.expression op [a, b] none)) (down : ∀ g, P g → ∀ c ∈ g.children, P c)
    (f : Feature) (hf : P f) : ∀ e ∈ f.factors.toList, e.2.bare = e.2 ∧ P e.2 := by
  rintro ⟨t, q⟩ he
  have made : FactorFrom f t q := factorFrom f _ he
  clear he
  induction made with
  | whole bare => exact ⟨bare, hf⟩
  | part hc _ ih => exact ih (down _ hf _ hc)
  | united hop _ _ _ ihf ihg =>
    exact unite_forall (P := fun g => g.bare = g ∧ P g)
      (fun op hop a b ha hb => ⟨rfl, pair op hop a b ha.1 hb.1 ha.2 hb.2⟩) hop (ihf hf) (ihg hf)

theorem get?_ownFactor {f p : Feature} {t : Schema} (h : f.ownFactor.get? t = some p) : p = f := by
  unfold ownFactor at h
  obtain ⟨e, he, rfl⟩ := KeyedMap.mem_toList_of_get? h
  split at he
  · rcases KeyedMap.mem_toList_set he with h | h
    · exact h
    · simp [KeyedMap.empty, KeyedMap.toList] at h
  · simp [KeyedMap.empty, KeyedMap.toList] at he

theorem get?_empty (t : Schema) (p : Feature) : (KeyedMap.empty : Factors).get? t ≠ some p := by
  simp [KeyedMap.empty, KeyedMap.get?, KeyedMap.entry?, Assoc.find?]

/-- Whether the factor of a table stems from the whole predicate: at a disjunction over several
tables both sides must have one, and every side that has one must cover the table in turn. -/
def Covers (t : Schema) : Feature → Prop
  | .aliased f _ => f.Covers t
  | .expression op [a, b] k =>
    match op with
    | .and => ((a.factors.get? t).isSome → a.Covers t) ∧ ((b.factors.get? t).isSome → b.Covers t)
    | .or  => (∃ u, tablesIn (.expression .or [a, b] k) = [u]) ∨
        ((a.factors.get? t).isSome ∧ a.Covers t) ∧ (b.factors.get? t).isSome ∧ b.Covers t
    | _    => True
  | _ => True

/-- Where the factor of a predicate for a table comes from. -/
inductive FactorOf (t : Schema) (p : Feature) : Feature → Prop where
  /-- It is the whole predicate. -/
  | whole : FactorOf t p p
  | aliased {f : Feature} {n : String} {q : Feature} : p = .aliased f n → f.factors.get? t = some q →
    FactorOf t p q
  | and {a b : Feature} {k : Option Kind} {q : Feature} : p = .expression .and [a, b] k →
    Factors.Merged .and (a.factors.get? t) (b.factors.get? t) q → FactorOf t p q
  /-- A disjunction over several tables. -/
  | or {a b : Feature} {k : Option Kind} {q : Feature} : p = .expression .or [a, b] k →
    (¬∃ u, tablesIn p = [u]) → Factors.Merged .or (a.factors.get? t) (b.factors.get? t) q →
    FactorOf t p q

/-- **A factor is the whole predicate, or it is merged from the sides of a connective.** -/
theorem factor_cases {t : Schema} {p q : Feature} (h : p.factors.get? t = some q) :
    FactorOf t p q := by
  unfold factors at h
  split at h
  · exact .aliased rfl h
  · rename_i op a b k
    dsimp only at h
    split at h
    · exact absurd h (get?_empty t q)
    · split at h
      · exact .and rfl (Factors.merge_cases (factors_proper b) h)
      · split at h
        · obtain rfl : q = _ := by
            obtain ⟨e, he, rfl⟩ := KeyedMap.mem_toList_of_get? h
            rcases KeyedMap.mem_toList_set he with h | h
            · exact h
            · simp [KeyedMap.empty, KeyedMap.toList] at h
          exact .whole
        · rename_i several
          exact .or rfl (not_exists.2 several) (Factors.merge_cases (factors_proper b) h)
      · obtain rfl := get?_ownFactor h
        exact .whole
  · split at h
    · obtain rfl := get?_ownFactor h
      exact .whole
    · exact absurd h (get?_empty t q)

end Feature

/-- A factor is told by its key if the predicate is. -/
theorem factor_distinct {p q : Feature} {t : Schema} (h : p.Obeys .distinct)
    (hq : p.factors.get? t = some q) : q.Obeys .distinct := by
  obtain ⟨e, he, rfl⟩ := KeyedMap.mem_toList_of_get? hq
  exact (Feature.factors_forall (P := fun f => f.Obeys .distinct)
    (fun op hop f g _ _ hf hg => ⟨nofun, hf, hg, trivial⟩) (fun f hf => hf.children) p h e he).2

end QueryAlgebra
