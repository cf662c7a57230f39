import QueryAlgebra.Proofs.Translation.Ready

/-!
# Names in trees

* `Rules.spelled`: the names, the literals and the directions in a tree are of given sorts.
* `Rules.named`: so are the names and the literals, and all orderings have one of the two directions.
* `Naming`: sorts of names that hold of what sources call their anonymous fields.
* `Source.Obeys.names`: what a source offers has names of that sort.
* `Rules.spelled_offered`: so have the elements of tables and of references.
-/

namespace QueryAlgebra

/-- Aliases, fields, tables and references have names of a sort; literals are of a sort, and so are
the directions of orderings. -/
def Rules.spelled (N : String → Prop) (L : Value → Kind → Prop) (D : Direction → Prop) : Rules where
  feature
    | .aliased _ n     => N n
    | .element _ n _   => N n
    | .literal v k     => L v k
    | .window _ _ os _ => ∀ o ∈ os, D o.direction
    | _                => True
  source
    | .table t             => N t.name ∧ ∀ c ∈ t.fields, N c.name
    | .reference _ n       => N n
    | .query _ _ _ _ _ os _ => ∀ o ∈ os, D o.direction
    | _                    => True

/-- Names and literals are of a sort, and orderings have one of the two directions. -/
abbrev Rules.named (N : String → Prop) (L : Value → Kind → Prop) : Rules :=
  .spelled N L Direction.Proper

/-- A sort of names that holds of the names that anonymous and repeated fields are given. -/
structure Naming (N : String → Prop) : Prop where
  positional : ∀ i, N (positional i)
  underscore : ∀ n, N n → N ("_" ++ n)

variable {N : String → Prop} {L : Value → Kind → Prop} {D : Direction → Prop}

theorem Naming.freshen (hN : Naming N) {n : String} (h : N n) (taken : List String) (fuel : Nat) :
    N (freshen taken fuel n) := by
  induction fuel generalizing n with
  | zero => exact h
  | succ fuel ih =>
    unfold QueryAlgebra.freshen
    split
    · exact ih (hN.underscore n h)
    · exact h

theorem Naming.fieldName (hN : Naming N) {name? : Option String} (h : ∀ n ∈ name?, N n)
    (taken : List String) (i : Nat) : N (fieldName taken i name?) := by
  refine hN.freshen ?_ taken _
  split
  · exact hN.positional i
  · cases name? with
    | none => exact hN.positional i
    | some n => exact h n rfl

theorem Naming.nameFields (hN : Naming N) {fs : List Feature} (h : ∀ f ∈ fs, ∀ n ∈ f.name?, N n)
    (taken : List String) (i : Nat) : ∀ c ∈ nameFields taken i fs, N c.name := by
  induction fs generalizing taken i with
  | nil => exact fun _ hc => nomatch hc
  | cons f r ih =>
    obtain ⟨hf, hr⟩ := List.forall_mem_cons.1 h
    exact List.forall_mem_cons.2 ⟨hN.fieldName hf taken i, ih hr _ _⟩

theorem Schema.mem_of_get? {t : Schema} {reference : String} {c : NamedField}
    (h : t.get? reference = some c) : c ∈ t.fields := by
  unfold get? at h
  rcases Option.or_eq_some_iff.1 h with h | ⟨_, h⟩
  · obtain ⟨e, he, rfl⟩ := Option.map_eq_some_iff.1 h
    exact List.mem_map_of_mem (List.mem_reverse.1 (List.mem_of_find?_eq_some he))
  · exact List.mem_of_find?_eq_some h

theorem Schema.name_resolve {t : Schema} (h : ∀ d ∈ t.fields, N d.name) {c : NamedField}
    (hc : N c.name) : N (t.resolve c).name := by
  unfold resolve
  cases found : t.get? c.name with
  | none => exact hc
  | some d => exact h d (mem_of_get? found)

/-- The name of a feature is of the sort. -/
theorem Feature.Obeys.name {f : Feature} (h : f.Obeys (.spelled N L D)) : ∀ n ∈ f.name?, N n := by
  rintro n hn
  cases f with
  | aliased f m => cases hn; exact h.1
  | element s m k => cases hn; exact h.1
  | _ => cases hn

namespace Source

theorem name_resolve {s : Source} (h : s.Obeys (.spelled N L D)) {c : NamedField} (hc : N c.name) :
    N (s.resolve c).name := by
  cases s with
  | table t => exact Schema.name_resolve h.2 hc
  | reference s n =>
    cases s with
    | table t => exact Schema.name_resolve h.2.2 hc
    | _ => exact hc
  | _ => exact hc

/-- **What a source offers has names of the sort**, and so have its fields. -/
theorem Obeys.names (hN : Naming N) : ∀ s : Source, s.Obeys (.spelled N L D) →
    (∀ f ∈ s.features, ∀ n ∈ f.name?, N n) ∧ ∀ c ∈ s.fields, N c.name
  | .table t, h => by
    have fields : ∀ c ∈ (Source.table t).fields, N c.name := by simpa only [Source.fields] using h.2
    refine ⟨fun f hf => ?_, fields⟩
    obtain ⟨d, hd, rfl⟩ := List.mem_map.1 (by simpa only [Source.features] using hf)
    obtain ⟨c, hc, rfl⟩ := List.mem_map.1 hd
    rintro n ⟨⟩
    exact Schema.name_resolve h.2 (h.2 c hc)
  | .reference s m, h => by
    obtain ⟨-, fields⟩ := Obeys.names hN s h.2
    refine ⟨fun f hf => ?_, by simpa only [Source.fields] using fields⟩
    obtain ⟨d, hd, rfl⟩ := List.mem_map.1 (by simpa only [Source.features] using hf)
    obtain ⟨c, hc, rfl⟩ := List.mem_map.1 hd
    rintro n ⟨⟩
    exact name_resolve h.2 (fields c hc)
  | .join l r _ _, h => by
    have both : ∀ f ∈ l.features ++ r.features, ∀ n ∈ f.name?, N n :=
      List.forall_mem_append.2 ⟨(Obeys.names hN l h.2.1).1, (Obeys.names hN r h.2.2.1).1⟩
    refine ⟨by simpa only [Source.features] using both, fun c hc => ?_⟩
    exact hN.nameFields both [] 0 c (by simpa only [Source.fields] using hc)
  | .set l _ _, h => by
    simpa only [Source.features, Source.fields] using Obeys.names hN l h.2.1
  | .query s sel _ _ _ _ _, h => by
    have outputs : ∀ f ∈ (if sel.isEmpty then s.features else sel), ∀ n ∈ f.name?, N n := by
      split
      · exact (Obeys.names hN s h.2.1).1
      · exact fun f hf => (featuresObey_iff.1 h.2.2.1 f hf).name
    refine ⟨by simpa only [Source.features] using outputs, fun c hc => ?_⟩
    exact hN.nameFields outputs [] 0 c (by simpa only [Source.fields] using hc)

end Source

/-- **The elements of tables and of references have names of the sort.** -/
theorem Rules.spelled_offered (hN : Naming N) : (Rules.spelled N L D).Offered where
  table _ h c hc := Schema.name_resolve h.2 (h.2 c hc)
  reference s _ h c hc := Source.name_resolve h.2 ((Source.Obeys.names hN s h.2).2 c hc)

end QueryAlgebra
