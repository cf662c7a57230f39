import QueryAlgebra.Proofs.Tree.Built

/-!
# Statements with a clause changed

A statement is changed by building it anew from its own clauses, one of them exchanged. What the
constructors have accepted they accept again, so the other clauses stay as they are.

* `Source.Statement.queryOf`: a statement is accepted again with another ordering and row limit.
* `Source.limit_eq`: a statement with a row limit.
* `Source.orderby_eq_ok`: a statement with an ordering.
-/

namespace QueryAlgebra

/-- A filter that was accepted is accepted again. -/
theorem filterOf_of_condition {check : Feature → Except Fault Unit} {superset : KeyedSet Feature}
    {owner : String} {o : Option Feature} (h : ∀ p ∈ o, p.Condition check superset) :
    filterOf check superset owner (o.map .feature) = .ok o := by
  cases o with
  | none => rfl
  | some p =>
    obtain ⟨-, bare, boolean, checked, within⟩ := h p rfl
    have inside : p.requireWithin superset owner = .ok () := if_pos within
    have predicate : p.asPredicate = .ok p := by simp [Feature.asPredicate, boolean, bare]
    simp [filterOf, Operand.whole, predicate, checked, inside]

theorem mapM_bare_eq (fs : List Feature) :
    (fs.map Operand.feature).mapM Operand.bare = .ok (fs.map Feature.bare) := by
  induction fs with
  | nil => rfl
  | cons f r ih => simp [Operand.bare, ih]

theorem mapM_bare {fs : List Feature} (h : ∀ f ∈ fs, f.bare = f) :
    (fs.map Operand.feature).mapM Operand.bare = .ok fs := by
  rw [mapM_bare_eq, List.map_congr_left (g := id) h, List.map_id]

theorem OrderTerm.make_terms (ord : List OrderTerm) : OrderTerm.make (ord.map .term) = .ok ord := by
  induction ord with
  | nil => rfl
  | cons o r ih => simp [OrderTerm.make, ih]

theorem Limit.toRange_of_natural {l : Limit} {owner : String} {count offset : Nat}
    (hc : l.count.natural? = some count) (ho : l.offset.natural? = some offset) :
    l.toRange owner = .ok ⟨count, offset⟩ := by simp [toRange, hc, ho]

namespace Source

variable {s q : Source} {sel : List Feature} {pre : Option Feature} {grp : List Feature}
  {post : Option Feature} {ord ord' : List OrderTerm} {rows rows' : Option RowRange}

/-- **A statement is accepted again with its own clauses**, whatever is asked for as its ordering and
row limit, if that is accepted. -/
theorem Statement.queryOf (h : s.Statement sel pre grp post ord rows) {specs : List OrderSpec}
    (ordered : OrderTerm.make specs = .ok ord')
    (within : ∀ f ∈ ord'.map OrderTerm.feature, f.Within (elementsIn s.features)) (limit : Option Limit)
    (limited : (match limit with
      | some l => some <$> l.toRange s.text
      | none   => pure none) = (.ok rows' : Except Fault _)) :
    s.queryOf ⟨sel.map .feature, pre.map .feature, grp.map .feature, post.map .feature, specs, limit⟩
      = .ok (.query s sel pre grp post ord' rows') := by
  have inside : ∀ {fs : List Feature}, (∀ f ∈ fs, f.Within (elementsIn s.features)) →
      fs.forM (Feature.requireWithin (elementsIn s.features) s.text) = .ok () := fun {fs} h =>
    forM_ok fun f hf => if_pos (h f hf)
  have selected := inside fun f hf => (h.selection f hf).2
  have single : grp.forM Feature.refuseCollective = .ok () := forM_ok fun f hf => (h.grouping f hf).2.2.1
  have keyed := inside fun f hf => (h.grouping f hf).2.2.2
  have bare := mapM_bare fun f hf => (h.grouping f hf).2.1
  refine bind_eq_ok.2 ⟨sel, Operand.mapM_whole sel, bind_eq_ok.2 ⟨(), selected, bind_eq_ok.2
    ⟨pre, filterOf_of_condition h.prefilter, bind_eq_ok.2 ⟨grp, bare, bind_eq_ok.2 ⟨(), single,
      bind_eq_ok.2 ⟨(), keyed, ?_⟩⟩⟩⟩⟩⟩
  dsimp only
  split
  · refine bind_eq_ok.2 ⟨post, filterOf_of_condition h.postfilter, bind_eq_ok.2
      ⟨ord', ordered, bind_eq_ok.2 ⟨(), inside within, ?_⟩⟩⟩
    cases limit <;> exact bind_eq_ok.2 ⟨rows', limited, rfl⟩
  · rename_i keys
    refine bind_eq_ok.2 ⟨(), h.grouped (by simpa using keys), bind_eq_ok.2 ⟨post,
      filterOf_of_condition h.postfilter, bind_eq_ok.2 ⟨ord', ordered, bind_eq_ok.2
        ⟨(), inside within, ?_⟩⟩⟩⟩
    cases limit <;> exact bind_eq_ok.2 ⟨rows', limited, rfl⟩

/-- **A row limit changes nothing but the rows.** -/
theorem limit_eq (h : (query s sel pre grp post ord rows).Built) {count offset : Value} {c o : Nat}
    (hc : count.natural? = some c) (ho : offset.natural? = some o) :
    (query s sel pre grp post ord rows).limit count offset
      = .ok (.query s sel pre grp post ord (some ⟨c, o⟩)) := by
  have asked : Limit.toRange ⟨count, offset⟩ s.text = .ok ⟨c, o⟩ := Limit.toRange_of_natural hc ho
  have made := h.inv_query.queryOf (OrderTerm.make_terms ord)
    (List.forall_mem_map.2 fun t ht => (h.inv_query.ordering t ht).2) (some ⟨count, offset⟩)
    (congrArg (Functor.map some) asked)
  cases offset with
  | number n => exact made
  | _ => cases ho

/-- **An ordering changes nothing but the order.** -/
theorem orderby_eq_ok (h : (query s sel pre grp post ord none).Built) {specs : List OrderSpec}
    (ordered : (query s sel pre grp post ord none).orderby specs = .ok q) :
    ∃ ord', OrderTerm.make specs = .ok ord' ∧ q = .query s sel pre grp post ord' none := by
  obtain ⟨_, _, _, _, ord', _, rfl, -, -, -, -, -, -, -, -, made, within, -⟩ := queryOf_eq_ok
    (c := ⟨sel.map .feature, pre.map .feature, grp.map .feature, post.map .feature, specs, none⟩)
    (show _ = Except.ok q from ordered)
  have again := h.inv_query.queryOf made within none rfl
  exact ⟨ord', made, Except.ok.inj (ordered.symm.trans again)⟩

/-- The clauses of a statement are built. -/
theorem Built.own_clauses (h : (Source.query s sel pre grp post ord rows).Built) :
    (Source.query s sel pre grp post ord rows).clauses.2.Built := by
  have made := h.inv_query
  refine .mk (List.forall_mem_map.2 fun f hf => .feature (made.selection f hf).1) ?_
    (List.forall_mem_map.2 fun f hf => .feature (made.grouping f hf).1) ?_
    (List.forall_mem_map.2 fun t ht => ?_)
  · intro o ho
    obtain ⟨p, hp, rfl⟩ := Option.map_eq_some_iff.1 ho
    exact .feature (made.prefilter p hp).built
  · intro o ho
    obtain ⟨p, hp, rfl⟩ := Option.map_eq_some_iff.1 ho
    exact .feature (made.postfilter p hp).built
  · obtain ⟨f, d⟩ := t
    exact .term (.by d (made.ordering _ ht).1)

/-- What is made of a statement by an ordering is built. -/
theorem orderby_built (h : (query s sel pre grp post ord none).Built) {specs : List OrderSpec}
    (known : ∀ o ∈ specs, o.Built)
    (ordered : (query s sel pre grp post ord none).orderby specs = .ok q) : q.Built := by
  obtain ⟨selection, prefilter, grouping, postfilter, -⟩ := h.own_clauses
  have clauses : Clauses.Built
      ⟨sel.map .feature, pre.map .feature, grp.map .feature, post.map .feature, specs, none⟩ :=
    .mk selection prefilter grouping postfilter known
  exact .query h.inv_query.source clauses (show _ = Except.ok q from ordered)

end Source

end QueryAlgebra
