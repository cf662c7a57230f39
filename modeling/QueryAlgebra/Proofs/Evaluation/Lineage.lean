import QueryAlgebra.Proofs.Evaluation.Joins
import QueryAlgebra.Proofs.Evaluation.Naming
import QueryAlgebra.Proofs.Translation.Composition

/-!
# Where joined values come from

Every row of a tree of joins is made from one row of each table or reference that is joined, or from
none where the other side was kept without it. A column keeps the label of its origin through all
joins.

* `Source.IsJoinTree`, `Source.leaves`: joins of tables and of references to tables, and these.
* `Lineage`, `Traced`: the rows of a leaf that joined rows are made from, along an evaluation.
* `Traced.attributed`: the columns of each leaf are found under its label.
* `traced_of_composed`: whatever a tree of joins is translated to can be traced.
-/

namespace QueryAlgebra

/-! ### Trees of joins -/

namespace Source

/-- Joins of tables and of references to tables. -/
def IsJoinTree : Source → Prop
  | .table _                => True
  | .reference (.table _) _ => True
  | .join l r _ _           => l.IsJoinTree ∧ r.IsJoinTree
  | _                       => False

/-- What is joined, from left to right. -/
def leaves : Source → List Source
  | .join l r _ _ => l.leaves ++ r.leaves
  | s             => [s]

end Source

/-! ### Columns of joined data -/

namespace Dataset

theorem map_item_range {c : List Value} {n : Nat} (h : c.length = n) :
    (List.range n).map (item c) = c := by
  subst h
  refine List.ext_getElem (by simp) fun i _ bound => ?_
  simp [item, bound]

theorem Regular.qualify {d : Dataset} (h : d.Regular) (origin : String) :
    (d.qualify origin).Regular where
  width := by simpa [Dataset.qualify] using h.width
  height := h.height

/-- A column of a name that no other column has. -/
theorem exact_qualify {d : Dataset} (distinct : d.names.Nodup) {j : Nat} {n : String}
    (hj : d.names[j]? = some n) (origin : String) :
    (d.qualify origin).refs.findIdx? (· = ⟨n, some origin⟩) = some j := by
  rw [← findIdx?_self_iff_nodup.2 distinct j n hj]
  simp [Dataset.qualify, names, List.findIdx?_map, Function.comp_def]

end Dataset

namespace Evaluation

open Translation Dataset

/-! ### Lineage -/

/-- A leaf with its rows in the catalog, and for each joined row the position of the one that it is
made from, if there is one. -/
structure Lineage where
  origin    : Source
  data      : Dataset
  positions : List (Option Nat)

/-- The same leaf for rows that are made from the rows at some positions. -/
def Lineage.through (m : Lineage) (rows : List (Option Nat)) : Lineage :=
  { m with positions := rows.map fun p => p.bind fun i => m.positions.getD i none }

/-- A leaf whose own rows are meant. -/
def Lineage.own (origin : Source) (data : Dataset) : Lineage :=
  ⟨origin, data, (List.range data.length).map some⟩

/-- **How the rows of a join tree are made**: a plan of the tree gives the data, and each join takes
the rows of both sides by its pairs of positions. -/
inductive Traced (catalog : Catalog) : Source → SourcePlan → Dataset → List Lineage → Prop where
  | table {t : Schema} {d : Dataset} (h : Assoc.find? (t.name == ·) catalog = some d) :
    Traced catalog (.table t) (.qualified (.scan t.name) t.name) (d.qualify t.name)
      [.own (.table t) d]
  | reference {t : Schema} {n : String} {d : Dataset}
      (h : Assoc.find? (t.name == ·) catalog = some d) :
    Traced catalog (.reference (.table t) n)
      (.qualified (.qualified (.scan t.name) t.name) n) ((d.qualify t.name).qualify n)
      [.own (.reference (.table t) n) d]
  | join {l r : Source} {k : JoinType} {c : Option Feature} {x y : SourcePlan}
      {z : Option FeaturePlan} {dl dr d : Dataset} {left right : List Lineage}
      {pairs : List (Option Nat × Option Nat)} (hl : Traced catalog l x dl left)
      (hr : Traced catalog r y dr right) (condition : z.isSome = c.isSome)
      (hpairs : joinPositions dl dr z k = .ok pairs) (joined : sideBySide dl dr pairs = .ok d) :
    Traced catalog (.join l r k c) (.join x y z k) d
      (left.map (·.through (pairs.map (·.1))) ++ right.map (·.through (pairs.map (·.2))))

/-- Data with one row for each position, in which the columns of each leaf are found under its label. -/
structure Attributed (d : Dataset) (trace : List Lineage) : Prop where
  regular   : d.Regular
  qualified : ∀ c ∈ d.refs, ∃ m ∈ trace, c.qualifier = some m.origin.label
  height    : ∀ m ∈ trace, m.positions.length = d.length
  column    : ∀ m ∈ trace, ∀ j n, m.data.names[j]? = some n →
    ∃ i, d.refs.findIdx? (· = ⟨n, some m.origin.label⟩) = some i ∧
      d.columns.getD i [] = m.positions.map (chosen (m.data.columns.getD j []))

/-- The values of rows that are made from other rows. -/
theorem chosen_through {column : List Value} {positions : List (Option Nat)} {p : Option Nat}
    (bound : ∀ i ∈ p, i < positions.length) :
    chosen (positions.map (chosen column)) p
      = chosen column (p.bind fun i => positions.getD i none) := by
  cases p with
  | none => rfl
  | some i =>
    have inside := bound i rfl
    simp [chosen, item, inside]

theorem map_through {column : List Value} {m : Lineage} {rows : List (Option Nat)}
    (bound : ∀ p ∈ rows, ∀ i ∈ p, i < m.positions.length) :
    rows.map (chosen (m.positions.map (chosen column)))
      = (m.through rows).positions.map (chosen column) := by
  simp only [Lineage.through, List.map_map]
  exact List.map_congr_left fun p hp => chosen_through (bound p hp)

theorem Attributed.leaf (origin : Source) {d : Dataset} (regular : d.Regular)
    (distinct : d.names.Nodup) : Attributed (d.qualify origin.label) [.own origin d] where
  regular := regular.qualify _
  qualified c hc := by
    obtain ⟨c, -, rfl⟩ := List.mem_map.1 hc
    exact ⟨_, List.mem_singleton_self _, rfl⟩
  height m hm := by
    obtain rfl := List.mem_singleton.1 hm
    simp [Lineage.own, qualify]
  column m hm j n hj := by
    obtain rfl := List.mem_singleton.1 hm
    refine ⟨j, exact_qualify distinct hj _, ?_⟩
    obtain ⟨inside, -⟩ := List.getElem?_eq_some_iff.1 hj
    have inside : j < d.columns.length := by
      have inside : j < d.names.length := inside
      rw [← regular.width]
      simpa [names] using inside
    have long : (d.columns.getD j []).length = d.length := by
      rw [List.getD_eq_getElem?_getD, List.getElem?_eq_getElem inside]
      exact regular.height _ (List.getElem_mem inside)
    simp only [Lineage.own, List.map_map]
    exact (map_item_range long).symm

theorem Attributed.joined {dl dr d : Dataset} {left right : List Lineage}
    {pairs : List (Option Nat × Option Nat)} (hl : Attributed dl left) (hr : Attributed dr right)
    (apart : ∀ m ∈ left, ∀ m' ∈ right, m.origin.label ≠ m'.origin.label)
    (bounds : ∀ p ∈ pairs, (∀ i ∈ p.1, i < dl.length) ∧ ∀ j ∈ p.2, j < dr.length)
    (joined : sideBySide dl dr pairs = .ok d) :
    Attributed d (left.map (·.through (pairs.map (·.1)))
      ++ right.map (·.through (pairs.map (·.2)))) where
  regular := regular_sideBySide hl.regular hr.regular joined
  qualified c hc := by
    obtain ⟨refs, -, -⟩ := sideBySide_rows joined
    rw [refs] at hc
    rcases List.mem_append.1 hc with hc | hc
    · obtain ⟨m, hm, same⟩ := hl.qualified c hc
      exact ⟨_, List.mem_append_left _ (List.mem_map_of_mem hm), same⟩
    · obtain ⟨m, hm, same⟩ := hr.qualified c hc
      exact ⟨_, List.mem_append_right _ (List.mem_map_of_mem hm), same⟩
  height m hm := by
    obtain ⟨-, length, -⟩ := sideBySide_rows joined
    rw [length]
    rcases List.mem_append.1 hm with hm | hm <;> obtain ⟨m, -, rfl⟩ := List.mem_map.1 hm <;>
      simp [Lineage.through]
  column m hm j n hj := by
    rcases List.mem_append.1 hm with hm | hm
    · obtain ⟨own, member, rfl⟩ := List.mem_map.1 hm
      obtain ⟨i, found, values⟩ := hl.column own member j n hj
      obtain ⟨found, column⟩ := exact_left joined hl.regular found
      refine ⟨i, found, ?_⟩
      rw [column, values]
      have inside : ∀ p ∈ pairs.map (·.1), ∀ i ∈ p, i < dl.length :=
        List.forall_mem_map.2 fun p hp => (bounds p hp).1
      exact map_through (hl.height own member ▸ inside)
    · obtain ⟨own, member, rfl⟩ := List.mem_map.1 hm
      obtain ⟨i, found, values⟩ := hr.column own member j n hj
      -- The left side is searched first, but its columns have other labels.
      have free : dl.refs.findIdx? (· = ⟨n, some own.origin.label⟩) = none := by
        refine List.findIdx?_eq_none_iff.2 fun c hc => decide_eq_false fun same => ?_
        obtain ⟨other, there, label⟩ := hl.qualified c hc
        rw [same] at label
        exact apart other there own member (Option.some.inj label).symm
      obtain ⟨found, column⟩ := exact_right joined hl.regular hr.regular free found
      refine ⟨_, found, ?_⟩
      rw [column, values]
      have inside : ∀ p ∈ pairs.map (·.2), ∀ i ∈ p, i < dr.length :=
        List.forall_mem_map.2 fun p hp => (bounds p hp).2
      exact map_through (hr.height own member ▸ inside)

/-- The catalog has regular data with distinct names of columns. -/
def Catalog.Regular (catalog : Catalog) : Prop :=
  ∀ name d, Assoc.find? (name == ·) catalog = some d → d.Regular ∧ d.names.Nodup

namespace Traced

variable {catalog : Catalog} {s : Source} {x : SourcePlan} {d : Dataset} {trace : List Lineage}

theorem origins (h : Traced catalog s x d trace) : trace.map Lineage.origin = s.leaves := by
  induction h with
  | table h => rfl
  | reference h => rfl
  | join hl hr _ _ _ ihl ihr =>
    simp [Source.leaves, ← ihl, ← ihr, Lineage.through, Function.comp_def]

/-- **The columns of each leaf are found under its label**, with the values of the rows that the joined
rows are made from. -/
theorem attributed (h : Traced catalog s x d trace) (regular : catalog.Regular)
    (apart : (s.leaves.map Source.label).Nodup) : Attributed d trace := by
  induction h with
  | @table t d h =>
    obtain ⟨regular, distinct⟩ := regular _ _ h
    exact .leaf (.table t) regular distinct
  | @reference t n d h =>
    obtain ⟨regular, distinct⟩ := regular _ _ h
    -- The name of the reference takes the place of that of the table.
    have own : (d.qualify t.name).qualify n = d.qualify n := by
      simp [qualify, Function.comp_def]
    rw [own]
    exact .leaf (.reference (.table t) n) regular distinct
  | join hl hr _ hpairs joined ihl ihr =>
    rw [Source.leaves, List.map_append, List.nodup_append] at apart
    obtain ⟨apl, apr, disjoint⟩ := apart
    refine .joined (ihl apl) (ihr apr) (fun m hm m' hm' => ?_) (joinPositions_bounds hpairs) joined
    refine disjoint _ (List.mem_map_of_mem ?_) _ (List.mem_map_of_mem ?_)
    · exact hl.origins ▸ List.mem_map_of_mem hm
    · exact hr.origins ▸ List.mem_map_of_mem hm'

/-- A leaf is a table of the catalog, or a reference to one. -/
theorem leaf (h : Traced catalog s x d trace) : ∀ m ∈ trace, ∃ t : Schema,
    (m.origin = .table t ∨ ∃ n, m.origin = .reference (.table t) n) ∧
      Assoc.find? (t.name == ·) catalog = some m.data := by
  induction h with
  | @table t d h => exact List.forall_mem_singleton.2 ⟨t, .inl rfl, h⟩
  | @reference t n d h => exact List.forall_mem_singleton.2 ⟨t, .inr ⟨n, rfl⟩, h⟩
  | join _ _ _ _ _ ihl ihr =>
    refine List.forall_mem_append.2 ⟨?_, ?_⟩ <;> refine List.forall_mem_map.2 ?_
    · exact ihl
    · exact ihr

end Traced

/-! ### Plans of join trees -/

/-- What a tree of joins becomes can be traced, wherever it gives data. -/
theorem traced_of_composed {M : List (String × FeaturePlan) → Prop} {s : Source} {x : SourcePlan}
    (h : Composed (backend .empty .empty) M s x) : s.IsJoinTree → ∀ {catalog : Catalog} {d : Dataset},
      x catalog = .ok d → ∃ trace, Traced catalog s x d trace := by
  induction h with
  | @table t x _ _ hx =>
    intro _ catalog d given
    obtain rfl : SourcePlan.qualified (.scan t.name) t.name = x := Except.ok.inj hx
    obtain ⟨d, found, rfl⟩ : ∃ e, SourcePlan.scan t.name catalog = .ok e ∧ e.qualify t.name = d := by
      have given : SourcePlan.qualified (.scan t.name) t.name catalog = .ok d := given
      simpa [SourcePlan.qualified] using given
    have found : Assoc.find? (t.name == ·) catalog = some d := by
      unfold SourcePlan.scan at found
      split at found
      · rename_i hit
        rw [hit, Except.ok.inj found]
      · cases found
    exact ⟨_, .table found⟩
  | @reference s n x _ ih =>
    intro tree catalog d given
    cases s with
    | table t =>
      obtain ⟨e, evaluated, rfl⟩ : ∃ e, x catalog = .ok e ∧ e.qualify n = d := by
        simpa [backend, SourcePlan.qualified] using given
      obtain ⟨trace, traced⟩ := ih trivial evaluated
      cases traced with
      | table found => exact ⟨_, .reference found⟩
    | _ => exact tree.elim
  | @join l r k c m x y z _ _ _ hz ihl ihr =>
    intro tree catalog d given
    obtain ⟨dl, dr, pairs, left, right, hpairs, joined⟩ := join_eq_ok.1 given
    obtain ⟨_, tracedl⟩ := ihl tree.1 left
    obtain ⟨_, tracedr⟩ := ihr tree.2 right
    have condition : z.isSome = c.isSome := by
      cases z <;> cases c <;> first | rfl | cases hz
    exact ⟨_, .join tracedl tracedr condition hpairs joined⟩
  | set => exact False.elim
  | query => exact False.elim

end Evaluation

end QueryAlgebra
