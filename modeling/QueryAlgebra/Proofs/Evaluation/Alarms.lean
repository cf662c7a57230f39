import QueryAlgebra.Proofs.Evaluation.Grouping
import QueryAlgebra.Proofs.Evaluation.Kinds
import QueryAlgebra.Proofs.Evaluation.Lineage
import QueryAlgebra.Proofs.Evaluation.Sets

/-!
# Plans with alarms

Columns are read by position, so a column should have a value for each row of its batch, or for each
group. Whether all of them do while a statement is evaluated is seen by watching: every plan raises an
alarm when it gives a column of another width. A column of another width is that of an aggregate on rows,
so there are no alarms where rows are not looked at through aggregates.

* `FeaturePlan.Fills`, `FeaturePlan.watched`: columns that fill a batch, and a plan with an alarm.
* `watching`: the backend whose plans have alarms.
* `FeaturePlan.Matched`: a plan, and one that gives the same columns where they must fill their batches;
  `FeaturePlan.Matched.watched`: an alarm does not matter for that.
* `FeaturePlan.Matched.aggregateOf`, `FeaturePlan.Matched.rowWise`, `FeaturePlan.Matched.windowValues`:
  plans that are made of such plans.
* `SourcePlan.Same`: plans of sources that give the same on catalogs of regular data;
  `SourcePlan.Same.join`, `SourcePlan.Same.query`: plans that are made of such plans.
-/

namespace QueryAlgebra

open Evaluation Translation Dataset

namespace Evaluation

/-! ### Plans with alarms -/

namespace FeaturePlan

/-- The column has a value for each row of the batch, or for each group if there are groups. If `single`
is set, an aggregate that is evaluated on rows may have one value instead. -/
def Fills (x : FeaturePlan) (single : Bool) (b : Batch) (column : List Value) : Prop :=
  column.length = b.size ∨
    single = true ∧ x.aggregate = true ∧ b.groups = none ∧ column.length = 1

instance (x : FeaturePlan) (single : Bool) (b : Batch) (column : List Value) :
    Decidable (x.Fills single b column) := inferInstanceAs (Decidable (_ ∨ _))

/-- The plan with an alarm, which is raised when its column does not fill the batch. -/
def watched (x : FeaturePlan) (alarm : Fault) (single : Bool) : FeaturePlan where
  values b := do
    let column ← x.values b
    if x.Fills single b column then return column else throw alarm
  aggregate := x.aggregate
  label     := x.label

end FeaturePlan

/-- The backend that makes plans, each of them with an alarm. -/
def watching (alarm : Fault) (single : Bool) (sources : KeyedMap Source SourcePlan) :
    Backend SourcePlan FeaturePlan :=
  let b := backend sources .empty
  { b with
    element := fun x s n => (b.element x s n).watched alarm single
    aliased := fun x n => (b.aliased x n).watched alarm single
    literal := fun v k => (b.literal v k).map (·.watched alarm single)
    expression := fun op xs k => (b.expression op xs k).map (·.watched alarm single)
    window := fun x xs ys fr => (b.window x xs ys fr).map (·.watched alarm single) }

/-! ### Plans of features -/

/-- Behind equal computations it matters what is done with what they give. -/
theorem bind_same {α β : Type} {r r' : Except Fault α} {f g : α → Except Fault β} (same : r' = r)
    (h : ∀ a, r = .ok a → g a = f a) : r' >>= g = r >>= f := by
  subst same
  cases r' with
  | ok a => exact h a rfl
  | error e => rfl

theorem mapM_same {α β γ : Type} {g h : α → β} {f : β → Except Fault γ} :
    ∀ {as : List α}, (∀ a ∈ as, f (g a) = f (h a)) → (as.map g).mapM f = (as.map h).mapM f
  | [], _ => rfl
  | a :: as, same => by
    obtain ⟨first, rest⟩ := List.forall_mem_cons.1 same
    rw [List.map_cons, List.map_cons, List.mapM_cons, List.mapM_cons, first, mapM_same rest]

namespace FeaturePlan

variable {single : Bool} {b : Batch}

/-- The plan is evaluated on groups, or it does not aggregate. -/
def Apt (single : Bool) (x : FeaturePlan) (b : Batch) : Prop :=
  single = true ∨ b.groups.isSome = true ∨ x.aggregate = false

/-- A plan, and one that gives the same columns where they must fill their batches. -/
structure Matched (single : Bool) (p : FeaturePlan × FeaturePlan) : Prop where
  aggregate : p.2.aggregate = p.1.aggregate
  label     : p.2.label = p.1.label
  fills     : ∀ b, b.data.Regular → ∀ column, p.1.values b = .ok column → p.1.Fills true b column
  same      : ∀ b, b.data.Regular → p.1.Apt single b → p.2.values b = p.1.values b

namespace Matched

variable {x y : FeaturePlan} {p : FeaturePlan × FeaturePlan} {ps : List (FeaturePlan × FeaturePlan)}
  {os : List (OrderSymbol (FeaturePlan × FeaturePlan))}

theorem of_fills (fills : ∀ b, b.data.Regular → ∀ column, x.values b = .ok column →
    x.Fills true b column) : Matched single (x, x) := ⟨rfl, rfl, fills, fun _ _ _ => rfl⟩

/-- **No alarm is raised** where a column must fill its batch. -/
theorem watched (h : Matched single (x, y)) (alarm : Fault) :
    Matched single (x, y.watched alarm single) where
  aggregate := h.aggregate
  label := h.label
  fills := h.fills
  same b regular apt := by
    show (do
      let column ← y.values b
      if y.Fills single b column then return column else throw alarm) = x.values b
    rw [h.same b regular apt]
    cases evaluated : x.values b with
    | error e => rfl
    | ok column =>
      have fills : y.Fills single b column := by
        rcases h.fills b regular column evaluated with wide | ⟨-, aggregates, rows, one⟩
        · exact .inl wide
        · rcases apt with apt | groups | plain
          · exact .inr ⟨apt, h.aggregate.trans aggregates, rows, one⟩
          · simp [rows] at groups
          · cases plain.symm.trans aggregates
      exact if_pos fills

/-! #### Nodes -/

theorem constant (v : Value) : Matched single (.constant v false none, .constant v false none) :=
  .of_fills fun _ _ _ evaluated => .inl (Except.ok.inj evaluated ▸ List.length_replicate)

theorem element (s : Source) (n : String) : Matched single (.element s n, .element s n) :=
  .of_fills fun b regular column evaluated => by
    obtain ⟨c, found, made⟩ := bind_eq_ok.1 evaluated
    have tall : c.length = b.data.length := regular.height _ (mem_of_column regular found)
    refine .inl ?_
    cases rows : b.groups with
    | none =>
      rw [rows] at made
      obtain rfl := pure_eq_ok.1 made
      simpa [Batch.size, rows] using tall
    | some gs =>
      rw [rows] at made
      obtain rfl := pure_eq_ok.1 made
      simp [Batch.size, rows]

theorem aliased (h : Matched single p) (n : String) :
    Matched single (p.1.aliased n, p.2.aliased n) := ⟨h.aggregate, rfl, h.fills, h.same⟩

/-- An aggregate evaluates its argument on rows. -/
theorem aggregateOf (op : Operator) {a : Option (FeaturePlan × FeaturePlan)}
    (h : ∀ p ∈ a, Matched single p) (flat : ∀ p ∈ a, single = true ∨ p.1.aggregate = false) :
    Matched single (.aggregateOf op (a.map (·.1)), .aggregateOf op (a.map (·.2))) where
  aggregate := rfl
  label := rfl
  fills b _ column evaluated := by
    obtain ⟨_, -, groups⟩ := aggregateOf_groups evaluated
    have length := groups.length_eq
    cases rows : b.groups with
    | none => exact .inr ⟨rfl, rfl, rows, by simpa [rows] using length.symm⟩
    | some gs => exact .inl (by simpa [Batch.size, rows] using length.symm)
  same b regular _ := by
    cases a with
    | none => rfl
    | some p =>
      have argument := (h p rfl).same (.ofData b.data) regular ((flat p rfl).imp_right .inr)
      simp only [FeaturePlan.aggregateOf, Option.map_some, argument]

theorem columns (h : ∀ p ∈ ps, Matched single p) (regular : b.data.Regular)
    (apt : ∀ p ∈ ps, p.1.Apt single b) :
    (ps.map (·.2)).mapM (fun x => x.values b) = (ps.map (·.1)).mapM fun x => x.values b :=
  mapM_same fun p hp => (h p hp).same b regular (apt p hp)

theorem any_aggregate (h : ∀ p ∈ ps, Matched single p) :
    (ps.map (·.2)).any FeaturePlan.aggregate = (ps.map (·.1)).any FeaturePlan.aggregate := by
  induction ps with
  | nil => rfl
  | cons p ps ih =>
    obtain ⟨first, rest⟩ := List.forall_mem_cons.1 h
    rw [List.map_cons, List.map_cons, List.any_cons, List.any_cons, first.aggregate, ih rest]

theorem rowWise (op : Operator) (k : Kind) (h : ∀ p ∈ ps, Matched single p) :
    Matched single (.rowWise op (ps.map (·.1)) k, .rowWise op (ps.map (·.2)) k) where
  aggregate := any_aggregate h
  label := rfl
  fills b _ column evaluated := by
    obtain ⟨columns, -, evaluated⟩ := bind_eq_ok.1 evaluated
    exact .inl (by rw [← (mapM_eq_ok evaluated).length_eq, List.length_range])
  same b regular apt := by
    have each : ∀ p ∈ ps, p.1.Apt single b := fun p hp => apt.imp_right fun apt => apt.imp_right
      fun plain => by
        have none : (ps.map (·.1)).any FeaturePlan.aggregate = false := plain
        simpa using List.any_eq_false.1 none p.1 (List.mem_map_of_mem hp)
    simp only [FeaturePlan.rowWise, columns h regular each]

theorem sortKeys (h : ∀ o ∈ os, Matched single o.1) (regular : b.data.Regular)
    (apt : ∀ o ∈ os, o.1.1.Apt single b) :
    FeaturePlan.sortKeys (os.map fun o => (o.1.2, o.2)) b
      = FeaturePlan.sortKeys (os.map fun o => (o.1.1, o.2)) b := by
  refine mapM_same fun o ho => ?_
  simp only [(h o ho).same b regular (apt o ho)]

end Matched

/-- A window evaluates its aggregate on groups, the frames, but its clauses on rows. -/
theorem Matched.windowValues {p : FeaturePlan × FeaturePlan} {ps : List (FeaturePlan × FeaturePlan)}
    {os : List (OrderSymbol (FeaturePlan × FeaturePlan))} (fr : Option Frame) (hfn : Matched single p)
    (hps : ∀ p ∈ ps, Matched single p) (hos : ∀ o ∈ os, Matched single o.1)
    (flat : ∀ p ∈ ps, single = true ∨ p.1.aggregate = false)
    (sorted : ∀ o ∈ os, single = true ∨ o.1.1.aggregate = false) :
    Matched single
      (⟨FeaturePlan.windowValues p.1 (ps.map (·.1)) (os.map fun o => (o.1.1, o.2)) fr, false, none⟩,
       ⟨FeaturePlan.windowValues p.2 (ps.map (·.2)) (os.map fun o => (o.1.2, o.2)) fr, false, none⟩) where
  aggregate := rfl
  label := rfl
  fills b _ column evaluated := by
    obtain ⟨rows, length, -⟩ := windowValues_forall (P := fun _ => True) (fun _ _ _ _ => trivial) trivial
      (show _ = Except.ok column from evaluated)
    exact .inl (by simpa [Batch.size, rows] using length)
  same b regular _ := by
    have keys := sortKeys hos regular fun o ho => (sorted o ho).imp_right .inr
    have clauses := columns hps regular fun p hp => (flat p hp).imp_right .inr
    have frames : ∀ keys, FeaturePlan.partitionValues p.2 keys fr b.data
        = FeaturePlan.partitionValues p.1 keys fr b.data := by
      intro keys
      have frame : ∀ rows : List Nat,
          p.2.values ⟨b.data, some [rows]⟩ = p.1.values ⟨b.data, some [rows]⟩ := fun rows =>
        hfn.same ⟨b.data, some [rows]⟩ regular (.inr (.inl rfl))
      funext members
      simp only [FeaturePlan.partitionValues, frame]
    simp only [FeaturePlan.windowValues, keys, clauses, frames]

end FeaturePlan

/-! ### Plans of sources -/

/-- All data of the catalog is regular. -/
def Catalog.Rectangular (catalog : Catalog) : Prop :=
  ∀ name d, Assoc.find? (name == ·) catalog = some d → d.Regular

namespace SourcePlan

/-- From regular data the plan makes regular data. -/
def Rectangular (x : SourcePlan) : Prop :=
  ∀ catalog : Catalog, catalog.Rectangular → ∀ d, x catalog = .ok d → d.Regular

/-- Both plans give the same from regular data, namely regular data. -/
def Same (p : SourcePlan × SourcePlan) : Prop :=
  p.1.Rectangular ∧ ∀ catalog : Catalog, catalog.Rectangular → p.2 catalog = p.1 catalog

theorem rectangular_scan (name : String) : (scan name).Rectangular := by
  intro catalog rectangular d given
  unfold scan at given
  split at given
  · rename_i found
    obtain rfl := Except.ok.inj given
    exact rectangular _ _ found
  · cases given

theorem Rectangular.qualified {x : SourcePlan} (h : x.Rectangular) (n : String) :
    (x.qualified n).Rectangular := by
  intro catalog rectangular d given
  obtain ⟨e, evaluated, given⟩ := bind_eq_ok.1 given
  obtain rfl := pure_eq_ok.1 given
  exact (h catalog rectangular e evaluated).qualify n

namespace Same

variable {single : Bool} {x y : SourcePlan × SourcePlan}

theorem refl {x : SourcePlan} (h : x.Rectangular) : Same (x, x) := ⟨h, fun _ _ => rfl⟩

theorem qualified (h : Same x) (n : String) : Same (x.1.qualified n, x.2.qualified n) :=
  ⟨h.1.qualified n, fun catalog rectangular => by
    simp only [SourcePlan.qualified, h.2 catalog rectangular]⟩

/-- The condition of a join is evaluated on rows. -/
theorem join (hx : Same x) (hy : Same y) {z : Option (FeaturePlan × FeaturePlan)}
    (hz : ∀ p ∈ z, FeaturePlan.Matched single p) (flat : ∀ p ∈ z, single = true ∨ p.1.aggregate = false)
    (k : JoinType) :
    Same (.join x.1 y.1 (z.map (·.1)) k, .join x.2 y.2 (z.map (·.2)) k) := by
  refine ⟨fun catalog rectangular d given => ?_, fun catalog rectangular => ?_⟩
  · obtain ⟨dl, dr, pairs, left, right, -, joined⟩ := join_eq_ok.1 given
    exact regular_sideBySide (hx.1 catalog rectangular dl left) (hy.1 catalog rectangular dr right) joined
  · simp only [SourcePlan.join, hx.2 catalog rectangular, hy.2 catalog rectangular]
    refine bind_same rfl fun l left => bind_same rfl fun r right => bind_same rfl fun all product => ?_
    cases z with
    | none => rfl
    | some p =>
      have regular : all.Regular := regular_sideBySide (hx.1 catalog rectangular l left)
        (hy.1 catalog rectangular r right) product
      have condition := (hz p rfl).same (.ofData all) regular ((flat p rfl).imp_right .inr)
      simp only [Option.map_some, condition]

theorem set (hx : Same x) (hy : Same y) (k : SetOp) : Same (.set x.1 y.1 k, .set x.2 y.2 k) := by
  refine ⟨fun catalog _ d given => ?_, fun catalog rectangular => ?_⟩
  · obtain ⟨l, -, given⟩ := bind_eq_ok.1 given
    obtain ⟨r, -, given⟩ := bind_eq_ok.1 given
    obtain ⟨right, -, given⟩ := bind_eq_ok.1 given
    obtain ⟨left, -, given⟩ := bind_eq_ok.1 given
    obtain rfl := pure_eq_ok.1 given
    exact regular_ofRows _ _
  · simp only [SourcePlan.set, hx.2 catalog rectangular, hy.2 catalog rectangular]

section

variable {xs ys : List (FeaturePlan × FeaturePlan)} {y z : Option (FeaturePlan × FeaturePlan)}
  {zs : List (OrderSymbol (FeaturePlan × FeaturePlan))}

theorem isGrouped (hxs : ∀ p ∈ xs, FeaturePlan.Matched single p)
    (hzs : ∀ o ∈ zs, FeaturePlan.Matched single o.1) :
    SourcePlan.isGrouped (xs.map (·.2)) (ys.map (·.2)) (z.map (·.2)) (zs.map fun o => (o.1.2, o.2))
      = SourcePlan.isGrouped (xs.map (·.1)) (ys.map (·.1)) (z.map (·.1)) (zs.map fun o => (o.1.1, o.2)) := by
  have ordering := FeaturePlan.Matched.any_aggregate (List.forall_mem_map.2 hzs)
  simp only [List.map_map, List.any_map] at ordering
  simp only [SourcePlan.isGrouped, FeaturePlan.Matched.any_aggregate hxs, List.any_map, List.isEmpty_map,
    Option.isSome_map]
  exact congrArg _ ordering

theorem filtered (hy : ∀ p ∈ y, FeaturePlan.Matched single p)
    (flat : ∀ p ∈ y, single = true ∨ p.1.aggregate = false) {all : Dataset} (regular : all.Regular) :
    Evaluation.filtered (y.map (·.2)) all = Evaluation.filtered (y.map (·.1)) all := by
  cases y with
  | none => rfl
  | some p =>
    have mask := (hy p rfl).same (.ofData all) regular ((flat p rfl).imp_right .inr)
    simp only [Evaluation.filtered, Option.map_some, mask]

/-- Keys are evaluated on rows, and a filter of groups on groups. -/
theorem groupsOf (hys : ∀ p ∈ ys, FeaturePlan.Matched single p)
    (flat : ∀ p ∈ ys, single = true ∨ p.1.aggregate = false)
    (hz : ∀ p ∈ z, FeaturePlan.Matched single p) {d : Dataset} (regular : d.Regular) :
    SourcePlan.groupsOf (ys.map (·.2)) (z.map (·.2)) d
      = SourcePlan.groupsOf (ys.map (·.1)) (z.map (·.1)) d := by
  have keys := FeaturePlan.Matched.columns (b := .ofData d) hys regular fun p hp =>
    (flat p hp).imp_right .inr
  rw [groupsOf_eq, groupsOf_eq]
  refine bind_same (by simp only [allGroups, keys, List.isEmpty_map]) fun groups _ => ?_
  cases z with
  | none => rfl
  | some p =>
    have mask := (hz p rfl).same ⟨d, some groups⟩ regular (.inr (.inl rfl))
    simp only [remaining, Option.map_some, mask]

theorem outputRefs (hxs : ∀ p ∈ xs, FeaturePlan.Matched single p) :
    SourcePlan.outputRefs (xs.map (·.2)) = SourcePlan.outputRefs (xs.map (·.1)) := by
  refine List.ext_getElem (by simp [SourcePlan.outputRefs]) fun i bound _ => ?_
  have inside : i < xs.length := by simpa [SourcePlan.outputRefs] using bound
  simp [SourcePlan.outputRefs, (hxs _ (List.getElem_mem inside)).label]

theorem projected (hxs : ∀ p ∈ xs, FeaturePlan.Matched single p)
    (hzs : ∀ o ∈ zs, FeaturePlan.Matched single o.1) {b : Batch} (regular : b.data.Regular)
    (apt : ∀ p ∈ xs, p.1.Apt single b) (sorted : ∀ o ∈ zs, o.1.1.Apt single b)
    (rows : Option RowRange) :
    Evaluation.projected (xs.map (·.2)) (zs.map fun o => (o.1.2, o.2)) rows b
      = Evaluation.projected (xs.map (·.1)) (zs.map fun o => (o.1.1, o.2)) rows b := by
  unfold Evaluation.projected
  refine bind_same (FeaturePlan.Matched.sortKeys hzs regular sorted) fun keys _ =>
    bind_same rfl fun positions _ => ?_
  rw [outputRefs hxs]
  refine bind_same (mapM_same fun p hp => ?_) fun _ _ => rfl
  rw [(hxs p hp).same b regular (apt p hp)]

theorem regular_filter {d : Dataset} (regular : d.Regular) (mask : List Value) :
    (d.filter mask).Regular :=
  ⟨by simp [Dataset.filter, take, regular.width], by simp [Dataset.filter, take]⟩

/-- **A statement evaluates its filter and its keys on rows**, and all else on groups if anything
aggregates. -/
theorem query (hx : Same x) (hxs : ∀ p ∈ xs, FeaturePlan.Matched single p)
    (hy : ∀ p ∈ y, FeaturePlan.Matched single p)
    (whole : ∀ p ∈ y, single = true ∨ p.1.aggregate = false)
    (hys : ∀ p ∈ ys, FeaturePlan.Matched single p)
    (keyed : ∀ p ∈ ys, single = true ∨ p.1.aggregate = false)
    (hz : ∀ p ∈ z, FeaturePlan.Matched single p) (hzs : ∀ o ∈ zs, FeaturePlan.Matched single o.1)
    (rows : Option RowRange) :
    Same (.query x.1 (xs.map (·.1)) (y.map (·.1)) (ys.map (·.1)) (z.map (·.1))
        (zs.map fun o => (o.1.1, o.2)) rows,
      .query x.2 (xs.map (·.2)) (y.map (·.2)) (ys.map (·.2)) (z.map (·.2))
        (zs.map fun o => (o.1.2, o.2)) rows) := by
  refine ⟨fun catalog rectangular d given => ?_, fun catalog rectangular => ?_⟩
  · obtain ⟨columns, length, made⟩ := query_made given
    exact regular_of_ofColumns made
  show SourcePlan.query _ _ _ _ _ _ _ _ = SourcePlan.query _ _ _ _ _ _ _ _
  rw [query_eq, query_eq, hx.2 catalog rectangular, isGrouped hxs hzs, bind_assoc, bind_assoc]
  refine bind_same rfl fun all given => ?_
  have regular := hx.1 catalog rectangular all given
  refine bind_same (filtered hy whole regular) fun data passing => ?_
  replace regular : data.Regular := by
    obtain ⟨none, some⟩ := filtered_eq_ok passing
    cases y with
    | none => exact none rfl ▸ regular
    | some p =>
      obtain ⟨mask, -, rfl⟩ := some p.1 rfl
      exact regular_filter regular mask
  refine bind_same (by simp only [batched, groupsOf hys keyed hz regular]) fun b made => ?_
  -- On rows nothing aggregates.
  obtain ⟨grouped, ungrouped⟩ := batched_eq_ok made
  cases hg : SourcePlan.isGrouped (xs.map (·.1)) (ys.map (·.1)) (z.map (·.1))
      (zs.map fun o => (o.1.1, o.2)) with
  | true =>
    obtain ⟨groups, left, -, -, rfl⟩ := grouped hg
    exact projected hxs hzs regular (fun _ _ => .inr (.inl rfl)) (fun _ _ => .inr (.inl rfl)) rows
  | false =>
    obtain rfl := ungrouped hg
    simp only [SourcePlan.isGrouped, Bool.or_eq_false_iff, List.any_eq_false] at hg
    refine projected hxs hzs regular (fun p hp => .inr (.inr ?_)) (fun o ho => .inr (.inr ?_)) rows
    · simpa using hg.1.2 p.1 (List.mem_map_of_mem hp)
    · simpa using hg.2 (o.1.1, o.2) (List.mem_map_of_mem ho)

end

end Same

end SourcePlan

end Evaluation

end QueryAlgebra
