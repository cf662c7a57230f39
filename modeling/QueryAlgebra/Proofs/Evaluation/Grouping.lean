import QueryAlgebra.Proofs.Evaluation.Arrangement
import QueryAlgebra.Proofs.Evaluation.Naming
import QueryAlgebra.Proofs.Evaluation.Plans
import QueryAlgebra.Proofs.Evaluation.Rows

/-!
# Rows of statements by groups

A statement with grouping keys has a row for each key of a row, in the order in which the keys appear
first, and its keys are what they are on all rows of a group, up to what keys of values do not keep. A
statement without them has one row if it aggregates, and otherwise a row for each row that passes its
filter. Aggregates are found, and columns of keys are taken, by plans that are remembered by keys of
features; so all this is what the tree says where keys of elements tell what they read.

* `Passing`, `RowKeys`, `Remaining`: the rows that a filter passes, their keys, and the groups that a
  group filter leaves.
* `Shows`, `ShowsGroups`, `ShowsKeys`: the rows of a statement are rows, groups, or groups by keys, in
  some order.
* `Feature.Plans.leading`: the value of a feature on a group is its value on the first row.
* `filtered_eq_ok`, `batched_eq_ok`, `projected_eq_ok`: what the steps of a statement give.
* `grouped_rows`: the rows of a statement.
* `groups_confused`: columns of two tables with one key are one column.
-/

namespace QueryAlgebra

open Evaluation Translation Dataset

/-! ### Rows and groups of a statement -/

/-- The rows of data that pass a filter: those on which it is true. -/
def Passing (pre : Option Feature) (all data : Dataset) : Prop :=
  (pre = none → data = all) ∧
    ∀ p ∈ pre, ∃ mask, p.Column (.ofData all) mask ∧ data = all.filter mask

/-- The columns of grouping keys, and the keys that they give to rows. -/
structure RowKeys (grp : List Feature) (data : Dataset) (columns : List (List Value))
    (keys : List String) : Prop where
  read  : List.Forall₂ (fun g c => g.Column (.ofData data) c) grp columns
  keyed : (List.range data.length).mapM (keyAt columns) = .ok keys

/-- The groups that a group filter leaves: those on which it is true. -/
def Remaining (post : Option Feature) (data : Dataset) (groups left : List (List Nat)) : Prop :=
  (post = none → left = groups) ∧
    ∀ p ∈ post, ∃ mask, p.Column ⟨data, some groups⟩ mask ∧
      left = ((groups.zip (List.range groups.length)).filter fun g =>
        (item mask g.2).isBool true).map (·.1)

/-- The positions below a bound in some order, which is their own one without ordering. -/
def InOrder (ord : List OrderTerm) (n : Nat) (order : List Nat) : Prop :=
  order.Perm (List.range n) ∧ (ord = [] → order = List.range n)

/-- The rows of data are those of a batch, in an order: the columns are columns of features. -/
structure Shows (fs : List Feature) (b : Batch) (order : List Nat) (d : Dataset) : Prop where
  height : d.length = order.length
  column : List.Forall₂ (fun f c => ∃ values, f.Column b values ∧ c = order.map (item values)) fs
    d.columns

/-- The rows of data are groups that a group filter leaves, in an order. Where all rows are counted,
the sizes of the groups are. -/
structure ShowsGroups (fs : List Feature) (post : Option Feature) (ord : List OrderTerm)
    (data : Dataset) (groups left : List (List Nat)) (order : List Nat) (d : Dataset) : Prop where
  remain  : Remaining post data groups left
  ordered : InOrder ord left.length order
  shows   : Shows fs ⟨data, some left⟩ order d
  counted : ∀ (i : Nat) (f : Feature) (t : Option Kind), fs[i]? = some f →
    f.bare = .expression .count [] t →
      d.columns[i]? = some (order.map fun p => .number (.ofNat (left.getD p []).length))

/-- The rows of data are groups of rows by grouping keys. A group is shown by one row, the sizes of all
groups are the number of rows, and a key that is selected has, up to what keys of values do not keep,
the value that it has on every row of the group. -/
structure ShowsKeys (fs grp : List Feature) (post : Option Feature) (ord : List OrderTerm)
    (data : Dataset) (columns : List (List Value)) (keys : List String) (left : List (List Nat))
    (order : List Nat) (d : Dataset) : Prop where
  given  : RowKeys grp data columns keys
  sizes  : ((keyGroups keys).map List.length).sum = data.length
  groups : ShowsGroups fs post ord data (keyGroups keys) left order d
  once   : post = none → d.length = keys.eraseDups.length
  chosen : ∀ (i j : Nat) (f g : Feature), fs[i]? = some f → grp[j]? = some g → f.bare.key = g.key →
    ∀ p < d.length, ∀ row ∈ left.getD (order.getD p 0) [],
      (item (d.columns.getD i []) p).key = (item (columns.getD j []) row).key

theorem InOrder.length {ord : List OrderTerm} {n : Nat} {order : List Nat} (h : InOrder ord n order) :
    order.length = n := by
  rw [h.1.length_eq, List.length_range]

theorem ShowsGroups.height {fs : List Feature} {post : Option Feature} {ord : List OrderTerm}
    {data : Dataset} {groups left : List (List Nat)} {order : List Nat} {d : Dataset}
    (h : ShowsGroups fs post ord data groups left order d) : d.length = left.length :=
  h.shows.height.trans h.ordered.length

/-- A group filter only takes groups away. -/
theorem Remaining.mem {post : Option Feature} {data : Dataset} {groups left : List (List Nat)}
    (h : Remaining post data groups left) : ∀ g ∈ left, g ∈ groups := by
  intro g hg
  cases post with
  | none => exact h.1 rfl ▸ hg
  | some p =>
    obtain ⟨mask, -, rfl⟩ := h.2 p rfl
    obtain ⟨e, he, rfl⟩ := List.mem_map.1 hg
    exact (List.of_mem_zip (List.mem_filter.1 he).1).1

/-- Some feature that is selected, or that rows are ordered by, has an aggregate outside of windows. -/
def Aggregated (fs : List Feature) (ord : List OrderTerm) : Prop :=
  ∃ f ∈ fs ++ ord.map OrderTerm.feature, f.hasAggregate = true

/-! ### Values on groups -/

namespace Evaluation

variable {d : Dataset} {groups : List (List Nat)}

/-- The values of arguments on a group are those on its first row, if each of them is. -/
theorem leading_columns {args : List Feature} {xs : List FeaturePlan} {p i : Nat}
    (each : ∀ c ∈ args, ∀ x, c.Plans x → ∀ column values, x.values (.ofData d) = .ok column →
      x.values ⟨d, some groups⟩ = .ok values → item values p = item column i)
    (h : List.Forall₂ Feature.Plans args xs) : ∀ {columns values : List (List Value)},
    xs.mapM (fun x => x.values (.ofData d)) = .ok columns →
    xs.mapM (fun x => x.values ⟨d, some groups⟩) = .ok values →
      values.map (fun c => item c p) = columns.map fun c => item c i := by
  intro columns values hc hv
  replace hc := mapM_eq_ok hc
  replace hv := mapM_eq_ok hv
  induction h generalizing columns values with
  | nil =>
    cases hc
    cases hv
    rfl
  | cons hx _ rest =>
    cases hc with
    | cons hc others =>
      cases hv with
      | cons hv others' =>
        rw [List.map_cons, List.map_cons, each _ List.mem_cons_self _ hx _ _ hc hv,
          rest (fun c hc => each c (List.mem_cons_of_mem _ hc)) others others']

/-- **On a group a feature without aggregates and windows has its value on the first row.** -/
theorem leading {p i : Nat} {r : List Nat} (group : groups[p]? = some (i :: r))
    (inside : i < d.length) : ∀ f : Feature, (f.Throughout fun g => g.isCollective = false) →
    ∀ x, f.Plans x → ∀ column values, x.values (.ofData d) = .ok column →
      x.values ⟨d, some groups⟩ = .ok values → item values p = item column i := by
  have bound : p < groups.length := (List.getElem?_eq_some_iff.1 group).1
  refine Feature.childInduction fun f ih single x h column values hc hv => ?_
  have part : ∀ c ∈ f.children, ∀ x, c.Plans x → ∀ column values,
      x.values (.ofData d) = .ok column → x.values ⟨d, some groups⟩ = .ok values →
        item values p = item column i := fun c hmem => ih c hmem (single.parts c hmem)
  cases h with
  | aliased h => exact part _ (List.mem_singleton_self _) _ h column values hc hv
  | literal =>
    obtain rfl := Except.ok.inj hc
    obtain rfl := Except.ok.inj hv
    simp [item, Batch.size, Batch.ofData, inside, bound]
  | element =>
    obtain ⟨found, read, hc⟩ := bind_eq_ok.1 hc
    obtain ⟨found', read', hv⟩ := bind_eq_ok.1 hv
    obtain rfl : found = found' := Except.ok.inj (read.symm.trans read')
    obtain rfl := pure_eq_ok.1 hc
    obtain rfl := pure_eq_ok.1 hv
    simp [item, group, chosen]
  | @expression op args t xs h =>
    have rowWise : op.aggregates = false := by
      simpa [Feature.isCollective, Feature.isWindow, Feature.aggregates] using single.own
    simp only [FeaturePlan.expression, rowWise, Bool.false_eq_true, if_false] at hc hv
    obtain ⟨columns, arguments, hc⟩ := bind_eq_ok.1 hc
    obtain ⟨columns', arguments', hv⟩ := bind_eq_ok.1 hv
    have rows : Tabulates d.length _ column := .of_mapM hc
    have leaders : Tabulates groups.length _ values := .of_mapM hv
    have first := leaders.item p bound
    rw [leading_columns part h arguments arguments'] at first
    exact Except.ok.inj (first.symm.trans (rows.item i inside))
  | window => exact absurd single.own (by simp [Feature.isCollective, Feature.isWindow])

/-- Counting all rows gives the sizes of groups. -/
theorem counted_on_groups {t : Option Kind} {x : FeaturePlan}
    (h : (Feature.expression .count [] t).Plans x) {values : List Value}
    (hv : x.values ⟨d, some groups⟩ = .ok values) :
    values = groups.map fun g => .number (.ofNat g.length) := by
  cases h with
  | expression h =>
    cases h
    have each := mapM_eq_ok
      (show groups.mapM (fun g => summarize .count none g.length) = .ok values from hv)
    clear hv
    induction each with
    | nil => rfl
    | cons hv _ ih => rw [List.map_cons, ← ih, ← Except.ok.inj hv]

/-! ### Evaluating a statement -/

/-- The rows that a filter leaves are all rows, or those on which it is true. -/
theorem filtered_eq_ok {filter : Option FeaturePlan} {all data : Dataset}
    (h : filtered filter all = .ok data) : (filter = none → data = all) ∧
      ∀ f ∈ filter, ∃ mask, f.values (.ofData all) = .ok mask ∧ data = all.filter mask := by
  cases filter with
  | none => exact ⟨fun _ => (Except.ok.inj h).symm, nofun⟩
  | some f =>
    obtain ⟨mask, masked, kept⟩ := bind_eq_ok.1 h
    refine ⟨nofun, ?_⟩
    rintro _ ⟨⟩
    exact ⟨mask, masked, (pure_eq_ok.1 kept).symm⟩

/-- The groups of a statement, before a group filter. -/
def allGroups (groupby : List FeaturePlan) (data : Dataset) : Except Fault (List (List Nat)) :=
  if groupby.isEmpty then .ok [List.range data.length]
  else do groupRows data.length (← groupby.mapM fun g => g.values (.ofData data))

theorem allGroups_of_keys {groupby : List FeaturePlan} (keyed : groupby ≠ []) {data : Dataset}
    {groups : List (List Nat)} (h : allGroups groupby data = .ok groups) :
    ∃ columns, groupby.mapM (fun g => g.values (.ofData data)) = .ok columns ∧
      groupRows data.length columns = .ok groups := by
  rw [allGroups, if_neg (by simpa using keyed)] at h
  exact bind_eq_ok.1 h

/-- The groups that a group filter leaves. -/
def remaining (having : Option FeaturePlan) (data : Dataset) (groups : List (List Nat)) :
    Except Fault (List (List Nat)) :=
  match having with
  | none   => .ok groups
  | some f => do
    let mask ← f.values ⟨data, some groups⟩
    return ((groups.zip (List.range groups.length)).filter fun g =>
      (item mask g.2).isBool true).map (·.1)

theorem groupsOf_eq (groupby : List FeaturePlan) (having : Option FeaturePlan) (data : Dataset) :
    SourcePlan.groupsOf groupby having data = allGroups groupby data >>= remaining having data := by
  unfold SourcePlan.groupsOf allGroups remaining
  cases having <;> cases groupby.isEmpty <;>
    simp only [bind_assoc, pure_bind, Bool.false_eq_true, if_false, if_true] <;> rfl

/-- The groups that are left are all groups, or those on which the filter is true. -/
theorem remaining_eq_ok {having : Option FeaturePlan} {data : Dataset} {groups left : List (List Nat)}
    (h : remaining having data groups = .ok left) : (having = none → left = groups) ∧
      ∀ f ∈ having, ∃ mask, f.values ⟨data, some groups⟩ = .ok mask ∧
        left = ((groups.zip (List.range groups.length)).filter fun g =>
          (item mask g.2).isBool true).map (·.1) := by
  cases having with
  | none => exact ⟨fun _ => (Except.ok.inj h).symm, nofun⟩
  | some f =>
    obtain ⟨mask, masked, kept⟩ := bind_eq_ok.1 h
    refine ⟨nofun, ?_⟩
    rintro _ ⟨⟩
    exact ⟨mask, masked, (pure_eq_ok.1 kept).symm⟩

/-- A statement that is grouped is evaluated on the groups that are left, and otherwise on rows. -/
theorem batched_eq_ok {groups? : Bool} {groupby : List FeaturePlan} {having : Option FeaturePlan}
    {data : Dataset} {b : Batch} (h : batched groups? groupby having data = .ok b) :
    (groups? = true → ∃ groups left, allGroups groupby data = .ok groups ∧
      remaining having data groups = .ok left ∧ b = ⟨data, some left⟩) ∧
    (groups? = false → b = .ofData data) := by
  cases groups? with
  | true =>
    refine ⟨fun _ => ?_, nofun⟩
    obtain ⟨left, hleft, same⟩ := bind_eq_ok.1 h
    rw [groupsOf_eq] at hleft
    obtain ⟨groups, hgroups, hleft⟩ := bind_eq_ok.1 hleft
    exact ⟨groups, left, hgroups, hleft, (pure_eq_ok.1 same).symm⟩
  | false => exact ⟨nofun, fun _ => (Except.ok.inj h).symm⟩

/-- The rows of a projected batch are those of the batch, each once, in their own order without keys. -/
theorem projected_eq_ok {xs : List FeaturePlan} {orderby : List (OrderSymbol FeaturePlan)} {b : Batch}
    {d : Dataset} (h : projected xs orderby none b = .ok d) :
    ∃ order, order.Perm (List.range b.size) ∧ (orderby = [] → order = List.range b.size) ∧
      d.length = order.length ∧
      List.Forall₂ (fun x c => ∃ values, x.values b = .ok values ∧ c = order.map (item values)) xs
        d.columns := by
  obtain ⟨keys, hkeys, h⟩ := bind_eq_ok.1 h
  obtain ⟨order, horder, h⟩ := bind_eq_ok.1 h
  obtain ⟨columns, hcolumns, made⟩ := bind_eq_ok.1 h
  obtain ⟨columnsOf, length⟩ : d.columns = columns ∧ d.length = order.length := by
    unfold ofColumns at made
    dsimp only at made
    split at made
    · obtain ⟨_, -, made⟩ := bind_eq_ok.1 made
      rw [← Except.ok.inj made]
      exact ⟨rfl, rfl⟩
    · cases made
  refine ⟨order, arrange_perm horder, ?_, length, ?_⟩
  · rintro rfl
    obtain rfl : [] = keys := pure_eq_ok.1 hkeys
    rw [arrange_unkeyed] at horder
    exact (Except.ok.inj horder).symm
  · rw [columnsOf]
    refine (mapM_eq_ok hcolumns).imp fun x c h => ?_
    obtain ⟨values, hv, h⟩ := bind_eq_ok.1 h
    exact ⟨values, hv, (pure_eq_ok.1 h).symm⟩

/-! ### Rows of statements -/

section

variable {sources : KeyedMap Source SourcePlan} {kinds : String → Kind} {labels : String → String}
  {m : List (String × FeaturePlan)}

/-- What is related to an item of a list stands at its position. -/
theorem related_at {α β : Type} {R : α → β → Prop} {as : List α} {bs : List β}
    (h : List.Forall₂ R as bs) {i : Nat} {a : α} (ha : as[i]? = some a) :
    ∃ b, bs[i]? = some b ∧ R a b := by
  obtain ⟨bound, rfl⟩ := List.getElem?_eq_some_iff.1 ha
  have bound' : i < bs.length := h.length_eq ▸ bound
  exact ⟨bs[i], List.getElem?_eq_getElem bound', h.get bound bound'⟩

/-- Lists that are related through a list. -/
theorem forall₂_through {α β γ : Type} {R : α → β → Prop} {S : β → γ → Prop} {as : List α}
    {bs : List β} {cs : List γ} (h : List.Forall₂ R as bs) (k : List.Forall₂ S bs cs) :
    List.Forall₂ (fun a c => ∃ b, R a b ∧ S b c) as cs := by
  induction h generalizing cs with
  | nil =>
    cases k
    exact .nil
  | cons hr _ ih =>
    cases k with
    | cons hs others => exact .cons ⟨_, hr, hs⟩ (ih others)

/-- A feature has the values of the feature without its alias. -/
theorem bare_of_remembered (hm : Grounded sources kinds labels m) {f : Feature}
    (hf : f.Obeys (.faithful kinds labels)) {x : FeaturePlan} (hx : Remembers m f.key x) :
    ∃ y, Remembers m f.bare.key y ∧ f.bare.Plans y ∧ x.values = y.values := by
  cases f with
  | aliased f n =>
    cases made_of_grounded hm hf hx with
    | aliased hy => exact ⟨_, hy, plans_of_remembered hm f hf.2 _ hy, rfl⟩
  | _ => exact ⟨x, hx, plans_of_remembered hm _ hf x hx, rfl⟩

/-- The plan of an optional feature. -/
theorem option_of_remembered {o : Option Feature} {z : Option FeaturePlan}
    (h : Remembered m o.toList z.toList) :
    (o = none → z = none) ∧ ∀ p ∈ o, ∃ x ∈ z, Remembers m p.key x := by
  cases o with
  | none =>
    cases z with
    | none => exact ⟨fun _ => rfl, nofun⟩
    | some => cases h
  | some p =>
    cases z with
    | none => cases h
    | some x =>
      refine ⟨nofun, ?_⟩
      rintro _ ⟨⟩
      exact ⟨x, rfl, (List.forall₂_cons.1 h).1⟩

/-- Plans of features aggregate where one of the features has an aggregate outside of windows. -/
theorem any_aggregate {fs : List Feature} {xs : List FeaturePlan}
    (h : List.Forall₂ Feature.Plans fs xs) :
    xs.any FeaturePlan.aggregate = fs.any Feature.hasAggregate := by
  induction h with
  | nil => rfl
  | cons hx _ ih => rw [List.any_cons, List.any_cons, hx.aggregate, ih]

/-- The rows of a projected batch, with the plans that are remembered for the features. -/
theorem projected_rows {fs : List Feature} {xs : List FeaturePlan} (hxs : Remembered m fs xs)
    {ord : List OrderTerm} {zs : List (OrderSymbol FeaturePlan)} (hzs : RememberedTerms m ord zs)
    {b : Batch} {d : Dataset} (h : projected xs zs none b = .ok d) :
    ∃ order, InOrder ord b.size order ∧ d.length = order.length ∧
      List.Forall₂ (fun f c => ∃ x values, Remembers m f.key x ∧ x.values b = .ok values ∧
        c = order.map (item values)) fs d.columns := by
  obtain ⟨order, perm, unordered, length, columns⟩ := projected_eq_ok h
  refine ⟨order, ⟨perm, ?_⟩, length, ?_⟩
  · rintro rfl
    cases hzs
    exact unordered rfl
  · refine (forall₂_through hxs columns).imp ?_
    rintro f c ⟨x, hx, values, hv, hc⟩
    exact ⟨x, values, hx, hv, hc⟩

/-- The rows of a batch are shown by plans that are remembered. -/
theorem shows_of_rows (hm : Grounded sources kinds labels m) {fs : List Feature}
    (hfs : ∀ f ∈ fs, f.Obeys (.faithful kinds labels)) {b : Batch} {order : List Nat} {d : Dataset}
    (length : d.length = order.length)
    (h : List.Forall₂ (fun f c => ∃ x values, Remembers m f.key x ∧ x.values b = .ok values ∧
      c = order.map (item values)) fs d.columns) : Shows fs b order d := by
  refine ⟨length, ((List.forall₂_and_left _ _).2 ⟨hfs, h⟩).imp ?_⟩
  rintro f c ⟨hf, x, values, hx, hv, rfl⟩
  exact ⟨values, ⟨x, plans_of_remembered hm f hf x hx, hv⟩, rfl⟩

/-- The rows that pass are those that a remembered filter leaves. -/
theorem passing_of_filtered (hm : Grounded sources kinds labels m) {pre : Option Feature}
    (hpre : ∀ p ∈ pre, p.Obeys (.faithful kinds labels)) {y : Option FeaturePlan}
    (hy : Remembered m pre.toList y.toList) {all data : Dataset} (h : filtered y all = .ok data) :
    Passing pre all data := by
  obtain ⟨absent, present⟩ := option_of_remembered hy
  obtain ⟨whole, kept⟩ := filtered_eq_ok h
  refine ⟨fun none => whole (absent none), fun p hp => ?_⟩
  obtain ⟨v, hv, remembered⟩ := present p hp
  obtain ⟨mask, masked, rest⟩ := kept v hv
  exact ⟨mask, ⟨v, plans_of_remembered hm p (hpre p hp) v remembered, masked⟩, rest⟩

/-- The groups of a statement are shown by plans that are remembered. -/
theorem groups_shown (hm : Grounded sources kinds labels m) {fs : List Feature}
    (hfs : ∀ f ∈ fs, f.Obeys (.faithful kinds labels)) {post : Option Feature}
    (hpost : ∀ p ∈ post, p.Obeys (.faithful kinds labels)) {ord : List OrderTerm} {data d : Dataset}
    {groups left : List (List Nat)} {z : Option FeaturePlan} (hz : Remembered m post.toList z.toList)
    (rest : remaining z data groups = .ok left) {order : List Nat}
    (ordered : InOrder ord left.length order) (length : d.length = order.length)
    (h : List.Forall₂ (fun f c => ∃ x values, Remembers m f.key x ∧
      x.values ⟨data, some left⟩ = .ok values ∧ c = order.map (item values)) fs d.columns) :
    ShowsGroups fs post ord data groups left order d := by
  obtain ⟨absent, present⟩ := option_of_remembered hz
  obtain ⟨whole, kept⟩ := remaining_eq_ok rest
  refine ⟨⟨fun none => whole (absent none), fun p hp => ?_⟩, ordered, shows_of_rows hm hfs length h,
    fun i f t hi bare => ?_⟩
  · obtain ⟨x, hx, remembered⟩ := present p hp
    obtain ⟨mask, masked, rest⟩ := kept x hx
    exact ⟨mask, ⟨x, plans_of_remembered hm p (hpost p hp) x remembered, masked⟩, rest⟩
  · obtain ⟨c, hc, x, values, hx, hv, rfl⟩ := related_at h hi
    obtain ⟨y, -, plan, same⟩ := bare_of_remembered hm (hfs _ (List.mem_of_getElem? hi)) hx
    rw [same] at hv
    obtain rfl := counted_on_groups (bare ▸ plan) hv
    refine hc.trans (congrArg some (List.map_congr_left fun p hp => ?_))
    have inside : p < left.length := List.mem_range.1 (ordered.1.subset hp)
    simp [item, inside]

/-- **A key that is selected has its value on the first row of a group.** -/
theorem key_on_group (hm : Grounded sources kinds labels m) {f g : Feature}
    (hf : f.Obeys (.faithful kinds labels)) (hg : g.Obeys (.faithful kinds labels))
    (single : g.Throughout fun h => h.isCollective = false) (same : f.bare.key = g.key)
    {x y : FeaturePlan} (hx : Remembers m f.key x) (hy : Remembers m g.key y) {data : Dataset}
    {groups : List (List Nat)} {values column : List Value}
    (hv : x.values ⟨data, some groups⟩ = .ok values) (hc : y.values (.ofData data) = .ok column)
    {p i : Nat} {r : List Nat} (group : groups[p]? = some (i :: r)) (inside : i < data.length) :
    item values p = item column i := by
  obtain ⟨z, hz, -, values_eq⟩ := bare_of_remembered hm hf hx
  obtain rfl : y = z := Option.some.inj (hy.symm.trans (same ▸ hz))
  exact leading group inside g single y (plans_of_remembered hm g hg y hy) column values hc
    (values_eq ▸ hv)

/-- **A key that is selected is shown as it is on every row of its group**, up to what keys of values
do not keep. -/
theorem chosen_key (hm : Grounded sources kinds labels m) {fs grp : List Feature}
    (hfs : ∀ f ∈ fs, f.Obeys (.faithful kinds labels))
    (hgrp : ∀ g ∈ grp, g.Obeys (.faithful kinds labels))
    (single : ∀ g ∈ grp, g.Throughout fun h => h.isCollective = false) {data d : Dataset}
    {columns : List (List Value)} (read : List.Forall₂ (fun g c => ∃ y, Remembers m g.key y ∧
      y.values (.ofData data) = .ok c) grp columns) {keys : List String}
    (keyed : (List.range data.length).mapM (keyAt columns) = .ok keys) {left : List (List Nat)}
    (known : ∀ g ∈ left, g ∈ keyGroups keys) {ord : List OrderTerm} {order : List Nat}
    (ordered : InOrder ord left.length order)
    (rows : List.Forall₂ (fun f c => ∃ x values, Remembers m f.key x ∧
      x.values ⟨data, some left⟩ = .ok values ∧ c = order.map (item values)) fs d.columns)
    {i j : Nat} {f g : Feature} (hf : fs[i]? = some f) (hg : grp[j]? = some g)
    (same : f.bare.key = g.key) {p : Nat} (hp : p < order.length) :
    ∀ row ∈ left.getD (order.getD p 0) [],
      (item (d.columns.getD i []) p).key = (item (columns.getD j []) row).key := by
  obtain ⟨shown, hshown, x, values, hx, hv, rfl⟩ := related_at rows hf
  obtain ⟨column, hcolumn, y, hy, hc⟩ := related_at read hg
  have inside : order[p] < left.length := List.mem_range.1 (ordered.1.subset (List.getElem_mem hp))
  have place : left.getD (order.getD p 0) [] = left[order[p]] := by simp [hp, inside]
  have value : item (d.columns.getD i []) p = item values order[p] := by simp [hshown, item, hp]
  have key : columns.getD j [] = column := by simp [hcolumn]
  intro row hrow
  rw [place] at hrow
  -- A group with a row has a first row, whose value is shown.
  obtain ⟨first, r, group⟩ : ∃ first r, left[order[p]] = first :: r :=
    List.exists_cons_of_ne_nil (List.ne_nil_of_mem hrow)
  obtain ⟨bound, agree⟩ := items_of_group keyed (known _ (List.getElem_mem inside)) first
    (group ▸ List.mem_cons_self) row hrow
  have leader : item values order[p] = item column first :=
    key_on_group hm (hfs f (List.mem_of_getElem? hf)) (hgrp g (List.mem_of_getElem? hg))
      (single g (List.mem_of_getElem? hg)) same hx hy hv hc
      (by rw [List.getElem?_eq_getElem inside, group]) bound
  rw [value, key, leader]
  exact agree column (List.mem_of_getElem? hcolumn)

/-- A statement is grouped if it has grouping keys or a group filter, or if it aggregates. -/
theorem isGrouped_iff {fs : List Feature} {xs : List FeaturePlan}
    (hxs : List.Forall₂ Feature.Plans fs xs)
    {grp : List Feature} {ys : List FeaturePlan} (hys : List.Forall₂ Feature.Plans grp ys)
    {post : Option Feature} {z : Option FeaturePlan}
    (hz : List.Forall₂ Feature.Plans post.toList z.toList) {ord : List OrderTerm}
    {zs : List (OrderSymbol FeaturePlan)}
    (hzs : List.Forall₂ Feature.Plans (ord.map OrderTerm.feature) (zs.map (·.1))) :
    SourcePlan.isGrouped xs ys z zs = true ↔ grp ≠ [] ∨ post ≠ none ∨ Aggregated fs ord := by
  have keyed : ys.isEmpty = grp.isEmpty := by cases hys <;> rfl
  have filtered : z.isSome = post.isSome := by
    cases z <;> cases post <;> first | rfl | cases hz
  have selected := any_aggregate hxs
  have ordered := any_aggregate hzs
  rw [List.any_map] at ordered
  unfold SourcePlan.isGrouped Aggregated
  rw [keyed, filtered, selected, show (zs.any fun o => o.1.aggregate) = _ from ordered]
  simp only [Bool.or_eq_true, Bool.not_eq_true', List.isEmpty_eq_false_iff, List.any_eq_true,
    Option.isSome_iff_ne_none, List.mem_append, or_and_right, exists_or, or_assoc]

/-- The rows of a statement with grouping keys. -/
theorem keys_shown (hm : Grounded sources kinds labels m) {fs grp : List Feature}
    (hfs : ∀ f ∈ fs, f.Obeys (.faithful kinds labels))
    (hgrp : ∀ g ∈ grp, g.Obeys (.faithful kinds labels))
    (single : ∀ g ∈ grp, g.Throughout fun h => h.isCollective = false) {post : Option Feature}
    (hpost : ∀ p ∈ post, p.Obeys (.faithful kinds labels)) {ord : List OrderTerm}
    {xs ys : List FeaturePlan} {z : Option FeaturePlan} {zs : List (OrderSymbol FeaturePlan)}
    (hxs : Remembered m fs xs) (hys : Remembered m grp ys) (hz : Remembered m post.toList z.toList)
    (hzs : RememberedTerms m ord zs) (keyed : grp ≠ []) {data d : Dataset}
    {groups left : List (List Nat)} (made : allGroups ys data = .ok groups)
    (rest : remaining z data groups = .ok left)
    (projects : projected xs zs none ⟨data, some left⟩ = .ok d) :
    ∃ columns keys left order, ShowsKeys fs grp post ord data columns keys left order d := by
  have present : ys ≠ [] := by
    rintro rfl
    cases hys
    exact keyed rfl
  obtain ⟨columns, hcolumns, hgroups⟩ := allGroups_of_keys present made
  obtain ⟨keys, hkeys, rfl⟩ := groupRows_eq_ok hgroups
  obtain ⟨order, ordered, length, rows⟩ := projected_rows hxs hzs projects
  have read := forall₂_through hys (mapM_eq_ok hcolumns)
  have shown := groups_shown hm hfs hpost hz rest ordered length rows
  refine ⟨columns, keys, left, order, ⟨?_, hkeys⟩, groupRows_sizes hgroups, shown, fun whole => ?_,
    fun i j f g hf hg same p hp row hrow => ?_⟩
  · refine ((List.forall₂_and_left _ _).2 ⟨hgrp, read⟩).imp ?_
    rintro g c ⟨hg, y, hy, hc⟩
    exact ⟨y, plans_of_remembered hm g hg y hy, hc⟩
  · rw [shown.height, shown.remain.1 whole, keyGroups, List.length_map]
  · exact chosen_key hm hfs hgrp single read hkeys shown.remain.mem ordered rows hf hg same
      (length ▸ hp) row hrow

/-- **The rows of a statement**, whatever was translated before. With grouping keys there is one for
each key that a row which passes the filter has, in the order of first appearance where nothing is
ordered, and a key that is selected is what it is on every row of its group. Without grouping keys there
is one row if the statement aggregates, and otherwise one for each row that passes. A group filter takes
away groups on which it is not true. -/
theorem grouped_rows {history : List Tree}
    (known : ∀ tree ∈ history, tree.Built ∧
      tree.Obeys (Rules.structFree.and ((Rules.told kinds).and (.labelled labels))))
    {s : Source} {sel : List Feature} {pre : Option Feature} {grp : List Feature}
    {post : Option Feature} {ord : List OrderTerm}
    (built : (Source.query s sel pre grp post ord none).Built)
    (obeys : (Source.query s sel pre grp post ord none).Obeys
      (Rules.structFree.and ((Rules.told kinds).and (.labelled labels))))
    (unprovided : sources.get? (.query s sel pre grp post ord none) = none) {plan : SourcePlan}
    {t : Translator SourcePlan FeaturePlan}
    (compiled : (translatorAfter sources history).serve
      (.finish (.source (.query s sel pre grp post ord none))) = (.ok (some (.source plan)), t))
    {catalog : Catalog} {d : Dataset} (evaluated : plan catalog = .ok d) :
    let fs := (Source.query s sel pre grp post ord none).features
    ∃ all data, s.Data sources catalog all ∧ Passing pre all data ∧
      (grp ≠ [] → ∃ columns keys left order,
        ShowsKeys fs grp post ord data columns keys left order d) ∧
      (grp = [] → post ≠ none ∨ Aggregated fs ord → ∃ left order,
        ShowsGroups fs post ord data [List.range data.length] left order d ∧
        (post = none → d.length = 1)) ∧
      (grp = [] → post = none → ¬Aggregated fs ord → ∃ order, InOrder ord data.length order ∧
        Shows fs (.ofData data) order d ∧ d.length = data.length) := by
  intro fs
  have hq := Source.Built.obeys Rules.ensures_faithful _ built obeys
  have clauses := hq.statement
  have offered : ∀ f ∈ fs, f.Obeys (.faithful kinds labels) :=
    Source.Obeys.features Rules.faithful_offered _ hq
  have composed := composed_of_compiled (fun tree htree =>
    (known tree htree).1.obeys Rules.ensures_faithful (known tree htree).2) hq compiled
  cases composed with
  | @query _ _ _ _ _ _ _ m x xs y ys z zs hs hm hsel hpre hgrp hpost hord =>
  have provided : (backend sources .empty).sources.get? (.query s sel pre grp post ord none) = none :=
    unprovided
  rw [provided] at evaluated
  replace evaluated : SourcePlan.query x xs y ys z zs none catalog = .ok d := evaluated
  rw [query_eq] at evaluated
  obtain ⟨data, kept, evaluated⟩ := bind_eq_ok.1 evaluated
  obtain ⟨all, source, kept⟩ := bind_eq_ok.1 kept
  obtain ⟨b, batch, projects⟩ := bind_eq_ok.1 evaluated
  obtain ⟨grouped, plain⟩ := batched_eq_ok batch
  have flag := isGrouped_iff (plans_of_grounded hm offered hsel)
    (plans_of_grounded hm clauses.grouping hgrp)
    (plans_of_grounded hm (fun p hp => clauses.postfilter p (by simpa using hp)) hpost)
    (plans_of_grounded hm (List.forall_mem_map.2 clauses.ordering) (remembered_of_terms hord).1)
  refine ⟨all, data, ⟨x, plans_of_composed hs clauses.source, source⟩,
    passing_of_filtered hm clauses.prefilter hpre kept, fun keyed => ?_, fun keyless aggregates => ?_,
    fun keyless free rowWise => ?_⟩
  · obtain ⟨groups, left, made, rest, rfl⟩ := grouped (flag.2 (.inl keyed))
    have single : ∀ g ∈ grp, g.Throughout fun h => h.isCollective = false := fun g hg =>
      Feature.throughout_of_hasCollective
        (Feature.Obeys.mono Rules.faithful_distinct _ (clauses.grouping g hg))
        (Feature.refuseCollective_eq_ok (built.inv_query.grouping g hg).2.2.1)
    exact keys_shown hm offered clauses.grouping single clauses.postfilter hsel hgrp hpost hord keyed
      made rest projects
  · obtain ⟨groups, left, made, rest, rfl⟩ := grouped (flag.2 (.inr aggregates))
    obtain rfl : groups = [List.range data.length] := by
      subst keyless
      cases hgrp
      exact (Except.ok.inj made).symm
    obtain ⟨order, ordered, length, rows⟩ := projected_rows hsel hord projects
    have shown := groups_shown hm offered clauses.postfilter hpost rest ordered length rows
    refine ⟨left, order, shown, fun whole => ?_⟩
    rw [shown.height, shown.remain.1 whole, List.length_singleton]
  · obtain rfl : b = .ofData data := by
      refine plain (Bool.eq_false_iff.2 fun h => ?_)
      rcases flag.1 h with h | h | h
      · exact h keyless
      · exact h free
      · exact rowWise h
    obtain ⟨order, ordered, length, rows⟩ := projected_rows hsel hord projects
    exact ⟨order, ordered, shows_of_rows hm offered length rows, length.trans ordered.length⟩

end

/-! ### Names -/

/-- A table of names. -/
def named (table : String) : Source := .table ⟨table, [("name", ⟨.primitive .string, "name"⟩)]⟩

/-- The names in a table. -/
def nameIn (table : String) : Feature := .element (named table) "name" (.primitive .string)

/-- A statement that groups by the names in a table. -/
def groupedByName (s : Source) (sel : List Feature) (table : String) : Source :=
  .query s sel none [nameIn table] none [] none

theorem named_built (table : String) : (named table).Built := .of_distinct rfl

theorem nameIn_built (table : String) : (nameIn table).Built :=
  .element (named_built table) (show (named table).get "name" = .ok _ from rfl)

/-- A statement that groups by names is built where the constructor accepts it. -/
theorem groupedByName_built {s : Source} (hs : s.Built) {sel : List Feature}
    (hsel : ∀ f ∈ sel, f.Built) {table : String}
    (accepted : s.queryOf ⟨sel.map .feature, none, [.feature (nameIn table)], none, [], none⟩
      = .ok (groupedByName s sel table)) : (groupedByName s sel table).Built := by
  refine .query hs (.mk (List.forall_mem_map.2 fun f hf => .feature (hsel f hf)) (by simp) ?_ (by simp)
    (by simp)) accepted
  simpa using Operand.Built.feature (nameIn_built table)

/-- Names and how often they occur. -/
theorem grouped_rows_of_names :
    let count : Feature := .expression .count [] none
    let q := groupedByName (named "people") [nameIn "people", count] "people"
    let catalog : Catalog := [("people", ⟨[⟨"name", none⟩],
      [[.text "Ann", .text "Bob", .text "Ann"]], 3⟩)]
    q.Built ∧ ∃ plan t d, (translatorAfter .empty []).serve (.finish (.source q))
        = (.ok (some (.source plan)), t) ∧ plan catalog = .ok d ∧
      textsOfRows d = [["Ann", "2"], ["Bob", "1"]] ∧
      ∃ all data columns keys, (named "people").Data .empty catalog all ∧ Passing none all data ∧
        RowKeys [nameIn "people"] data columns keys ∧ d.length = keys.eraseDups.length := by
  intro count q catalog
  have hcount : count.Built := built_count
  have built : q.Built :=
    groupedByName_built (named_built _) (by simpa using ⟨nameIn_built _, hcount⟩) rfl
  let rules := Rules.structFree.and
    ((Rules.told fun _ => .primitive .string).and (.labelled fun _ => "people"))
  have source : (named "people").Obeys rules :=
    ⟨structFree_table rfl, told_table rfl, by simp [Rules.labelled]⟩
  have name : (nameIn "people").Obeys rules := ⟨⟨trivial, rfl, rfl⟩, source⟩
  have obeys : q.Obeys rules := ⟨⟨trivial, trivial, trivial⟩, source,
    ⟨name, ⟨⟨nofun, trivial, trivial⟩, trivial⟩, trivial⟩, trivial, ⟨name, trivial⟩, trivial, trivial⟩
  have rows : (dataOf ((translatorAfter .empty []).serve (.finish (.source q))).1 catalog).map
      textsOfRows = some [["Ann", "2"], ["Bob", "1"]] := by decide +kernel
  obtain ⟨plan, t, d, compiled, evaluated, texts⟩ := evaluated_of_dataOf rows
  have fresh : ∀ tree ∈ ([] : List Tree), tree.Built ∧ tree.Obeys rules := by simp
  obtain ⟨all, data, source, passing, keyed, -⟩ := grouped_rows fresh built obeys rfl compiled evaluated
  obtain ⟨columns, keys, left, order, shown⟩ := keyed (List.cons_ne_nil _ _)
  exact ⟨built, plan, t, d, compiled, evaluated, texts, all, data, columns, keys, source, passing,
    shown.given, shown.once rfl⟩

/-- Each name of a table beside each one of another table. -/
def crossed (left right : String) : Source := .join (named left) (named right) .cross none

/-- The keys that the names on the right give to the rows of a product. -/
def crossedKeys (left right : String) (catalog : Catalog) : Except Fault (List String) := do
  let all ← ((SourcePlan.scan left).qualified left).join ((SourcePlan.scan right).qualified right) none
    .cross catalog
  let names ← (FeaturePlan.element (named right) "name").values (.ofData all)
  (List.range all.length).mapM (keyAt [names])

/-- There is one plan of a product. -/
theorem data_of_crossed {left right : String} {catalog : Catalog} {all : Dataset}
    (made : (crossed left right).Data .empty catalog all) :
    ((SourcePlan.scan left).qualified left).join ((SourcePlan.scan right).qualified right) none
      .cross catalog = .ok all := by
  obtain ⟨x, hx, hall⟩ := made
  unfold crossed named at hx
  cases hx with
  | @join _ _ _ _ y y' z hl hr hc =>
    cases hl
    cases hr
    obtain rfl : z = none := Option.toList_eq_nil_iff.1 (List.forall₂_nil_left_iff.1 hc)
    exact hall

/-- There is one plan of a name. -/
theorem keys_of_crossed {left right : String} {catalog : Catalog} {all data : Dataset}
    (made : (crossed left right).Data .empty catalog all) (passing : Passing none all data)
    {columns : List (List Value)} {keys : List String}
    (given : RowKeys [nameIn right] data columns keys) : crossedKeys left right catalog = .ok keys := by
  obtain rfl := passing.1 rfl
  obtain ⟨read, keyed⟩ := given
  obtain ⟨names, _, ⟨v, hv, hnames⟩, others, rfl⟩ := List.forall₂_cons_left_iff.1 read
  cases others
  unfold nameIn at hv
  cases hv
  exact bind_eq_ok.2 ⟨_, data_of_crossed made, bind_eq_ok.2 ⟨_, hnames, keyed⟩⟩

/-- **Rows are grouped by another table's names**, which have the same key: there are more rows than
names. -/
theorem groups_confused :
    let both := crossed "school" "twin"
    let count : Feature := .expression .count [nameIn "school"] none
    let q := groupedByName both [nameIn "twin", count] "twin"
    let catalog : Catalog := [("school", ⟨[⟨"name", none⟩], [[.text "Alpha", .text "Beta"]], 2⟩),
      ("twin", ⟨[⟨"name", none⟩], [[.text "Gamma"]], 1⟩)]
    q.Built ∧ ∃ plan t d, (translatorAfter .empty []).serve (.finish (.source q))
        = (.ok (some (.source plan)), t) ∧ plan catalog = .ok d ∧
      textsOfRows d = [["Alpha", "1"], ["Beta", "1"]] ∧
      ¬∃ all data columns keys, both.Data .empty catalog all ∧ Passing none all data ∧
        RowKeys [nameIn "twin"] data columns keys ∧ d.length = keys.eraseDups.length := by
  intro both count q catalog
  have hcount : count.Built := built_single (nameIn_built "school") rfl
  have hboth : both.Built :=
    @Source.Built.joined _ _ _ none none (named_built "school") (named_built "twin") (by simp) rfl
  have built : q.Built := groupedByName_built hboth (by simpa using ⟨nameIn_built _, hcount⟩) rfl
  have rows : (dataOf ((translatorAfter .empty []).serve (.finish (.source q))).1 catalog).map
      (fun d => (textsOfRows d, d.length)) = some ([["Alpha", "1"], ["Beta", "1"]], 2) := by
    decide +kernel
  obtain ⟨plan, t, d, compiled, evaluated, shown⟩ := evaluated_of_dataOf rows
  obtain ⟨texts, two⟩ := Prod.mk.inj shown
  refine ⟨built, plan, t, d, compiled, evaluated, texts, ?_⟩
  rintro ⟨all, data, columns, keys, made, passing, given, height⟩
  have once : (crossedKeys "school" "twin" catalog).toOption.map
      (fun keys => keys.eraseDups.length) = some 1 := by decide +kernel
  rw [keys_of_crossed made passing given] at once
  exact absurd (two.symm.trans (height.trans (Option.some.inj once))) (by decide)

end Evaluation

end QueryAlgebra
