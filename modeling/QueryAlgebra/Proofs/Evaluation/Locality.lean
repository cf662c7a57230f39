import QueryAlgebra.Proofs.Evaluation.Frames
import QueryAlgebra.Proofs.Evaluation.RowWise
import QueryAlgebra.Proofs.Evaluation.Sorting

/-!
# Rows on their own

Features without aggregates and windows are evaluated row by row, and rows are sorted by comparing two
of them at a time. So some of the rows are evaluated and sorted on their own as among all others, and a
window gives the rows of a partition the values that it gives them where there is no other partition.

* `Dataset.only`: some rows of data; `shows_only`: they show these rows.
* `values_only`: a feature without aggregates and windows on some rows.
* `sortBy_map`: sorting follows a renaming of the items.
* `windowValues_of_frames`: the values of a window from the frames of the rows.
* `windowValues_only`: a window on the rows of one partition.
-/

namespace QueryAlgebra

open Evaluation Translation Dataset

namespace Dataset

/-- Some of the rows. -/
def only (d : Dataset) (rows : List Nat) : Dataset := d.take (rows.map some)

theorem column_only {d : Dataset} (regular : d.Regular) {name : String} {qualifier : Option String}
    {c : List Value} (h : d.column name qualifier = .ok c) (rows : List Nat) :
    (d.only rows).column name qualifier = .ok (rows.map (item c)) := by
  obtain ⟨i, found, rfl⟩ := column_eq_ok.1 h
  refine column_eq_ok.2 ⟨i, found, ?_⟩
  simp [only, take, lt_of_find? regular found, chosen, Function.comp_def]

end Dataset

namespace Evaluation

/-! ### Features -/

/-- Some rows of data show these rows. -/
theorem shows_only {d : Dataset} (regular : d.Regular) {rows : List Nat}
    (inside : ∀ i ∈ rows, i < d.length) : (Batch.ofData (d.only rows)).Shows d rows where
  size := by simp [only, take, Batch.size, Batch.ofData]
  inside := inside
  elements s n column evaluated := by
    obtain ⟨c, read, made⟩ := bind_eq_ok.1 evaluated
    obtain rfl := pure_eq_ok.1 made
    exact bind_eq_ok.2 ⟨_, column_only regular read rows, rfl⟩

/-- Columns of arguments on some rows. -/
theorem columns_only {d : Dataset} {rows : List Nat} {args : List Feature} {xs : List FeaturePlan}
    (h : List.Forall₂ Feature.Plans args xs) (each : ∀ c ∈ args, ∀ x, c.Plans x → ∀ column,
      x.values (.ofData d) = .ok column → x.values (.ofData (d.only rows)) = .ok (rows.map (item column)))
    {columns : List (List Value)} (evaluated : xs.mapM (fun x => x.values (.ofData d)) = .ok columns) :
    xs.mapM (fun x => x.values (.ofData (d.only rows))) = .ok (columns.map fun c => rows.map (item c)) :=
  columns_of_shows (forall_of_forall₂ (fun _ x plan given => given x plan) h each) evaluated

/-- Plans of features without aggregates and windows go row by row. -/
theorem rowWise_of_plans : ∀ f : Feature, (f.Throughout fun g => g.isCollective = false) →
    ∀ x, f.Plans x → x.RowWise := by
  refine Feature.childInduction fun f ih single x h => ?_
  have part : ∀ c ∈ f.children, ∀ x, c.Plans x → x.RowWise := fun c hc => ih c hc (single.parts c hc)
  cases h with
  | aliased h => exact (part _ (List.mem_singleton_self _) _ h).aliased _
  | literal => exact .constant _
  | element => exact .element _ _
  | @expression op args t xs h =>
    have rowWise : op.aggregates = false := by
      simpa [Feature.isCollective, Feature.isWindow, Feature.aggregates] using single.own
    simp only [FeaturePlan.expression, rowWise, Bool.false_eq_true, if_false]
    exact .rowWise op _ (forall_of_forall₂ (fun _ x plan given => given x plan) h part)
  | window => exact absurd single.own (by simp [Feature.isCollective, Feature.isWindow])

section

variable {d : Dataset} (regular : d.Regular) {rows : List Nat} (inside : ∀ i ∈ rows, i < d.length)
include regular inside

/-- **A feature without aggregates and windows has on some rows the values that it has among all.** -/
theorem values_only (f : Feature) (single : f.Throughout fun g => g.isCollective = false)
    (x : FeaturePlan) (h : f.Plans x) (column : List Value)
    (evaluated : x.values (.ofData d) = .ok column) :
    x.values (.ofData (d.only rows)) = .ok (rows.map (item column)) :=
  (rowWise_of_plans f single x h).values_of_shows (shows_only regular inside) column evaluated

end

/-! ### Sorting -/

section

variable {α β : Type} (cmp : β → β → Except Fault Comparison) (f : α → β)

theorem spanRun_map (falling : Bool) : ∀ (as : List α) (last : α),
    spanRun cmp falling (f last) (as.map f)
      = Prod.map (List.map f) (List.map f) <$> spanRun (fun a b => cmp (f a) (f b)) falling last as
  | [], _ => rfl
  | a :: r, last => by
    have rest := spanRun_map falling r a
    have same : precedes cmp (f a) (f last) = precedes (fun a b => cmp (f a) (f b)) a last := rfl
    simp only [List.map_cons, spanRun, same, rest]
    cases precedes (fun a b => cmp (f a) (f b)) a last with
    | error e => rfl
    | ok before =>
      simp only [bind, Except.bind]
      split
      · cases spanRun (fun a b => cmp (f a) (f b)) falling a r <;> rfl
      · rfl

theorem firstRun_map : ∀ as : List α, firstRun cmp (as.map f)
    = Prod.map (List.map f) (List.map f) <$> firstRun (fun a b => cmp (f a) (f b)) as
  | [] => rfl
  | [a] => rfl
  | a :: b :: r => by
    have same : precedes cmp (f b) (f a) = precedes (fun a b => cmp (f a) (f b)) b a := rfl
    simp only [List.map_cons, firstRun, same, spanRun_map]
    cases precedes (fun a b => cmp (f a) (f b)) b a with
    | error e => rfl
    | ok falling =>
      simp only [bind, Except.bind]
      cases spanRun (fun a b => cmp (f a) (f b)) falling b r with
      | error e => rfl
      | ok parts => cases falling <;> simp [Functor.map, Except.map, pure, Except.pure]

theorem insertHalving_map (a : α) : ∀ (fuel : Nat) (bs : List α),
    insertHalving cmp (f a) fuel (bs.map f)
      = List.map f <$> insertHalving (fun a b => cmp (f a) (f b)) a fuel bs
  | 0, bs => rfl
  | fuel + 1, bs => by
    unfold insertHalving
    rw [List.splitAt_eq, List.splitAt_eq, List.length_map, ← List.map_take, ← List.map_drop]
    cases bs.drop (bs.length / 2) with
    | nil => rfl
    | cons middle high =>
      have same : precedes cmp (f a) (f middle) = precedes (fun a b => cmp (f a) (f b)) a middle := rfl
      simp only [List.map_cons, same, insertHalving_map a fuel]
      cases precedes (fun a b => cmp (f a) (f b)) a middle with
      | error e => rfl
      | ok before =>
        simp only [bind, Except.bind]
        split
        · cases insertHalving (fun a b => cmp (f a) (f b)) a fuel (bs.take (bs.length / 2)) with
          | error e => rfl
          | ok low => simp [Functor.map, Except.map, pure, Except.pure]
        · cases insertHalving (fun a b => cmp (f a) (f b)) a fuel high with
          | error e => rfl
          | ok inner => simp [Functor.map, Except.map, pure, Except.pure]

theorem insertAll_map : ∀ (rest sorted : List α),
    (rest.map f).foldlM (fun sorted a => insertHalving cmp a sorted.length sorted) (sorted.map f)
      = List.map f <$> rest.foldlM
          (fun sorted a => insertHalving (fun a b => cmp (f a) (f b)) a sorted.length sorted) sorted
  | [], sorted => rfl
  | a :: r, sorted => by
    rw [List.map_cons, List.foldlM_cons, List.foldlM_cons, List.length_map, insertHalving_map]
    cases insertHalving (fun a b => cmp (f a) (f b)) a sorted.length sorted with
    | error e => rfl
    | ok next => exact insertAll_map r next

/-- **Sorting follows a renaming of the items.** -/
theorem sortBy_map (as : List α) :
    sortBy cmp (as.map f) = List.map f <$> sortBy (fun a b => cmp (f a) (f b)) as := by
  unfold sortBy
  rw [firstRun_map]
  cases firstRun (fun a b => cmp (f a) (f b)) as with
  | error e => rfl
  | ok parts => exact insertAll_map cmp f parts.2 parts.1

end

/-! ### Keys -/

section

variable (rows : List Nat)

/-- The values of a key on some rows. -/
def SortKey.only (k : SortKey) : SortKey := (rows.map (item k.1), k.2)

variable {rows} (keys : List SortKey)

theorem item_only (column : List Value) (k : Fin rows.length) :
    item (rows.map (item column)) k = item column (rows.get k) := by
  simp [item]

/-- Rows in ascending order compare on their own as they do among all. -/
theorem comparePositions_only (ascending : rows.Pairwise (· < ·)) (a b : Fin rows.length) :
    ∀ keys : List SortKey, comparePositions (keys.map (SortKey.only rows)) a b
      = comparePositions keys (rows.get a) (rows.get b)
  | [] => by
    have rising : ∀ {a b : Fin rows.length}, a < b → rows.get a < rows.get b :=
      fun {a b} less => List.pairwise_iff_get.1 ascending a b less
    refine congrArg (Except.ok ∘ Comparison.ofOrdering) ?_
    rcases lt_trichotomy a.val b.val with less | same | more
    · rw [Nat.compare_eq_lt.2 less, Nat.compare_eq_lt.2 (rising less)]
    · obtain rfl := Fin.ext same
      rw [Nat.compare_eq_eq.2 rfl, Nat.compare_eq_eq.2 rfl]
    · rw [Nat.compare_eq_gt.2 more, Nat.compare_eq_gt.2 (rising more)]
  | k :: r => by
    simp only [List.map_cons, SortKey.only, comparePositions, item_only,
      ← comparePositions_only ascending a b r]

theorem arePeers_only (a b : Fin rows.length) : ∀ keys : List SortKey,
    arePeers (keys.map (SortKey.only rows)) a b = arePeers keys (rows.get a) (rows.get b)
  | [] => rfl
  | k :: r => by
    simp only [List.map_cons, SortKey.only, arePeers, item_only, ← arePeers_only a b r]

/-- **Rows are arranged on their own as they are among all.** -/
theorem arrange_only (ascending : rows.Pairwise (· < ·)) {sorted : List Nat}
    (h : arrange rows keys = .ok sorted) : ∃ places : List (Fin rows.length),
      places.map rows.get = sorted ∧
      arrange (List.range rows.length) (keys.map (SortKey.only rows)) = .ok (places.map Fin.val) := by
  have among := sortBy_map (comparePositions keys) rows.get (List.finRange rows.length)
  have alone := sortBy_map (comparePositions (keys.map (SortKey.only rows))) Fin.val
    (List.finRange rows.length)
  rw [List.map_get_finRange] at among
  rw [List.map_coe_finRange_eq_range] at alone
  simp only [comparePositions_only ascending] at alone
  rw [arrange, among] at h
  obtain ⟨places, sorts, rfl⟩ := map_eq_ok.1 h
  exact ⟨places, rfl, by rw [arrange, alone, sorts]; rfl⟩

theorem leadingPeers_only (a : Fin rows.length) : ∀ {rest : List (Fin rows.length)} {peers : List Nat},
    leadingPeers keys (rows.get a) (rest.map rows.get) = .ok peers →
      ∃ places : List (Fin rows.length), places.map rows.get = peers ∧
        leadingPeers (keys.map (SortKey.only rows)) a (rest.map Fin.val) = .ok (places.map Fin.val)
  | [], peers, h => ⟨[], Except.ok.inj h, rfl⟩
  | b :: r, peers, h => by
    obtain ⟨tie, decided, h⟩ := bind_eq_ok.1 h
    rw [← arePeers_only] at decided
    split at h
    · rename_i yes
      obtain ⟨others, more, h⟩ := bind_eq_ok.1 h
      obtain rfl := pure_eq_ok.1 h
      obtain ⟨places, rfl, alone⟩ := leadingPeers_only a more
      exact ⟨b :: places, rfl, by simp [leadingPeers, decided, yes, alone, bind, Except.bind, pure, Except.pure]⟩
    · rename_i no
      obtain rfl := pure_eq_ok.1 h
      exact ⟨[], rfl, by simp [leadingPeers, decided, no, bind, Except.bind, pure, Except.pure]⟩

/-- **A frame that follows the peers holds on its own the rows that it holds among all.** -/
theorem frameAt_only {sorted : List (Fin rows.length)} {p : Nat} {frame : List Nat}
    (h : frameAt keys none (sorted.map rows.get) p = .ok frame) : ∃ places : List (Fin rows.length),
      places.map rows.get = frame ∧
      frameAt (keys.map (SortKey.only rows)) none (sorted.map Fin.val) p = .ok (places.map Fin.val) := by
  unfold frameAt at h ⊢
  simp only [List.isEmpty_map] at h ⊢
  split at h
  · rename_i unkeyed
    rw [if_pos unkeyed]
    exact ⟨sorted, Except.ok.inj h, rfl⟩
  · rename_i keyed
    rw [if_neg keyed]
    unfold peerFrame at h ⊢
    rw [← List.map_drop] at h ⊢
    cases rest : sorted.drop p with
    | nil =>
      rw [rest] at h
      exact ⟨sorted, pure_eq_ok.1 h, rfl⟩
    | cons a r =>
      rw [rest] at h
      obtain ⟨peers, leading, h⟩ := bind_eq_ok.1 h
      obtain rfl := pure_eq_ok.1 h
      obtain ⟨places, rfl, alone⟩ := leadingPeers_only keys a leading
      refine ⟨sorted.take (p + 1) ++ places, by simp, ?_⟩
      simp [alone, bind, Except.bind, pure, Except.pure]

end

/-! ### Windows -/

/-- A window has a value for each row. -/
theorem windowValues_length {fn : FeaturePlan} {partition : List FeaturePlan}
    {ordering : List (OrderSymbol FeaturePlan)} {frame : Option Frame} {d : Dataset} {vs : List Value}
    (h : FeaturePlan.windowValues fn partition ordering frame (.ofData d) = .ok vs) :
    vs.length = d.length :=
  (windowValues_forall (P := fun _ => True) (fun _ _ _ _ => trivial) trivial h).2.1

/-- A window has values if its function has one for the frame of each row. -/
theorem exists_windowValues {fn : FeaturePlan} {partition : List FeaturePlan}
    {ordering : List (OrderSymbol FeaturePlan)} {frame : Option Frame} {d : Dataset} {keys : List SortKey}
    {columns : List (List Value)} {partitions : List (List Nat)}
    (ordered : FeaturePlan.sortKeys ordering (.ofData d) = .ok keys)
    (parted : partition.mapM (fun p => p.values (.ofData d)) = .ok columns)
    (grouped : groupRows d.length columns = .ok partitions)
    (each : ∀ members ∈ partitions, ∃ sorted, arrange members keys = .ok sorted ∧
      ∀ p row, sorted[p]? = some row → ∃ rows ws, frameAt keys frame sorted p = .ok rows ∧
        fn.values ⟨d, some [rows]⟩ = .ok ws) :
    ∃ vs, FeaturePlan.windowValues fn partition ordering frame (.ofData d) = .ok vs := by
  have evaluated : ∀ members ∈ partitions,
      ∃ pairs, FeaturePlan.partitionValues fn keys frame d members = .ok pairs := fun members hm => by
    obtain ⟨sorted, arranged, framed⟩ := each members hm
    have values : ∀ e ∈ sorted.zip (List.range sorted.length), ∃ pair, (do
        let rows ← frameAt keys frame sorted e.2
        return (e.1, item (← fn.values ⟨d, some [rows]⟩) 0)) = (.ok pair : Except Fault _) := by
      rintro ⟨row, p⟩ he
      obtain ⟨i, hi⟩ := List.getElem?_of_mem he
      obtain ⟨at_i, place⟩ := List.getElem?_zip_eq_some.1 hi
      obtain ⟨_, same⟩ := List.getElem?_eq_some_iff.1 place
      obtain rfl : i = p := by simpa using same
      obtain ⟨rows, ws, frame, value⟩ := framed i row at_i
      exact ⟨_, bind_eq_ok.2 ⟨rows, frame, bind_eq_ok.2 ⟨ws, value, rfl⟩⟩⟩
    obtain ⟨pairs, hpairs⟩ := exists_mapM_ok values
    exact ⟨pairs, bind_eq_ok.2 ⟨sorted, arranged, hpairs⟩⟩
  obtain ⟨values, hvalues⟩ := exists_mapM_ok evaluated
  exact ⟨_, bind_eq_ok.2 ⟨keys, ordered, bind_eq_ok.2 ⟨columns, parted, bind_eq_ok.2
    ⟨partitions, grouped, bind_eq_ok.2 ⟨values, hvalues, rfl⟩⟩⟩⟩⟩

/-- **The values of a window are those that its function has for the frames of the rows.** -/
theorem windowValues_of_frames {fn : FeaturePlan} {partition : List FeaturePlan}
    {ordering : List (OrderSymbol FeaturePlan)} {frame : Option Frame} {d : Dataset} {keys : List SortKey}
    {columns : List (List Value)} {partitions : List (List Nat)}
    (ordered : FeaturePlan.sortKeys ordering (.ofData d) = .ok keys)
    (parted : partition.mapM (fun p => p.values (.ofData d)) = .ok columns)
    (grouped : groupRows d.length columns = .ok partitions) {vs : List Value} (length : vs.length = d.length)
    (each : ∀ members ∈ partitions, ∃ sorted, arrange members keys = .ok sorted ∧
      ∀ p row, sorted[p]? = some row → ∃ rows ws, frameAt keys frame sorted p = .ok rows ∧
        fn.values ⟨d, some [rows]⟩ = .ok ws ∧ item vs row = item ws 0) :
    FeaturePlan.windowValues fn partition ordering frame (.ofData d) = .ok vs := by
  obtain ⟨vs', evaluated⟩ := exists_windowValues ordered parted grouped fun members hm => by
    obtain ⟨sorted, arranged, framed⟩ := each members hm
    refine ⟨sorted, arranged, fun p row at_p => ?_⟩
    obtain ⟨rows, ws, frame, value, -⟩ := framed p row at_p
    exact ⟨rows, ws, frame, value⟩
  obtain ⟨keys', columns', partitions', ordered', parted', grouped', each'⟩ := windowValues_eq_ok evaluated
  obtain rfl := Except.ok.inj (ordered.symm.trans ordered')
  obtain rfl := Except.ok.inj (parted.symm.trans parted')
  obtain rfl := Except.ok.inj (grouped.symm.trans grouped')
  have length' := windowValues_length evaluated
  rw [evaluated]
  refine congrArg Except.ok (List.ext_getElem (length'.trans length.symm) fun i bound bound' => ?_)
  -- Each row is in a partition, at a place of it when it is sorted.
  have row : i ∈ partitions.flatten :=
    (groupRows_perm grouped).mem_iff.2 (List.mem_range.2 (length' ▸ bound))
  obtain ⟨members, hm, hi⟩ := List.mem_flatten.1 row
  obtain ⟨sorted, arranged, framed⟩ := each members hm
  obtain ⟨_, again, framed'⟩ := each' members hm
  obtain rfl := Except.ok.inj (arranged.symm.trans again)
  obtain ⟨p, at_p⟩ := List.getElem?_of_mem ((arrange_perm arranged).mem_iff.2 hi)
  obtain ⟨_, _, frame, value, same⟩ := framed p i at_p
  obtain ⟨_, _, frame', value', same'⟩ := framed' p i at_p
  obtain rfl := Except.ok.inj (frame.symm.trans frame')
  obtain rfl := Except.ok.inj (value.symm.trans value')
  simpa [item, bound, bound'] using same'.trans same.symm

/-- Rows with one key are one group. -/
theorem mem_keyGroups_replicate {n : Nat} {key : String} {g : List Nat} :
    g ∈ keyGroups (List.replicate n key) ↔ 0 < n ∧ g = List.range n := by
  have all : positionsOf (List.replicate n key) key = List.range n := by
    simp only [positionsOf, List.length_replicate]
    refine List.filter_eq_self.2 fun i hi => ?_
    simp [List.mem_range.1 hi]
  constructor
  · intro h
    obtain ⟨k, hk, rfl⟩ := List.mem_map.1 h
    obtain ⟨occupied, rfl⟩ := List.mem_replicate.1 (List.mem_eraseDups.1 hk)
    exact ⟨Nat.pos_of_ne_zero occupied, all⟩
  · rintro ⟨occupied, rfl⟩
    exact List.mem_map.2 ⟨key, List.mem_eraseDups.2 (List.mem_replicate.2 ⟨occupied.ne', rfl⟩), all⟩

/-- Rows with one key are one group on their own. -/
theorem groupRows_only {columns : List (List Value)} {rows : List Nat} {key : String}
    (keyed : ∀ i ∈ rows, keyAt columns i = .ok key) :
    groupRows rows.length (columns.map fun c => rows.map (item c))
      = .ok (keyGroups (List.replicate rows.length key)) := by
  have keys : (List.range rows.length).mapM (keyAt (columns.map fun c => rows.map (item c)))
      = .ok ((List.range rows.length).map fun _ => key) := by
    refine mapM_eq_map fun k hk => ?_
    have bound := List.mem_range.1 hk
    rw [← keyed _ (List.getElem_mem bound)]
    simp [keyAt, item, bound, Function.comp_def]
  rw [groupRows_eq, keys, List.map_const', List.length_range]
  rfl

/-- The rows of a key that occurs are a group. -/
theorem positionsOf_mem_keyGroups {keys : List String} {key : String}
    (h : 0 < (positionsOf keys key).length) : positionsOf keys key ∈ keyGroups keys := by
  have known : keys[(positionsOf keys key)[0]]? = some key := mem_positionsOf.1 (List.getElem_mem h)
  exact List.mem_map.2 ⟨key, List.mem_eraseDups.2 (List.mem_of_getElem? known), rfl⟩

theorem positionsOf_ascending (keys : List String) (key : String) :
    (positionsOf keys key).Pairwise (· < ·) :=
  List.pairwise_lt_range.sublist List.filter_sublist

section

variable {d : Dataset} (regular : d.Regular) {rows : List Nat} (inside : ∀ i ∈ rows, i < d.length)
include regular inside

theorem sortKeys_only {os : List OrderTerm} {ys : List (OrderSymbol FeaturePlan)}
    (planned : List.Forall₂ Feature.Plans (os.map OrderTerm.feature) (ys.map (·.1)))
    (single : ∀ o ∈ os, o.feature.Throughout fun g => g.isCollective = false) {keys : List SortKey}
    (h : FeaturePlan.sortKeys ys (.ofData d) = .ok keys) :
    FeaturePlan.sortKeys ys (.ofData (d.only rows)) = .ok (keys.map (SortKey.only rows)) := by
  rw [List.forall₂_map_left_iff, List.forall₂_map_right_iff] at planned
  refine mapM_of_forall₂ (List.forall₂_map_right_iff.2 ?_)
  have parts : ∀ y ∈ ys, ∃ o ∈ os, o.feature.Plans y.1 := fun y hy => by
    obtain ⟨i, hi⟩ := List.getElem?_of_mem hy
    obtain ⟨o, ho, plan⟩ := related_at planned.flip hi
    exact ⟨o, List.mem_of_getElem? ho, plan⟩
  refine ((List.forall₂_and_left _ _).2 ⟨parts, mapM_eq_ok h⟩).imp ?_
  rintro y k ⟨⟨o, ho, plan⟩, made⟩
  obtain ⟨values, evaluated, made⟩ := bind_eq_ok.1 made
  obtain rfl := pure_eq_ok.1 made
  exact bind_eq_ok.2 ⟨_, values_only regular inside _ (single o ho) _ plan _ evaluated, rfl⟩

/-- The rows of a frame are aggregated on their own as they are among all. -/
theorem aggregate_only {fn : Feature} (aggregates : fn.aggregates = true) {y : FeaturePlan}
    (h : fn.Plans y) (single : ∀ c ∈ fn.children, c.Throughout fun g => g.isCollective = false)
    {frame : List (Fin rows.length)} {ws : List Value}
    (evaluated : y.values ⟨d, some [frame.map rows.get]⟩ = .ok ws) :
    y.values ⟨d.only rows, some [frame.map Fin.val]⟩ = .ok ws := by
  cases h with
  | @expression op args t xs h =>
    have own : op.aggregates = true := aggregates
    simp only [FeaturePlan.expression, own, if_true] at evaluated ⊢
    cases h with
    | nil =>
      have counted : [frame.map rows.get].mapM (fun g => summarize op none g.length) = .ok ws := evaluated
      have size : [frame.map Fin.val].mapM (fun g => summarize op none g.length) = .ok ws := by
        simpa using counted
      exact size
    | @cons a x args xs hx _ =>
      obtain ⟨column, argument, evaluated⟩ := bind_eq_ok.1 evaluated
      obtain ⟨vs, hvs, rfl⟩ := map_eq_ok.1 argument
      have alone := values_only regular inside a (single a (by simp [Feature.children])) x hx vs hvs
      refine bind_eq_ok.2 ⟨_, map_eq_ok.2 ⟨_, alone, rfl⟩, ?_⟩
      have items : (frame.map Fin.val).map (item (rows.map (item vs)))
          = (frame.map rows.get).map (item vs) := by
        simp only [List.map_map]
        exact List.map_congr_left fun k _ => item_only vs k
      simpa [items] using evaluated
  | _ => cases aggregates

/-- A partition is sorted and framed on its own as it is among all rows. -/
theorem partition_only {fn : Feature} (aggregates : fn.aggregates = true) {y : FeaturePlan}
    (hfn : fn.Plans y) (single : ∀ c ∈ fn.children, c.Throughout fun g => g.isCollective = false)
    (ascending : rows.Pairwise (· < ·)) {keys : List SortKey} {vs : List Value}
    (among : ∃ sorted, arrange rows keys = .ok sorted ∧ ∀ p row, sorted[p]? = some row →
      ∃ frame ws, frameAt keys none sorted p = .ok frame ∧ y.values ⟨d, some [frame]⟩ = .ok ws ∧
        item vs row = item ws 0) :
    ∃ places : List (Fin rows.length),
      arrange (List.range rows.length) (keys.map (SortKey.only rows)) = .ok (places.map Fin.val) ∧
      ∀ (p : Nat) (k : Fin rows.length), places[p]? = some k → ∃ frame ws,
        frameAt (keys.map (SortKey.only rows)) none (places.map Fin.val) p = .ok frame ∧
        y.values ⟨d.only rows, some [frame]⟩ = .ok ws ∧ item vs (rows.get k) = item ws 0 := by
  obtain ⟨_, arranged, framed⟩ := among
  obtain ⟨places, rfl, arranged'⟩ := arrange_only keys ascending arranged
  refine ⟨places, arranged', fun p k at_p => ?_⟩
  obtain ⟨_, ws, frame, value, same⟩ := framed p (rows.get k) (by simp [at_p])
  obtain ⟨frame, rfl, frame'⟩ := frameAt_only keys frame
  exact ⟨_, ws, frame', aggregate_only regular inside aggregates hfn single value, same⟩

end

section

variable {d : Dataset} (regular : d.Regular) {fn : Feature} {ps : List Feature} {os : List OrderTerm}
  {y : FeaturePlan} {xs : List FeaturePlan} {ys : List (OrderSymbol FeaturePlan)} (hfn : fn.Plans y)
  (hps : List.Forall₂ Feature.Plans ps xs)
  (hos : List.Forall₂ Feature.Plans (os.map OrderTerm.feature) (ys.map (·.1)))
  (aggregates : fn.aggregates = true)
  (single : ∀ c ∈ fn.children ++ ps ++ os.map OrderTerm.feature,
    c.Throughout fun g => g.isCollective = false)
include regular hfn hps hos aggregates single

/-- **A window gives the rows of a partition on their own the values that it gives them among all.** -/
theorem windowValues_only {vs : List Value}
    (evaluated : FeaturePlan.windowValues y xs ys none (.ofData d) = .ok vs)
    {columns : List (List Value)} (parted : xs.mapM (fun x => x.values (.ofData d)) = .ok columns)
    {names : List String} (named : (List.range d.length).mapM (keyAt columns) = .ok names)
    (key : String) :
    FeaturePlan.windowValues y xs ys none (.ofData (d.only (positionsOf names key)))
      = .ok ((positionsOf names key).map (item vs)) := by
  obtain ⟨keys, _, partitions, ordered, same, grouped, each⟩ := windowValues_eq_ok evaluated
  obtain rfl := Except.ok.inj (parted.symm.trans same)
  rw [groupRows_eq, named] at grouped
  obtain rfl := Except.ok.inj grouped
  have keyed : ∀ i ∈ positionsOf names key, i < d.length ∧ keyAt columns i = .ok key := fun i hi =>
    keyAt_of_keys named (mem_positionsOf.1 hi)
  have ascending := positionsOf_ascending names key
  have member := @positionsOf_mem_keyGroups names key
  generalize positionsOf names key = rows at keyed ascending member ⊢
  have inside : ∀ i ∈ rows, i < d.length := fun i hi => (keyed i hi).1
  have ordered' := sortKeys_only regular inside hos
    (fun o ho => single _ (List.mem_append_right _ (List.mem_map_of_mem ho))) ordered
  have parted' := columns_only hps (fun c hc => values_only regular inside c (single c (by simp [hc]))) parted
  have size : (d.only rows).length = rows.length := by simp [only, take]
  have grouped' := (congrArg (groupRows · _) size).trans (groupRows_only fun i hi => (keyed i hi).2)
  refine windowValues_of_frames ordered' parted' grouped' (by simp [size]) fun members hm => ?_
  obtain ⟨occupied, rfl⟩ := mem_keyGroups_replicate.1 hm
  obtain ⟨places, arranged, framed⟩ := partition_only regular inside aggregates hfn
    (fun c hc => single c (by simp [hc])) ascending (each rows (member occupied))
  refine ⟨_, arranged, fun p row at_p => ?_⟩
  rw [List.getElem?_map] at at_p
  obtain ⟨k, at_k, rfl⟩ := Option.map_eq_some_iff.1 at_p
  obtain ⟨frame, ws, framed, value, same⟩ := framed p k at_k
  exact ⟨frame, ws, framed, value, (item_only vs k).trans same⟩

end

end Evaluation

end QueryAlgebra
