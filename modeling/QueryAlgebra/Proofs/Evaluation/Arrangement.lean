import QueryAlgebra.Evaluation.Window
import QueryAlgebra.Proofs.Keyed
import QueryAlgebra.Proofs.Tree.Built
import QueryAlgebra.Proofs.Value.Key
import Mathlib.Data.List.Forall2
import Mathlib.Data.List.Induction
import Mathlib.Data.List.Nodup

/-!
# Rows are rearranged and grouped without loss

Sorting keeps all rows, whatever the comparison says, and grouping puts every row into one group. The
frame of a window is a part of its partition.

* `sortBy_perm`, `arrange_perm`: sorted rows are the rows.
* `sortBy_sorted`, `arrange_unkeyed`: what is sorted stays, as rows do without sorting keys.
* `groupRows_perm`: the rows of all groups are all rows.
* `keyGroups`, `groupRows_eq`: there is a group for each key, in the order in which keys appear first.
* `items_of_group`: the rows of a group have the same values, up to what keys of values do not keep.
* `frameAt_subset`: the rows of a frame are rows of the partition.
-/

namespace QueryAlgebra.Evaluation

/-! ### Sorting -/

section

variable {α : Type} {cmp : α → α → Except Fault Comparison}

/-- A run and the rest behind it are the list. -/
theorem spanRun_append {falling : Bool} : ∀ {as run rest : List α} {last : α},
    spanRun cmp falling last as = .ok (run, rest) → run ++ rest = as
  | [], run, rest, last, h => by
    obtain ⟨rfl, rfl⟩ := Prod.mk.inj (Except.ok.inj h)
    rfl
  | a :: r, run, rest, last, h => by
    obtain ⟨before, -, h⟩ := bind_eq_ok.1 h
    split at h
    · obtain ⟨⟨inner, others⟩, span, h⟩ := bind_eq_ok.1 h
      obtain ⟨rfl, rfl⟩ := Prod.mk.inj (pure_eq_ok.1 h)
      rw [List.cons_append, spanRun_append span]
    · obtain ⟨rfl, rfl⟩ := Prod.mk.inj (pure_eq_ok.1 h)
      rfl

/-- The run at the head of a list, turned round or not, and the rest are the items of the list. -/
theorem firstRun_perm {as run rest : List α} (h : firstRun cmp as = .ok (run, rest)) :
    (run ++ rest).Perm as := by
  unfold firstRun at h
  split at h
  · rename_i a b r
    obtain ⟨falling, -, h⟩ := bind_eq_ok.1 h
    obtain ⟨⟨inner, others⟩, span, h⟩ := bind_eq_ok.1 h
    obtain ⟨rfl, rfl⟩ := Prod.mk.inj (pure_eq_ok.1 h)
    have items : a :: b :: inner ++ others = a :: b :: r := by
      rw [List.cons_append, List.cons_append, spanRun_append span]
    split
    · exact ((List.reverse_perm _).append_right _).trans (.of_eq items)
    · exact .of_eq items
  · obtain ⟨rfl, rfl⟩ := Prod.mk.inj (Except.ok.inj h)
    rw [List.append_nil]

theorem insertHalving_perm {a : α} : ∀ {fuel : Nat} {bs cs : List α},
    insertHalving cmp a fuel bs = .ok cs → cs.Perm (a :: bs)
  | 0, bs, cs, h => .of_eq (Except.ok.inj h).symm
  | fuel + 1, bs, cs, h => by
    have halves : ∀ low high, bs.splitAt (bs.length / 2) = (low, high) → low ++ high = bs := by
      intro low high split
      rw [List.splitAt_eq] at split
      obtain ⟨rfl, rfl⟩ := Prod.mk.inj split
      exact List.take_append_drop _ _
    unfold insertHalving at h
    split at h
    · rename_i low split
      obtain rfl : [a] = cs := Except.ok.inj h
      -- Half of a list is all of it only if the list is empty.
      have short : bs.length ≤ bs.length / 2 := by
        rw [List.splitAt_eq] at split
        exact List.drop_eq_nil_iff.1 (Prod.mk.inj split).2
      obtain rfl : bs = [] := List.eq_nil_of_length_eq_zero (by omega)
      rfl
    · rename_i low middle high split
      rw [← halves _ _ split]
      obtain ⟨before, -, h⟩ := bind_eq_ok.1 h
      split at h
      · obtain ⟨inner, inserted, h⟩ := bind_eq_ok.1 h
        obtain rfl := pure_eq_ok.1 h
        exact (insertHalving_perm inserted).append_right _
      · obtain ⟨inner, inserted, h⟩ := bind_eq_ok.1 h
        obtain rfl := pure_eq_ok.1 h
        have swapped : (middle :: inner).Perm (a :: middle :: high) :=
          ((insertHalving_perm inserted).cons middle).trans (List.Perm.swap a middle high)
        exact (swapped.append_left low).trans List.perm_middle

theorem insertAll_perm : ∀ {rest sorted bs : List α},
    rest.foldlM (fun sorted a => insertHalving cmp a sorted.length sorted) sorted = .ok bs →
      bs.Perm (sorted ++ rest)
  | [], sorted, bs, h => by
    obtain rfl := pure_eq_ok.1 h
    rw [List.append_nil]
  | a :: r, sorted, bs, h => by
    rw [List.foldlM_cons] at h
    obtain ⟨next, inserted, h⟩ := bind_eq_ok.1 h
    exact (insertAll_perm h).trans
      (((insertHalving_perm inserted).append_right r).trans List.perm_middle.symm)

/-- **Sorting keeps all items**, whatever the comparison says. -/
theorem sortBy_perm {as bs : List α} (h : sortBy cmp as = .ok bs) : bs.Perm as := by
  obtain ⟨⟨run, rest⟩, first, h⟩ := bind_eq_ok.1 h
  exact (insertAll_perm h).trans (firstRun_perm first)

end

/-- Sorted rows are the rows. -/
theorem arrange_perm {positions sorted : List Nat} {keys : List SortKey}
    (h : arrange positions keys = .ok sorted) : sorted.Perm positions := sortBy_perm h

/-- A run that is sorted goes on to the end. -/
theorem spanRun_sorted {α : Type} {cmp : α → α → Except Fault Comparison} : ∀ {as : List α} {last : α},
    (last :: as).Pairwise (fun a b => precedes cmp b a = .ok false) →
      spanRun cmp false last as = .ok (as, [])
  | [], _, _ => rfl
  | a :: r, last, h => by
    obtain ⟨first, rest⟩ := List.pairwise_cons.1 h
    simp only [spanRun, first a List.mem_cons_self, spanRun_sorted rest]
    rfl

/-- **What is sorted stays as it is.** -/
theorem sortBy_sorted {α : Type} {cmp : α → α → Except Fault Comparison} {as : List α}
    (h : as.Pairwise fun a b => precedes cmp b a = .ok false) : sortBy cmp as = .ok as := by
  match as, h with
  | [], _ => rfl
  | [a], _ => rfl
  | a :: b :: r, h =>
    obtain ⟨first, rest⟩ := List.pairwise_cons.1 h
    have run : firstRun cmp (a :: b :: r) = .ok (a :: b :: r, []) :=
      bind_eq_ok.2 ⟨false, first b List.mem_cons_self, bind_eq_ok.2 ⟨_, spanRun_sorted rest, rfl⟩⟩
    simp only [sortBy, run]
    rfl

/-- Without sorting keys rows stay in their order. -/
theorem arrange_unkeyed (n : Nat) : arrange (List.range n) [] = .ok (List.range n) := by
  refine sortBy_sorted (List.pairwise_lt_range.imp fun {a b} less => ?_)
  have order : compare b a = .gt := Nat.compare_eq_gt.2 less
  simp only [precedes, comparePositions, order]
  rfl

/-! ### Groups -/

theorem addToGroup_cons (key : String) (i : Nat) (k : String) (rows : List Nat)
    (r : List (String × List Nat)) :
    addToGroup ((k, rows) :: r) key i
      = if key = k then (k, rows ++ [i]) :: r else (k, rows) :: addToGroup r key i := by
  by_cases same : key = k
  · simp [addToGroup, Assoc.put, Assoc.find?, same]
  · simp [addToGroup, Assoc.put, Assoc.find?, same]

/-- A row that is put into the group of its key is one more row in the groups. -/
theorem addToGroup_perm (key : String) (i : Nat) : ∀ groups : List (String × List Nat),
    ((addToGroup groups key i).flatMap (·.2)).Perm (i :: groups.flatMap (·.2))
  | [] => by simp [addToGroup, Assoc.put, Assoc.find?]
  | (k, rows) :: r => by
    have rest := addToGroup_perm key i r
    rw [addToGroup_cons]
    split
    · simp only [List.flatMap_cons, List.append_assoc]
      exact List.perm_middle
    · simp only [List.flatMap_cons]
      exact (rest.append_left rows).trans List.perm_middle

theorem addAll_perm {columns : List (List Value)} : ∀ {rows : List Nat}
    {acc groups : List (String × List Nat)},
    rows.foldlM (fun acc i => do return addToGroup acc (← keyAt columns i) i) acc = .ok groups →
      (groups.flatMap (·.2)).Perm (acc.flatMap (·.2) ++ rows)
  | [], acc, groups, h => by
    obtain rfl := pure_eq_ok.1 h
    rw [List.append_nil]
  | i :: r, acc, groups, h => by
    rw [List.foldlM_cons] at h
    obtain ⟨next, added, h⟩ := bind_eq_ok.1 h
    obtain ⟨key, -, added⟩ := bind_eq_ok.1 added
    obtain rfl := pure_eq_ok.1 added
    exact (addAll_perm h).trans
      (((addToGroup_perm key i acc).append_right r).trans List.perm_middle.symm)

/-- **The rows of all groups are all rows.** -/
theorem groupRows_perm {count : Nat} {columns : List (List Value)} {groups : List (List Nat)}
    (h : groupRows count columns = .ok groups) : groups.flatten.Perm (List.range count) := by
  obtain ⟨keyed, grouped, h⟩ := bind_eq_ok.1 h
  obtain rfl := pure_eq_ok.1 h
  have rows := addAll_perm grouped
  rwa [List.flatMap_nil, List.nil_append, List.flatMap_def] at rows

theorem groupRows_bounds {count : Nat} {columns : List (List Value)} {groups : List (List Nat)}
    (h : groupRows count columns = .ok groups) : ∀ g ∈ groups, ∀ i ∈ g, i < count := fun g hg _ hi =>
  List.mem_range.1 ((groupRows_perm h).subset (List.mem_flatten.2 ⟨g, hg, hi⟩))

theorem groupRows_sizes {count : Nat} {columns : List (List Value)} {groups : List (List Nat)}
    (h : groupRows count columns = .ok groups) : (groups.map List.length).sum = count := by
  have length := (groupRows_perm h).length_eq
  rwa [List.length_flatten, List.length_range] at length

/-! ### Groups by keys -/

/-- The positions at which a key stands. -/
def positionsOf (keys : List String) (key : String) : List Nat :=
  (List.range keys.length).filter fun i => keys[i]? = some key

theorem mem_positionsOf {keys : List String} {key : String} {i : Nat} :
    i ∈ positionsOf keys key ↔ keys[i]? = some key := by
  refine ⟨fun h => by simpa using (List.mem_filter.1 h).2, fun h => List.mem_filter.2 ⟨?_, by simpa using h⟩⟩
  exact List.mem_range.2 (List.getElem?_eq_some_iff.1 h).1

theorem positionsOf_concat (keys : List String) (last key : String) :
    positionsOf (keys ++ [last]) key
      = positionsOf keys key ++ if last = key then [keys.length] else [] := by
  unfold positionsOf
  rw [List.length_append, List.length_singleton, List.range_succ, List.filter_append]
  congr 1
  · exact List.filter_congr fun i hi => by rw [List.getElem?_append_left (List.mem_range.1 hi)]
  · by_cases same : last = key <;> simp [same]

/-- The positions of each key, in the order in which the keys appear first. -/
def keyGroups (keys : List String) : List (List Nat) := keys.eraseDups.map (positionsOf keys)

/-- The rows of a group have one key. -/
theorem key_of_keyGroups {keys : List String} {g : List Nat} (h : g ∈ keyGroups keys) :
    ∃ key, ∀ i ∈ g, keys[i]? = some key := by
  obtain ⟨key, -, rfl⟩ := List.mem_map.1 h
  exact ⟨key, fun i hi => mem_positionsOf.1 hi⟩

/-- A row that is put among groups of distinct keys. -/
theorem addToGroup_map (rows : String → List Nat) (key : String) (i : Nat) :
    ∀ {keys : List String}, keys.Nodup → addToGroup (keys.map fun k => (k, rows k)) key i
      = keys.map (fun k => (k, rows k ++ if key = k then [i] else []))
        ++ if key ∈ keys then [] else [(key, [i])]
  | [], _ => by simp [addToGroup, Assoc.put, Assoc.find?]
  | k :: r, h => by
    obtain ⟨new, distinct⟩ := List.nodup_cons.1 h
    rw [List.map_cons, addToGroup_cons]
    by_cases same : key = k
    · subst same
      have others : ∀ k ∈ r, key ≠ k := fun k hk same => new (same ▸ hk)
      simpa using fun k hk => others k hk
    · rw [if_neg same, addToGroup_map rows key i distinct]
      simp [same]

/-- Groups with their keys. -/
def keyedGroups (keys : List String) : List (String × List Nat) :=
  keys.eraseDups.map fun k => (k, positionsOf keys k)

/-- **The next row goes to the group of its key**, or begins a new one. -/
theorem addToGroup_keyed (keys : List String) (key : String) :
    addToGroup (keyedGroups keys) key keys.length = keyedGroups (keys ++ [key]) := by
  unfold keyedGroups
  rw [addToGroup_map _ _ _ (nodup_eraseDups keys), eraseDups_concat]
  simp only [List.mem_eraseDups, positionsOf_concat]
  split
  · rw [List.append_nil]
  · rename_i new
    have empty : positionsOf keys key = [] := List.eq_nil_iff_forall_not_mem.2 fun i hi =>
      new (List.mem_of_getElem? (mem_positionsOf.1 hi))
    simp [empty]

theorem addAll_eq (columns : List (List Value)) : ∀ n, (List.range n).foldlM
    (fun acc i => do return addToGroup acc (← keyAt columns i) i) []
      = keyedGroups <$> (List.range n).mapM (keyAt columns)
  | 0 => rfl
  | n + 1 => by
    rw [List.range_succ, List.foldlM_append, List.mapM_append, addAll_eq columns n]
    cases known : (List.range n).mapM (keyAt columns) with
    | error f => rfl
    | ok keys =>
      obtain rfl : keys.length = n := by rw [← (mapM_eq_ok known).length_eq, List.length_range]
      cases last : keyAt columns keys.length with
      | error f => simp [last, bind, Except.bind, Functor.map, Except.map]
      | ok key =>
        simp [last, bind, Except.bind, Functor.map, Except.map, pure, Except.pure, addToGroup_keyed]

/-- **There is a group for each key of a row**, in the order in which the keys appear first. -/
theorem groupRows_eq (count : Nat) (columns : List (List Value)) :
    groupRows count columns = keyGroups <$> (List.range count).mapM (keyAt columns) := by
  unfold groupRows
  rw [addAll_eq]
  cases (List.range count).mapM (keyAt columns) with
  | error f => rfl
  | ok keys => exact congrArg Except.ok (by simp [keyedGroups, keyGroups, Function.comp_def])

theorem groupRows_eq_ok {count : Nat} {columns : List (List Value)} {groups : List (List Nat)}
    (h : groupRows count columns = .ok groups) :
    ∃ keys, (List.range count).mapM (keyAt columns) = .ok keys ∧ keyGroups keys = groups :=
  map_eq_ok.1 (groupRows_eq count columns ▸ h)

/-- Rows with one key have the same keys in each column. -/
theorem items_of_keyAt {columns : List (List Value)} {i j : Nat} {key : String}
    (hi : keyAt columns i = .ok key) (hj : keyAt columns j = .ok key) :
    ∀ c ∈ columns, (Dataset.item c i).key = (Dataset.item c j).key := by
  have tuple : ∀ {i}, keyAt columns i = .ok key →
      Value.tupleKey (columns.map fun c => Dataset.item c i) = key := by
    intro i h
    unfold keyAt rowKey at h
    split at h
    · cases h
    · exact Except.ok.inj h
  have keys := Value.keys_of_tupleKey ((tuple hi).trans (tuple hj).symm)
  simpa using keys

/-- The keys of rows, by position. -/
theorem keyAt_of_keys {count : Nat} {columns : List (List Value)} {keys : List String}
    (h : (List.range count).mapM (keyAt columns) = .ok keys) {i : Nat} {key : String}
    (hi : keys[i]? = some key) : i < count ∧ keyAt columns i = .ok key := by
  have each := mapM_eq_ok h
  have length : keys.length = count := by rw [← each.length_eq, List.length_range]
  obtain ⟨bound, rfl⟩ := List.getElem?_eq_some_iff.1 hi
  have row := each.get (i := i) (by simpa [length] using bound) bound
  exact ⟨length ▸ bound, by simpa using row⟩

/-- **The rows of a group have the same values in the columns of keys**, up to what keys of values do
not keep. -/
theorem items_of_group {count : Nat} {columns : List (List Value)} {keys : List String}
    (h : (List.range count).mapM (keyAt columns) = .ok keys) {g : List Nat} (hg : g ∈ keyGroups keys) :
    ∀ i ∈ g, ∀ j ∈ g, i < count ∧
      ∀ c ∈ columns, (Dataset.item c i).key = (Dataset.item c j).key := by
  obtain ⟨key, rows⟩ := key_of_keyGroups hg
  intro i hi j hj
  obtain ⟨bound, first⟩ := keyAt_of_keys h (rows i hi)
  exact ⟨bound, items_of_keyAt first (keyAt_of_keys h (rows j hj)).2⟩

/-! ### Frames -/

theorem leadingPeers_subset {keys : List SortKey} {row : Nat} : ∀ {rest peers : List Nat},
    leadingPeers keys row rest = .ok peers → peers ⊆ rest
  | [], peers, h => by
    obtain rfl : [] = peers := Except.ok.inj h
    exact List.nil_subset _
  | a :: r, peers, h => by
    obtain ⟨tie, -, h⟩ := bind_eq_ok.1 h
    split at h
    · obtain ⟨others, more, h⟩ := bind_eq_ok.1 h
      obtain rfl := pure_eq_ok.1 h
      exact List.cons_subset_cons a (leadingPeers_subset more)
    · obtain rfl := pure_eq_ok.1 h
      exact List.nil_subset _

theorem peerFrame_subset {keys : List SortKey} {sorted rows : List Nat} {position : Nat}
    (h : peerFrame keys sorted position = .ok rows) : rows ⊆ sorted := by
  unfold peerFrame at h
  split at h
  · exact pure_eq_ok.1 h ▸ List.Subset.refl sorted
  · rename_i row rest drop
    obtain ⟨peers, leading, h⟩ := bind_eq_ok.1 h
    obtain rfl := pure_eq_ok.1 h
    have behind : rest ⊆ sorted := fun i hi =>
      List.drop_subset position sorted (drop ▸ List.mem_cons_of_mem row hi)
    exact List.append_subset.2 ⟨List.take_subset _ _,
      List.Subset.trans (leadingPeers_subset leading) behind⟩

/-- **The rows of a frame are rows of the partition.** -/
theorem frameAt_subset {keys : List SortKey} {frame : Option Frame} {sorted rows : List Nat}
    {position : Nat} (h : frameAt keys frame sorted position = .ok rows) : rows ⊆ sorted := by
  unfold frameAt at h
  split at h
  · obtain rfl := Except.ok.inj h
    exact List.Subset.trans (List.drop_subset _ _) (List.take_subset _ _)
  · split at h
    · exact Except.ok.inj h ▸ List.Subset.refl sorted
    · exact peerFrame_subset h

end QueryAlgebra.Evaluation
