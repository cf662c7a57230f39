import Mathlib.Data.List.GetD
import Mathlib.Data.List.Nodup
import QueryAlgebra.Evaluation.Plan
import QueryAlgebra.Proofs.Tree.Built

/-!
# The rows of joins

A join repeats the positions of both sides in parallel lists, so that its rows stay in step with its
pairs, and a mask over the product numbers the pairs.

* `Dataset.Regular`: data whose columns have the length of the data.
* `joinedRow`: the row of a pair of positions, either of which may be missing.
* `nestedLoops`: the pairs of a join by nested loops, `joinPairs_eq` those of a mask.
* `count_left`, `count_right`: how often a row of a side occurs.
* `joinPositions`, `join_eq_ok`: a join puts the rows of its pairs side by side.
* `join_eq_nestedLoops`: the data of a join is its relational definition.
-/

namespace QueryAlgebra

/-! ### Rows by position -/

namespace Dataset

/-- There is a column for each name, and all columns are as long as the data. -/
structure Regular (d : Dataset) : Prop where
  width  : d.refs.length = d.columns.length
  height : ∀ c ∈ d.columns, c.length = d.length

/-- A data set of columns is regular: the length of each column was checked. -/
theorem regular_of_ofColumns {refs : List ColumnId} {columns : List (List Value)}
    {length? : Option Nat} {d : Dataset} (h : ofColumns refs columns length? = .ok d) :
    d.Regular := by
  unfold ofColumns at h
  dsimp only at h
  split at h
  · rename_i width
    obtain ⟨_, checked, made⟩ := bind_eq_ok.1 h
    obtain rfl := Except.ok.inj made
    refine ⟨width, fun c hc => ?_⟩
    have second : (refs.zip columns).map Prod.snd = columns := List.map_snd_zip (Nat.le_of_eq width.symm)
    obtain ⟨⟨ref, c⟩, paired, rfl⟩ := List.mem_map.1 (second.symm ▸ hc)
    have passed := forM_eq_ok checked _ paired
    unfold checkColumn at passed
    split at passed
    · assumption
    · cases passed
  · cases h

/-- A column is read at the position that is found for it. -/
theorem column_eq_ok {d : Dataset} {n : String} {q : Option String} {values : List Value} :
    d.column n q = .ok values ↔ ∃ i, d.find? n q = some i ∧ d.columns.getD i [] = values := by
  unfold column
  split
  · rename_i i found
    simp [found]
  · rename_i missing
    simp [missing]

theorem column_of_exact {d : Dataset} {n q : String} {i : Nat}
    (h : d.refs.findIdx? (· = ⟨n, some q⟩) = some i) : d.column n (some q) = .ok (d.columns.getD i []) :=
  column_eq_ok.2 ⟨i, by rw [find?, h, Option.some_or], rfl⟩

theorem lt_of_find? {d : Dataset} (regular : d.Regular) {n : String} {q : Option String} {i : Nat}
    (h : d.find? n q = some i) : i < d.columns.length := by
  rw [← regular.width]
  unfold find? at h
  rcases Option.or_eq_some_iff.1 h with first | ⟨-, second⟩
  · exact (List.findIdx?_eq_some_iff_getElem.1 first).1
  · exact (List.findIdx?_eq_some_iff_getElem.1 second).1

/-- A column of regular data stands in the data. -/
theorem mem_of_column {d : Dataset} (regular : d.Regular) {n : String} {q : Option String}
    {column : List Value} (h : d.column n q = .ok column) : column ∈ d.columns := by
  obtain ⟨i, found, rfl⟩ := column_eq_ok.1 h
  rw [List.getD_eq_getElem _ _ (lt_of_find? regular found)]
  exact List.getElem_mem _

/-- The row at a position; a row that is not there has empty values. -/
def rowAt (d : Dataset) : Option Nat → List Value
  | some i => d.row i
  | none   => List.replicate d.columns.length .null

theorem rowAt_eq (d : Dataset) (p : Option Nat) :
    d.rowAt p = d.columns.map fun column => chosen column p := by
  cases p with
  | none => exact (List.map_const' ..).symm
  | some i => rfl

theorem row_take {d : Dataset} {positions : List (Option Nat)} {k : Nat} {p : Option Nat}
    (h : positions[k]? = some p) : (d.take positions).row k = d.rowAt p := by
  simp [row, take, rowAt_eq, item, h]

end Dataset

namespace Evaluation

open Dataset

/-! ### Rows side by side -/

/-- The row that a pair of positions stands for. -/
def joinedRow (l r : Dataset) (p : Option Nat × Option Nat) : List Value :=
  l.rowAt p.1 ++ r.rowAt p.2

/-- Rows side by side are always put together: both sides are as long as the list of pairs. -/
theorem sideBySide_eq (l r : Dataset) (pairs : List (Option Nat × Option Nat)) :
    sideBySide l r pairs = .ok ⟨l.refs ++ r.refs, (l.take (pairs.map (·.1))).columns
      ++ (r.take (pairs.map (·.2))).columns, pairs.length⟩ := by
  simp [sideBySide, concat, take]

theorem sideBySide_row {l r d : Dataset} {pairs : List (Option Nat × Option Nat)}
    (h : sideBySide l r pairs = .ok d) {k : Nat} {p : Option Nat × Option Nat}
    (hp : pairs[k]? = some p) : d.row k = joinedRow l r p := by
  rw [sideBySide_eq] at h
  cases h
  have left : (l.take (pairs.map (·.1))).row k = l.rowAt p.1 := row_take (by simp [hp])
  have right : (r.take (pairs.map (·.2))).row k = r.rowAt p.2 := row_take (by simp [hp])
  rw [joinedRow, ← left, ← right]
  exact List.map_append

theorem sideBySide_rows {l r d : Dataset} {pairs : List (Option Nat × Option Nat)}
    (h : sideBySide l r pairs = .ok d) :
    d.refs = l.refs ++ r.refs ∧ d.length = pairs.length ∧ d.rows = pairs.map (joinedRow l r) := by
  have made := h
  rw [sideBySide_eq] at made
  have length : d.length = pairs.length := by cases made; rfl
  refine ⟨by cases made; rfl, length, List.ext_getElem (by simp [rows, length]) fun k _ bound => ?_⟩
  have inside : k < pairs.length := by simpa using bound
  rw [List.getElem_map, ← sideBySide_row h (List.getElem?_eq_getElem inside)]
  simp [rows]

theorem regular_sideBySide {l r d : Dataset} {pairs : List (Option Nat × Option Nat)}
    (hl : l.Regular) (hr : r.Regular) (h : sideBySide l r pairs = .ok d) : d.Regular := by
  rw [sideBySide_eq] at h
  cases h
  refine ⟨by simp [take, hl.width, hr.width], fun c hc => ?_⟩
  rcases List.mem_append.1 hc with hc | hc <;> obtain ⟨c, -, rfl⟩ := List.mem_map.1 hc <;> simp

/-- A column of the left side is found where it was, with the values of the left rows. -/
theorem exact_left {l r d : Dataset} {pairs : List (Option Nat × Option Nat)}
    (h : sideBySide l r pairs = .ok d) (regular : l.Regular) {p : ColumnId → Bool} {i : Nat}
    (found : l.refs.findIdx? p = some i) :
    d.refs.findIdx? p = some i ∧
      d.columns.getD i [] = (pairs.map (·.1)).map (chosen (l.columns.getD i [])) := by
  have inside : i < l.columns.length := by
    rw [← regular.width]
    exact (List.findIdx?_eq_some_iff_getElem.1 found).1
  rw [sideBySide_eq] at h
  cases h
  refine ⟨by simp [List.findIdx?_append, found], ?_⟩
  simp [take, List.getElem?_append, inside]

/-- A column of the right side is found behind those of the left side, with the values of the right
rows. -/
theorem exact_right {l r d : Dataset} {pairs : List (Option Nat × Option Nat)}
    (h : sideBySide l r pairs = .ok d) (left : l.Regular) (right : r.Regular)
    {p : ColumnId → Bool} {i : Nat} (free : l.refs.findIdx? p = none)
    (found : r.refs.findIdx? p = some i) :
    d.refs.findIdx? p = some (l.refs.length + i) ∧
      d.columns.getD (l.refs.length + i) []
        = (pairs.map (·.2)).map (chosen (r.columns.getD i [])) := by
  have inside : i < r.columns.length := by
    rw [← right.width]
    exact (List.findIdx?_eq_some_iff_getElem.1 found).1
  rw [sideBySide_eq] at h
  cases h
  refine ⟨by simp [List.findIdx?_append, free, found, Nat.add_comm], ?_⟩
  simp [take, left.width, inside]

/-! ### Nested loops -/

/-- The pairs of positions that a test accepts: the left one counts first. -/
def matching (n m : Nat) (holds : Nat → Nat → Bool) : List (Nat × Nat) :=
  (List.range n).flatMap fun i => ((List.range m).filter (holds i)).map fun j => (i, j)

/-- The positions on the left that match nothing. -/
def lonelyLeft (n m : Nat) (holds : Nat → Nat → Bool) : List Nat :=
  (List.range n).filter fun i => !(List.range m).any (holds i)

/-- The positions on the right that match nothing. -/
def lonelyRight (n m : Nat) (holds : Nat → Nat → Bool) : List Nat :=
  (List.range m).filter fun j => !(List.range n).any fun i => holds i j

/-- **A join by nested loops**: the pairs of rows that match; then the rows of the left side that
match nothing, if they are kept, then those of the right side. -/
def nestedLoops (n m : Nat) (holds : Nat → Nat → Bool) (kind : JoinType) :
    List (Option Nat × Option Nat) :=
  (matching n m holds).map bothRows
    ++ (if keepsLeft kind then (lonelyLeft n m holds).map fun i => (some i, none) else [])
    ++ (if keepsRight kind then (lonelyRight n m holds).map fun j => (none, some j) else [])

/-- What the mask of a product says about a pair of rows. -/
def maskAt (m : Nat) (mask : List Value) (i j : Nat) : Bool :=
  (item mask (i * m + j)).isBool true

theorem allPairs_succ (n m : Nat) :
    allPairs (n + 1) m = allPairs n m ++ (List.range m).map fun j => (n, j) := by
  simp [allPairs, List.range_succ]

theorem length_allPairs (n m : Nat) : (allPairs n m).length = n * m := by
  simp [allPairs]

/-- Pair `i, j` of a product stands at position `i * m + j`. -/
theorem allPairs_zipIdx (n m : Nat) :
    (allPairs n m).zipIdx
      = (List.range n).flatMap fun i => (List.range m).map fun j => ((i, j), i * m + j) := by
  induction n with
  | zero => rfl
  | succ n ih =>
    have last : ((List.range m).map fun j => (n, j)).zipIdx (n * m)
        = (List.range m).map fun j => ((n, j), n * m + j) := by
      refine List.ext_getElem (by simp) fun k _ _ => ?_
      simp
    rw [allPairs_succ, List.zipIdx_append, ih, length_allPairs, Nat.zero_add, last,
      List.range_succ, List.flatMap_append, List.flatMap_singleton]

/-- A mask tests the pair at its own position. -/
theorem matchedPairs_drop (mask : List Value) : ∀ (pairs : List (Nat × Nat)) (k : Nat),
    matchedPairs pairs (mask.drop k)
      = ((pairs.zipIdx k).filter fun p => (item mask p.2).isBool true).map (·.1) := by
  intro pairs
  induction pairs with
  | nil => exact fun _ => rfl
  | cons p r ih =>
    intro k
    have step := ih (k + 1)
    unfold matchedPairs at step ⊢
    rw [List.zipIdx_cons]
    by_cases inside : k < mask.length
    · rw [List.drop_eq_getElem_cons inside, List.zip_cons_cons, List.filter_cons, List.filter_cons]
      have read : item mask k = mask[k] := by simp [item, inside]
      rw [read]
      split
      · rw [List.map_cons, List.map_cons, step]
      · exact step
    · -- The mask has ended: what is read behind its end is not true.
      have behind : mask.length ≤ k := Nat.le_of_not_lt inside
      have read : item mask k = .absent := by simp [item, behind]
      rw [List.drop_eq_nil_of_le (Nat.le_succ_of_le behind)] at step
      rw [List.drop_eq_nil_of_le behind, List.filter_cons, read, if_neg (by decide), ← step,
        List.zip_nil_right, List.zip_nil_right]

theorem matchedPairs_eq (n m : Nat) (mask : List Value) :
    matchedPairs (allPairs n m) mask = matching n m (maskAt m mask) := by
  have tested := matchedPairs_drop mask (allPairs n m) 0
  rw [List.drop_zero, allPairs_zipIdx] at tested
  rw [tested, matching, List.filter_flatMap, List.map_flatMap]
  simp only [List.filter_map, List.map_map]
  rfl

theorem mem_matching {n m : Nat} {holds : Nat → Nat → Bool} {i j : Nat} :
    (i, j) ∈ matching n m holds ↔ i < n ∧ j < m ∧ holds i j = true := by
  simp [matching, and_assoc]

theorem missingFrom_left (n m : Nat) (holds : Nat → Nat → Bool) :
    missingFrom n ((matching n m holds).map (·.1)) = lonelyLeft n m holds := by
  refine List.filter_congr fun i hi => congrArg not ?_
  rw [Bool.eq_iff_iff, List.contains_iff_mem, List.any_eq_true]
  simp [mem_matching, List.mem_range.1 hi]

theorem missingFrom_right (n m : Nat) (holds : Nat → Nat → Bool) :
    missingFrom m ((matching n m holds).map (·.2)) = lonelyRight n m holds := by
  refine List.filter_congr fun j hj => congrArg not ?_
  rw [Bool.eq_iff_iff, List.contains_iff_mem, List.any_eq_true]
  simp [mem_matching, List.mem_range.1 hj]

/-- **A join by a mask is the join by nested loops.** -/
theorem joinPairs_eq (n m : Nat) (mask : List Value) (kind : JoinType) :
    joinPairs n m mask kind = nestedLoops n m (maskAt m mask) kind := by
  unfold joinPairs nestedLoops
  dsimp only
  rw [matchedPairs_eq, missingFrom_left, missingFrom_right]

/-- All pairs are a join whose test is always true. -/
theorem allPairs_eq (n m : Nat) : allPairs n m = matching n m fun _ _ => true := by
  simp [allPairs, matching]

/-! ### How often a row occurs -/

/-- How many rows of the right side a row of the left side matches. -/
def leftMatches (m : Nat) (holds : Nat → Nat → Bool) (i : Nat) : Nat :=
  (List.range m).countP (holds i)

/-- How many rows of the left side a row of the right side matches. -/
def rightMatches (n : Nat) (holds : Nat → Nat → Bool) (j : Nat) : Nat :=
  (List.range n).countP fun i => holds i j

/-- A position occurs once among those that pass a test, if it passes. -/
theorem count_filter_range {n i : Nat} (p : Nat → Bool) (inside : i < n) :
    ((List.range n).filter p).count i = if p i then 1 else 0 := by
  split
  · rename_i passes
    rw [List.count_filter passes]
    exact List.count_eq_one_of_mem List.nodup_range (List.mem_range.2 inside)
  · rename_i fails
    exact List.count_eq_zero.2 fun found => fails (List.mem_filter.1 found).2

theorem matching_succ (n m : Nat) (holds : Nat → Nat → Bool) :
    matching (n + 1) m holds
      = matching n m holds ++ ((List.range m).filter (holds n)).map fun j => (n, j) := by
  simp [matching, List.range_succ]

theorem count_matching_left {n : Nat} (m : Nat) (holds : Nat → Nat → Bool) {i : Nat}
    (inside : i < n) :
    ((matching n m holds).map (·.1)).count i = leftMatches m holds i := by
  induction n with
  | zero => cases inside
  | succ n ih =>
    have last : (((List.range m).filter (holds n)).map fun j => (n, j)).map (·.1)
        = List.replicate (leftMatches m holds n) n := by
      simp [leftMatches, List.countP_eq_length_filter, Function.comp_def]
    rw [matching_succ, List.map_append, List.count_append, last, List.count_replicate]
    -- The last row stands in its own pairs only, an earlier one only in those before.
    obtain before | rfl := Nat.lt_succ_iff_lt_or_eq.1 inside
    · simp [ih before, Nat.ne_of_gt before]
    · have absent : ((matching i m holds).map (·.1)).count i = 0 := by
        refine List.count_eq_zero.2 fun found => ?_
        obtain ⟨p, hp, same⟩ := List.mem_map.1 found
        exact absurd (mem_matching.1 hp).1 (by simp [same])
      simp [absent]

theorem count_matching_right (n : Nat) {m : Nat} (holds : Nat → Nat → Bool) {j : Nat}
    (inside : j < m) :
    ((matching n m holds).map (·.2)).count j = rightMatches n holds j := by
  induction n with
  | zero => rfl
  | succ n ih =>
    have last : (((List.range m).filter (holds n)).map fun j => (n, j)).map (·.2)
        = (List.range m).filter (holds n) := by
      simp [Function.comp_def]
    rw [matching_succ, List.map_append, List.count_append, ih, last, count_filter_range _ inside,
      rightMatches, rightMatches, List.range_succ, List.countP_append]
    simp [List.countP_cons]

/-- A side whose lonely rows are kept has the rows that match nothing once. -/
theorem count_kept {hits lonely : List Nat} {i found : Nat} (keep : Bool)
    (matched : hits.count i = found)
    (unmatched : lonely.count i = if found = 0 then 1 else 0) :
    (hits ++ if keep then lonely else []).count i = if keep then max 1 found else found := by
  rw [List.count_append, matched]
  cases keep with
  | false => simp
  | true =>
    simp only [if_true, unmatched]
    split <;> omega

/-- **A row of the left side occurs once for each row that it matches**, and once if it matches
nothing but is kept. -/
theorem count_left {n : Nat} (m : Nat) (holds : Nat → Nat → Bool) (kind : JoinType) {i : Nat}
    (inside : i < n) :
    ((nestedLoops n m holds kind).filterMap (·.1)).count i
      = if keepsLeft kind then max 1 (leftMatches m holds i) else leftMatches m holds i := by
  have rows : (nestedLoops n m holds kind).filterMap (·.1) = (matching n m holds).map (·.1)
      ++ if keepsLeft kind then lonelyLeft n m holds else [] := by
    rw [nestedLoops, List.filterMap_append, List.filterMap_append]
    split <;> split <;> simp [List.filterMap_map, Function.comp_def, bothRows]
  rw [rows]
  refine count_kept _ (count_matching_left m holds inside) ?_
  rw [lonelyLeft, count_filter_range _ inside]
  simp [leftMatches, List.countP_eq_zero]

/-- A row of the right side occurs once for each row that it matches, and once if it matches nothing
but is kept. -/
theorem count_right (n : Nat) {m : Nat} (holds : Nat → Nat → Bool) (kind : JoinType) {j : Nat}
    (inside : j < m) :
    ((nestedLoops n m holds kind).filterMap (·.2)).count j
      = if keepsRight kind then max 1 (rightMatches n holds j) else rightMatches n holds j := by
  have rows : (nestedLoops n m holds kind).filterMap (·.2) = (matching n m holds).map (·.2)
      ++ if keepsRight kind then lonelyRight n m holds else [] := by
    rw [nestedLoops, List.filterMap_append, List.filterMap_append]
    split <;> split <;> simp [List.filterMap_map, Function.comp_def, bothRows]
  rw [rows]
  refine count_kept _ (count_matching_right n holds inside) ?_
  rw [lonelyRight, count_filter_range _ inside]
  simp [rightMatches, List.countP_eq_zero]

/-! ### Joins of plans -/

theorem allPairs_getElem? {n m i j : Nat} (hi : i < n) (hj : j < m) :
    (allPairs n m)[i * m + j]? = some (i, j) := by
  have numbered : ((i, j), i * m + j) ∈ (allPairs n m).zipIdx := by
    rw [allPairs_zipIdx]
    exact List.mem_flatMap.2 ⟨i, List.mem_range.2 hi, List.mem_map.2 ⟨j, List.mem_range.2 hj, rfl⟩⟩
  exact List.mem_zipIdx_iff_getElem?.1 numbered

/-- The data of a product: all pairs, the left row counting first. -/
theorem product_rows {l r all : Dataset} (h : product l r = .ok all) :
    all.refs = l.refs ++ r.refs ∧
      all.rows = (matching l.length r.length fun _ _ => true).map
        (fun p => l.row p.1 ++ r.row p.2) ∧
      ∀ i j, i < l.length → j < r.length → all.row (i * r.length + j) = l.row i ++ r.row j := by
  obtain ⟨refs, -, rows⟩ := sideBySide_rows h
  refine ⟨refs, by rw [rows, allPairs_eq, List.map_map]; rfl, fun i j hi hj => ?_⟩
  exact sideBySide_row h (p := (some i, some j)) (by simp [allPairs_getElem? hi hj, bothRows])

/-- The pairs of rows that a join of two data sets consists of. -/
def joinPositions (l r : Dataset) (condition : Option FeaturePlan) (kind : JoinType) :
    Except Fault (List (Option Nat × Option Nat)) :=
  match condition with
  | none   => .ok ((allPairs l.length r.length).map bothRows)
  | some c => do
    let all ← product l r
    return joinPairs l.length r.length (← c.values (.ofData all)) kind

/-- A join puts the rows of its pairs side by side. -/
theorem join_eq_ok {left right : SourcePlan} {condition : Option FeaturePlan} {kind : JoinType}
    {catalog : Catalog} {d : Dataset} :
    SourcePlan.join left right condition kind catalog = .ok d ↔
      ∃ l r pairs, left catalog = .ok l ∧ right catalog = .ok r ∧
        joinPositions l r condition kind = .ok pairs ∧ sideBySide l r pairs = .ok d := by
  cases condition with
  | none =>
    simp only [SourcePlan.join, joinPositions, bind_eq_ok, pure_eq_ok, Except.ok.injEq]
    constructor
    · rintro ⟨l, hl, r, hr, all, hall, rfl⟩
      exact ⟨l, r, _, hl, hr, rfl, hall⟩
    · rintro ⟨l, r, _, hl, hr, rfl, hall⟩
      exact ⟨l, hl, r, hr, d, hall, rfl⟩
  | some c =>
    simp only [SourcePlan.join, joinPositions, bind_eq_ok, pure_eq_ok]
    constructor
    · rintro ⟨l, hl, r, hr, all, hall, mask, hmask, hd⟩
      exact ⟨l, r, _, hl, hr, ⟨all, hall, mask, hmask, rfl⟩, hd⟩
    · rintro ⟨l, r, _, hl, hr, ⟨all, hall, mask, hmask, rfl⟩, hd⟩
      exact ⟨l, hl, r, hr, all, hall, mask, hmask, hd⟩

theorem mem_nestedLoops {n m : Nat} {holds : Nat → Nat → Bool} {kind : JoinType}
    {p : Option Nat × Option Nat} (h : p ∈ nestedLoops n m holds kind) :
    (∀ i ∈ p.1, i < n) ∧ ∀ j ∈ p.2, j < m := by
  unfold nestedLoops at h
  rcases List.mem_append.1 h with h | h
  · rcases List.mem_append.1 h with h | h
    · obtain ⟨⟨i, j⟩, hij, rfl⟩ := List.mem_map.1 h
      obtain ⟨hi, hj, -⟩ := mem_matching.1 hij
      simp [bothRows, hi, hj]
    · split at h
      · obtain ⟨i, hi, rfl⟩ := List.mem_map.1 h
        simpa using (List.mem_filter.1 hi).1
      · cases h
  · split at h
    · obtain ⟨j, hj, rfl⟩ := List.mem_map.1 h
      simpa using (List.mem_filter.1 hj).1
    · cases h

/-- The positions in the pairs of a join are those of rows. -/
theorem joinPositions_bounds {l r : Dataset} {condition : Option FeaturePlan} {kind : JoinType}
    {pairs : List (Option Nat × Option Nat)} (h : joinPositions l r condition kind = .ok pairs) :
    ∀ p ∈ pairs, (∀ i ∈ p.1, i < l.length) ∧ ∀ j ∈ p.2, j < r.length := by
  intro p hp
  cases condition with
  | none =>
    cases h
    have asLoops : p ∈ nestedLoops l.length r.length (fun _ _ => true) .inner := by
      simpa [nestedLoops, keepsLeft, keepsRight, allPairs_eq] using hp
    exact mem_nestedLoops asLoops
  | some c =>
    simp only [joinPositions, bind_eq_ok, pure_eq_ok] at h
    obtain ⟨all, -, mask, -, rfl⟩ := h
    rw [joinPairs_eq] at hp
    exact mem_nestedLoops hp

/-- **A join is its relational definition.** The product has row `i` of the left side beside row `j`
of the right side at position `i * m + j`, for all pairs in lexicographic order, and is the join without
a condition. A condition that can be evaluated on it leaves the pairs for which it is true, in that
order, then come the rows of kept sides that match nothing, beside empty values. So a row occurs as
often as it matches, and once if it matches nothing and its side is kept. -/
theorem join_eq_nestedLoops {left right : SourcePlan} {catalog : Catalog} {l r : Dataset}
    (hl : left catalog = .ok l) (hr : right catalog = .ok r) :
    ∃ all, product l r = .ok all ∧ all.refs = l.refs ++ r.refs ∧
      all.rows = (matching l.length r.length fun _ _ => true).map
        (fun p => l.row p.1 ++ r.row p.2) ∧
      (∀ i j, i < l.length → j < r.length →
        all.row (i * r.length + j) = l.row i ++ r.row j) ∧
      (∀ kind, SourcePlan.join left right none kind catalog = .ok all) ∧
      ∀ (kind : JoinType) (c : FeaturePlan) mask, c.values (.ofData all) = .ok mask →
        let holds := maskAt r.length mask
        let pairs := nestedLoops l.length r.length holds kind
        ∃ d, SourcePlan.join left right (some c) kind catalog = .ok d ∧
          d.refs = l.refs ++ r.refs ∧ d.length = pairs.length ∧
          d.rows = pairs.map (joinedRow l r) ∧
          (∀ i < l.length, (pairs.filterMap (·.1)).count i
            = if keepsLeft kind then max 1 (leftMatches r.length holds i)
              else leftMatches r.length holds i) ∧
          ∀ j < r.length, (pairs.filterMap (·.2)).count j
            = if keepsRight kind then max 1 (rightMatches l.length holds j)
              else rightMatches l.length holds j := by
  obtain ⟨all, hall⟩ : ∃ all, product l r = .ok all := ⟨_, sideBySide_eq ..⟩
  obtain ⟨refs, rows, row⟩ := product_rows hall
  refine ⟨all, hall, refs, rows, row, ?_, ?_⟩
  · intro kind
    exact join_eq_ok.2 ⟨l, r, _, hl, hr, rfl, hall⟩
  · intro kind c mask evaluated holds pairs
    obtain ⟨d, hd⟩ : ∃ d, joinRows l r mask kind = .ok d := ⟨_, sideBySide_eq ..⟩
    have joined := sideBySide_rows hd
    rw [joinPairs_eq] at joined
    obtain ⟨refs, length, rows⟩ := joined
    have positions : joinPositions l r (some c) kind
        = .ok (joinPairs l.length r.length mask kind) := by
      simp only [joinPositions, bind_eq_ok, pure_eq_ok]
      exact ⟨all, hall, mask, evaluated, rfl⟩
    exact ⟨d, join_eq_ok.2 ⟨l, r, _, hl, hr, positions, hd⟩, refs, length, rows,
      fun i hi => count_left _ _ _ hi, fun j hj => count_right _ _ _ hj⟩

/-- A full join in which a row of each side matches nothing and a row of the left side matches two. -/
theorem join_eq_nestedLoops_full :
    let l : Dataset := ⟨[⟨"id", some "l"⟩], [[.text "a", .text "b"]], 2⟩
    let r : Dataset := ⟨[⟨"id", some "r"⟩, ⟨"n", some "r"⟩],
      [[.text "b", .text "c", .text "b"], [.text "x", .text "y", .text "z"]], 3⟩
    let side (name : String) : FeaturePlan := .element (.reference (.table ⟨"t", []⟩) name) "id"
    let condition := FeaturePlan.rowWise .eq [side "l", side "r"] (.primitive .boolean)
    ∃ d, SourcePlan.join (.ofData l) (.ofData r) (some condition) .full [] = .ok d ∧
      d.rows = [[.text "b", .text "b", .text "x"], [.text "b", .text "b", .text "z"],
        [.text "a", .null, .null], [.null, .text "c", .text "y"]] := by
  intro l r side condition
  have hl : SourcePlan.ofData l [] = .ok l := rfl
  have hr : SourcePlan.ofData r [] = .ok r := rfl
  obtain ⟨all, hall, -, -, -, -, joins⟩ := join_eq_nestedLoops hl hr
  obtain ⟨mask, evaluated, pairs⟩ : ∃ mask, condition.values (.ofData all) = .ok mask ∧
      nestedLoops l.length r.length (maskAt r.length mask) .full
        = [(some 1, some 0), (some 1, some 2), (some 0, none), (none, some 1)] := by
    cases hall
    exact ⟨_, rfl, by decide⟩
  obtain ⟨d, joined, -, -, rows, -⟩ := joins .full condition mask evaluated
  exact ⟨d, joined, by rw [rows, pairs]; rfl⟩

end Evaluation
end QueryAlgebra
