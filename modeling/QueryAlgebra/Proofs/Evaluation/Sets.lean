import QueryAlgebra.Proofs.Evaluation.Arrangement
import QueryAlgebra.Proofs.Evaluation.Joins

/-!
# The rows of set operations

A set operation goes through rows once and remembers the keys that it has let through. So it leaves the
first row of each key, and which keys those are is a matter of both sides.

* `firstRows`: the rows of a list that come before all others with their keys.
* `keys_firstRows`: they have the keys of the list, each one once.
* `distinctRows_eq`: one pass that remembers keys leaves the first rows that pass a test of their keys.
* `SetOp.Holds`: which rows a set operation has, told by the sides that have them.
* `set_eq`: a set operation has these among the first rows.
* `set_rows`: so it has the laws of sets.
-/

namespace QueryAlgebra

open Evaluation

/-! ### First rows -/

/-- The rows of a list that come before all others with their keys. -/
def firstRows (rows : List (List Value)) : List (List Value) :=
  (rows.zipIdx.filter fun p =>
    !((rows.take p.2).map Value.tupleKey).contains (Value.tupleKey p.1)).map (·.1)

/-- One more row is a first one if no other one has its key. -/
theorem firstRows_concat (rows : List (List Value)) (row : List Value) :
    firstRows (rows ++ [row]) = firstRows rows
      ++ if Value.tupleKey row ∈ rows.map Value.tupleKey then [] else [row] := by
  have before : ∀ p ∈ rows.zipIdx, (rows ++ [row]).take p.2 = rows.take p.2 := fun p hp =>
    List.take_append_of_le_length (Nat.le_of_lt (List.mem_zipIdx' hp).1)
  unfold firstRows
  rw [List.zipIdx_append, List.filter_append, List.map_append]
  congr 1
  · refine congrArg (List.map _) (List.filter_congr fun p hp => ?_)
    rw [before p hp]
  · by_cases known : Value.tupleKey row ∈ rows.map Value.tupleKey <;>
      simp [known]

/-- **First rows have the keys of all rows**, each one once, in the order in which the keys appear. -/
theorem keys_firstRows (rows : List (List Value)) :
    (firstRows rows).map Value.tupleKey = (rows.map Value.tupleKey).eraseDups := by
  induction rows using List.reverseRecOn with
  | nil => rfl
  | append_singleton rows row ih =>
    rw [firstRows_concat, List.map_append, ih, List.map_append, List.map_singleton, eraseDups_concat]
    split <;> simp

theorem mem_keys_firstRows {rows : List (List Value)} {key : String} :
    key ∈ (firstRows rows).map Value.tupleKey ↔ key ∈ rows.map Value.tupleKey := by
  rw [keys_firstRows, List.mem_eraseDups]

/-- Rows whose keys are known add no first rows. -/
theorem firstRows_append_known {rows : List (List Value)} : ∀ {others : List (List Value)},
    others.map Value.tupleKey ⊆ rows.map Value.tupleKey → firstRows (rows ++ others) = firstRows rows := by
  intro others
  induction others using List.reverseRecOn with
  | nil => intro _; rw [List.append_nil]
  | append_singleton others row ih =>
    intro known
    rw [List.map_append, List.append_subset] at known
    have last : Value.tupleKey row ∈ (rows ++ others).map Value.tupleKey := by
      rw [List.map_append]
      exact List.mem_append_left _ (known.2 (List.mem_singleton_self _))
    rw [← List.append_assoc, firstRows_concat, if_pos last, List.append_nil, ih known.1]

theorem firstRows_subset (rows : List (List Value)) : firstRows rows ⊆ rows := by
  intro row h
  obtain ⟨p, hp, rfl⟩ := List.mem_map.1 h
  exact List.fst_mem_of_mem_zipIdx (List.mem_filter.1 hp).1

namespace Evaluation

/-! ### One pass over rows -/

/-- The last row is let through if its key passes and has not been let through before. -/
theorem distinctRows_concat (keep : String → Bool) (key : String) (row : List Value) :
    ∀ (rows : List (String × List Value)) (seen : List String),
      distinctRows keep (rows ++ [(key, row)]) seen = distinctRows keep rows seen
        ++ if key ∈ seen ∨ key ∈ rows.map (·.1) ∨ keep key = false then [] else [row]
  | [], seen => by simp [distinctRows]
  | (k, first) :: r, seen => by
    have rest := distinctRows_concat keep key row r
    simp only [List.cons_append, distinctRows, rest, List.map_cons, List.mem_cons]
    by_cases skipped : seen.contains k || !keep k
    · -- What is skipped has been let through before, or does not pass.
      have same : key = k → key ∈ seen ∨ keep key = false := by
        rintro rfl
        simpa using skipped
      rw [if_pos skipped, if_pos skipped]
      exact congrArg _ (if_congr (by tauto) rfl rfl)
    · rw [if_neg skipped, if_neg skipped, List.cons_append]
      exact congrArg _ (congrArg _ (if_congr (by tauto) rfl rfl))

/-- **One pass that remembers keys leaves the first rows** that pass a test of their keys. -/
theorem distinctRows_eq (keep : String → Bool) (rows : List (List Value)) :
    distinctRows keep (rows.map fun row => (Value.tupleKey row, row)) []
      = (firstRows rows).filter fun row => keep (Value.tupleKey row) := by
  induction rows using List.reverseRecOn with
  | nil => rfl
  | append_singleton rows row ih =>
    rw [List.map_append, List.map_singleton, distinctRows_concat, ih, firstRows_concat,
      List.filter_append]
    congr 1
    have keys : (rows.map fun row => (Value.tupleKey row, row)).map (·.1) = rows.map Value.tupleKey := by
      simp [Function.comp_def]
    rw [keys]
    by_cases known : Value.tupleKey row ∈ rows.map Value.tupleKey
    · simp [known]
    · cases passes : keep (Value.tupleKey row) <;> simp [known, passes]

end Evaluation

/-! ### Data sets as sets of rows -/

namespace Dataset

/-- The keys of the rows. -/
def keys (d : Dataset) : List String := d.rows.map Value.tupleKey

/-- All rows have keys. -/
def Encodable (d : Dataset) : Prop := ∀ row ∈ d.rows, ∃ key, rowKey row = .ok key

theorem length_of_mem_rows {d : Dataset} (regular : d.Regular) {row : List Value} (h : row ∈ d.rows) :
    row.length = d.refs.length := by
  obtain ⟨i, -, rfl⟩ := List.mem_map.1 h
  rw [regular.width, Dataset.row, List.length_map]

/-- Rows that are as wide as said are the rows of the data set of them. -/
theorem rows_ofRows {refs : List ColumnId} {rows : List (List Value)}
    (width : ∀ row ∈ rows, row.length = refs.length) : (ofRows refs rows).rows = rows := by
  refine List.ext_getElem (by simp [Dataset.rows, ofRows]) fun i _ bound => ?_
  have wide := width _ (List.getElem_mem bound)
  refine List.ext_getElem (by simp [Dataset.rows, Dataset.row, ofRows, wide]) fun j _ inside => ?_
  simp [Dataset.rows, Dataset.row, ofRows, item, bound, inside]

theorem regular_ofRows (refs : List ColumnId) (rows : List (List Value)) :
    (ofRows refs rows).Regular := by
  refine ⟨by simp [ofRows], fun c hc => ?_⟩
  obtain ⟨i, -, rfl⟩ := List.mem_map.1 hc
  simp [ofRows]

end Dataset

/-- Which rows a set operation has, told by whether the left and the right side have them. -/
def SetOp.Holds : SetOp → Prop → Prop → Prop
  | .union,        left, right => left ∨ right
  | .intersection, left, right => left ∧ right
  | .difference,   left, right => left ∧ ¬right

instance (kind : SetOp) (left right : Prop) [Decidable left] [Decidable right] :
    Decidable (kind.Holds left right) :=
  match kind with
  | .union        => inferInstanceAs (Decidable (left ∨ right))
  | .intersection => inferInstanceAs (Decidable (left ∧ right))
  | .difference   => inferInstanceAs (Decidable (left ∧ ¬right))

namespace Evaluation

open Dataset

theorem keyedRows_eq {d : Dataset} (h : d.Encodable) :
    keyedRows d.rows = .ok (d.rows.map fun row => (Value.tupleKey row, row)) := by
  refine mapM_eq_map fun row hrow => ?_
  obtain ⟨key, keyed⟩ := h row hrow
  unfold rowKey at keyed ⊢
  split at keyed
  · cases keyed
  · rename_i valid
    simp [valid, bind, Except.bind, pure, Except.pure]

/-- The rows that a set operation goes through. -/
def candidates (l r : Dataset) (kind : SetOp) : List (List Value) :=
  if kind = .union then l.rows ++ r.rows else l.rows

/-- The first rows of a set operation, told by their keys. -/
def setRows (l r : Dataset) (kind : SetOp) : List (List Value) :=
  (firstRows (candidates l r kind)).filter fun row =>
    keepsRow kind (r.keys.contains (Value.tupleKey row))

/-- **A key is in a set operation as the sides that have it say.** -/
theorem mem_keys_setRows {l r : Dataset} {kind : SetOp} {key : String} :
    key ∈ (setRows l r kind).map Value.tupleKey ↔ kind.Holds (key ∈ l.keys) (key ∈ r.keys) := by
  have passes : key ∈ (setRows l r kind).map Value.tupleKey
      ↔ key ∈ (candidates l r kind).map Value.tupleKey ∧ keepsRow kind (r.keys.contains key) = true := by
    have tested : (setRows l r kind).map Value.tupleKey
        = ((firstRows (candidates l r kind)).map Value.tupleKey).filter
          fun key => keepsRow kind (r.keys.contains key) := by
      rw [List.filter_map]
      rfl
    rw [tested, List.mem_filter, mem_keys_firstRows]
  rw [passes]
  cases kind <;> simp [candidates, keepsRow, SetOp.Holds, Dataset.keys]

theorem nodup_setRows (l r : Dataset) (kind : SetOp) :
    ((setRows l r kind).map Value.tupleKey).Nodup := by
  refine List.Nodup.sublist (List.filter_sublist.map _) ?_
  rw [keys_firstRows]
  exact nodup_eraseDups _

/-- The rows of a set operation are rows of its sides. -/
theorem mem_rows_of_setRows {l r : Dataset} {kind : SetOp} {row : List Value}
    (h : row ∈ setRows l r kind) : row ∈ l.rows ∨ row ∈ r.rows := by
  have candidate := firstRows_subset _ (List.mem_filter.1 h).1
  unfold candidates at candidate
  split at candidate
  · exact List.mem_append.1 candidate
  · exact .inl candidate

/-- What is on the left and not among what is on the left alone is on both sides. -/
theorem setRows_difference {l r d : Dataset} (keys : d.keys = (setRows l r .difference).map Value.tupleKey) :
    setRows l d .difference = setRows l r .intersection := by
  refine List.filter_congr fun row hrow => ?_
  have there : Value.tupleKey row ∈ l.keys := List.mem_map_of_mem (firstRows_subset _ hrow)
  have alone : Value.tupleKey row ∈ d.keys ↔ Value.tupleKey row ∉ r.keys := by
    rw [keys, mem_keys_setRows]
    exact and_iff_right there
  simp [keepsRow, alone]

/-- The union and the intersection of data with itself are its first rows. -/
theorem setRows_self (l : Dataset) : setRows l l .union = firstRows l.rows ∧
    setRows l l .intersection = firstRows l.rows := by
  have twice : firstRows (l.rows ++ l.rows) = firstRows l.rows :=
    firstRows_append_known (List.Subset.refl _)
  refine ⟨?_, List.filter_eq_self.2 fun row hrow => ?_⟩
  · simp [setRows, candidates, keepsRow, twice]
  · have there : Value.tupleKey row ∈ l.keys := List.mem_map_of_mem (firstRows_subset _ hrow)
    simpa [keepsRow] using there

section

variable {left right : SourcePlan} {catalog : Catalog} {l r : Dataset}

/-- **A set operation has the first rows of all that it goes through**, as far as their keys pass. -/
theorem set_eq (hl : left catalog = .ok l) (hr : right catalog = .ok r) (encodable : l.Encodable)
    (encodable' : r.Encodable) (kind : SetOp) :
    SourcePlan.set left right kind catalog = .ok (.ofRows l.refs (setRows l r kind)) := by
  have rows : (if kind = .union then l.rows.map (fun row => (Value.tupleKey row, row))
        ++ r.rows.map (fun row => (Value.tupleKey row, row))
      else l.rows.map fun row => (Value.tupleKey row, row))
      = (candidates l r kind).map fun row => (Value.tupleKey row, row) := by
    unfold candidates
    split
    · rw [List.map_append]
    · rfl
  have keys : (r.rows.map fun row => (Value.tupleKey row, row)).map (·.1) = r.keys := by
    simp [Dataset.keys, Function.comp_def]
  simp only [SourcePlan.set, combineRows, hl, hr, keyedRows_eq encodable, keyedRows_eq encodable',
    bind, Except.bind, rows, keys, distinctRows_eq]
  rfl

/-- **Set operations are those of sets.** On two data sets with the same number of columns, whose rows
have keys, a set operation has the columns of the left one, and each key once: the first rows of all that
it goes through, which are those of both sides for a union and those of the left side otherwise. Which
keys it has is told by whether the sides have them. So what is on both sides is what is on the left but
not on the left alone, and the union and the intersection of data with itself are its first rows. -/
theorem set_rows (hl : left catalog = .ok l) (hr : right catalog = .ok r) (regular : l.Regular)
    (regular' : r.Regular) (width : l.refs.length = r.refs.length) (encodable : l.Encodable)
    (encodable' : r.Encodable) :
    (∀ kind, ∃ d, SourcePlan.set left right kind catalog = .ok d ∧ d.refs = l.refs ∧ d.Regular ∧
      d.keys.Nodup ∧ d.rows.Sublist (firstRows (candidates l r kind)) ∧
      ∀ key, key ∈ d.keys ↔ kind.Holds (key ∈ l.keys) (key ∈ r.keys)) ∧
    SourcePlan.set left (SourcePlan.set left right .difference) .difference catalog
      = SourcePlan.set left right .intersection catalog ∧
    ∀ kind, kind ≠ .difference → ∃ d, SourcePlan.set left left kind catalog = .ok d ∧
      d.refs = l.refs ∧ d.rows = firstRows l.rows := by
  have wide : ∀ {e : Dataset}, e.Regular → e.refs.length = l.refs.length → ∀ {kind row},
      row ∈ setRows l e kind → row.length = l.refs.length := fun regular'' same kind row h =>
    (mem_rows_of_setRows h).elim (length_of_mem_rows regular)
      fun h => (length_of_mem_rows regular'' h).trans same
  have rows : ∀ kind, (ofRows l.refs (setRows l r kind)).rows = setRows l r kind := fun kind =>
    rows_ofRows fun row h => wide regular' width.symm h
  have whole := set_eq hl hr encodable encodable'
  refine ⟨fun kind => ⟨_, whole kind, rfl, regular_ofRows _ _, ?_, ?_, fun key => ?_⟩, ?_,
    fun kind same => ⟨_, set_eq hl hl encodable encodable kind, rfl, ?_⟩⟩
  · rw [keys, rows]
    exact nodup_setRows l r kind
  · rw [rows]
    exact List.filter_sublist
  · rw [keys, rows, mem_keys_setRows]
  · have alone : Encodable (ofRows l.refs (setRows l r .difference)) := by
      intro row h
      rw [rows] at h
      exact (mem_rows_of_setRows h).elim (encodable row) (encodable' row)
    rw [set_eq hl (whole .difference) encodable alone, setRows_difference (congrArg _ (rows _)),
      ← whole]
  · have first : setRows l l kind = firstRows l.rows := by
      cases kind with
      | union => exact (setRows_self l).1
      | intersection => exact (setRows_self l).2
      | difference => exact absurd rfl same
    rw [rows_ofRows fun row h => wide regular rfl h, first]

end

/-- Rows with repetitions on both sides and an empty value that both have. -/
theorem set_rows_overlap :
    let l : Dataset := ⟨[⟨"a", none⟩], [[.text "x", .null, .text "x", .bool true]], 4⟩
    let r : Dataset := ⟨[⟨"b", none⟩], [[.null, .text "y", .null]], 3⟩
    l.Regular ∧ r.Regular ∧ l.Encodable ∧ r.Encodable ∧
      ∃ d, SourcePlan.set (.ofData l) (.ofData r) .difference [] = .ok d ∧ d.keys.Nodup ∧
        Value.tupleKey [.text "x"] ∈ d.keys ∧ Value.tupleKey [.null] ∉ d.keys ∧
        SourcePlan.set (.ofData l) (.set (.ofData l) (.ofData r) .difference) .difference []
          = SourcePlan.set (.ofData l) (.ofData r) .intersection [] := by
  intro l r
  have regular : l.Regular := ⟨rfl, by simp [l]⟩
  have regular' : r.Regular := ⟨rfl, by simp [r]⟩
  have encodable : l.Encodable := by
    simp [l, Dataset.Encodable, Dataset.rows, Dataset.row, item, rowKey, Value.hasInvalidDate, List.range_succ]
  have encodable' : r.Encodable := by
    simp [r, Dataset.Encodable, Dataset.rows, Dataset.row, item, rowKey, Value.hasInvalidDate, List.range_succ]
  have hl : SourcePlan.ofData l [] = .ok l := rfl
  have hr : SourcePlan.ofData r [] = .ok r := rfl
  obtain ⟨sets, twice, -⟩ := set_rows hl hr regular regular' rfl encodable encodable'
  obtain ⟨d, evaluated, -, -, once, -, has⟩ := sets .difference
  exact ⟨regular, regular', encodable, encodable', d, evaluated, once, (has _).2 (by decide +kernel),
    fun h => absurd ((has _).1 h) (by decide +kernel), twice⟩

end Evaluation
end QueryAlgebra
