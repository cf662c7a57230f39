import QueryAlgebra.Proofs.Evaluation.Sets
import QueryAlgebra.Proofs.Value.Content

/-!
# Rows that are the same

Groups, partitions and sets of rows are made by keys of rows. As keys tell what rows hold, one can say
which rows meet in a group or are one member of a set without a word about keys.

* `SameRow`: rows of the same values at all positions.
* `rowKey_eq_iff`: rows have one key exactly if they are the same.
* `groupRows_same`: two rows are in one group exactly if they are the same in the key columns.
* `set_same`: a set operation has no row twice, and has the rows that the sides have it say.
* `rows_told_by_content`: all of that together.
-/

namespace QueryAlgebra

open Evaluation

/-- The rows have the same length, and alike values at each position. -/
def SameRow (vs ws : List Value) : Prop := List.Forall₂ Value.Alike vs ws

instance (vs ws : List Value) : Decidable (SameRow vs ws) := decidable_of_iff _ Value.tupleKey_eq_iff

/-- No date in the row is an invalid one. -/
def DatesValid (vs : List Value) : Prop := ∀ v ∈ vs, v.hasInvalidDate = false

instance (vs : List Value) : Decidable (DatesValid vs) :=
  inferInstanceAs (Decidable (∀ v ∈ vs, v.hasInvalidDate = false))

theorem rowKey_of_valid {vs : List Value} (valid : DatesValid vs) : rowKey vs = .ok (Value.tupleKey vs) := by
  unfold rowKey
  rw [if_neg]
  intro some_invalid
  obtain ⟨v, hv, invalid⟩ := List.any_eq_true.1 some_invalid
  rw [valid v hv] at invalid
  cases invalid

/-- **Rows have one key exactly if they are the same.** -/
theorem rowKey_eq_iff {vs ws : List Value} (valid : DatesValid vs) (valid' : DatesValid ws) :
    ∃ s t, rowKey vs = .ok s ∧ rowKey ws = .ok t ∧ (s = t ↔ SameRow vs ws) :=
  ⟨_, _, rowKey_of_valid valid, rowKey_of_valid valid', Value.tupleKey_eq_iff⟩

namespace Evaluation

/-! ### Groups -/

/-- What a row has in some columns. -/
def rowAt (columns : List (List Value)) (i : Nat) : List Value := columns.map fun c => Dataset.item c i

/-- Two positions meet in a group exactly if they have one key. -/
theorem mem_keyGroups_iff {keys : List String} {i j : Nat} (hi : i < keys.length) :
    (∃ g ∈ keyGroups keys, i ∈ g ∧ j ∈ g) ↔ keys[i]? = keys[j]? := by
  constructor
  · rintro ⟨g, hg, first, second⟩
    obtain ⟨key, rows⟩ := key_of_keyGroups hg
    rw [rows i first, rows j second]
  · intro same
    have known : keys[i]? = some keys[i] := List.getElem?_eq_getElem hi
    have appears : keys[i] ∈ keys.eraseDups := List.mem_eraseDups.2 (List.getElem_mem hi)
    exact ⟨_, List.mem_map_of_mem appears, mem_positionsOf.2 known,
      mem_positionsOf.2 (same.symm.trans known)⟩

/-- **Two rows are in one group exactly if they are the same in the key columns.** Each row is in one
group. -/
theorem groupRows_same {count : Nat} {columns : List (List Value)}
    (valid : ∀ i < count, DatesValid (rowAt columns i)) :
    ∃ groups, groupRows count columns = .ok groups ∧ groups.flatten.Perm (List.range count) ∧
      ∀ i < count, ∀ j < count,
        (∃ g ∈ groups, i ∈ g ∧ j ∈ g) ↔ SameRow (rowAt columns i) (rowAt columns j) := by
  let keys := (List.range count).map fun i => Value.tupleKey (rowAt columns i)
  have keyed : (List.range count).mapM (keyAt columns) = .ok keys :=
    mapM_eq_map fun i hi => rowKey_of_valid (valid i (List.mem_range.1 hi))
  have grouped : groupRows count columns = .ok (keyGroups keys) := by
    rw [groupRows_eq, keyed]
    rfl
  have keyAt : ∀ i < count, keys[i]? = some (Value.tupleKey (rowAt columns i)) := fun i hi => by
    simp [keys, hi]
  refine ⟨_, grouped, groupRows_perm grouped, fun i hi j hj => ?_⟩
  rw [mem_keyGroups_iff (by simpa [keys] using hi), keyAt i hi, keyAt j hj, Option.some.injEq]
  exact Value.tupleKey_eq_iff

/-! ### Sets -/

/-- Among the rows there is the same one. -/
def HasRow (rows : List (List Value)) (row : List Value) : Prop := ∃ other ∈ rows, SameRow other row

instance (rows : List (List Value)) (row : List Value) : Decidable (HasRow rows row) :=
  inferInstanceAs (Decidable (∃ other ∈ rows, SameRow other row))

theorem key_mem_iff {rows : List (List Value)} {row : List Value} :
    Value.tupleKey row ∈ rows.map Value.tupleKey ↔ HasRow rows row := by
  constructor
  · intro h
    obtain ⟨other, there, key⟩ := List.mem_map.1 h
    exact ⟨other, there, Value.tupleKey_eq_iff.1 key⟩
  · rintro ⟨other, there, same⟩
    exact List.mem_map.2 ⟨other, there, Value.tupleKey_eq_iff.2 same⟩

/-- **A set operation has no row twice**, no other rows than its sides, and which of them it has is told
by the sides that have the same row. -/
theorem set_same {left right : SourcePlan} {catalog : Catalog} {l r : Dataset}
    (hl : left catalog = .ok l) (hr : right catalog = .ok r) (regular : l.Regular) (regular' : r.Regular)
    (width : l.refs.length = r.refs.length) (valid : ∀ row ∈ l.rows, DatesValid row)
    (valid' : ∀ row ∈ r.rows, DatesValid row) (kind : SetOp) :
    ∃ d, SourcePlan.set left right kind catalog = .ok d ∧
      (∀ row ∈ d.rows, row ∈ l.rows ∨ row ∈ r.rows) ∧
      d.rows.Pairwise (fun row other => ¬SameRow row other) ∧
      ∀ row, HasRow d.rows row ↔ kind.Holds (HasRow l.rows row) (HasRow r.rows row) := by
  have whole := set_eq hl hr (fun row h => ⟨_, rowKey_of_valid (valid row h)⟩)
    (fun row h => ⟨_, rowKey_of_valid (valid' row h)⟩) kind
  have rows : (Dataset.ofRows l.refs (setRows l r kind)).rows = setRows l r kind :=
    Dataset.rows_ofRows fun row h => (mem_rows_of_setRows h).elim (Dataset.length_of_mem_rows regular)
      fun h => (Dataset.length_of_mem_rows regular' h).trans width.symm
  refine ⟨_, whole, ?_⟩
  rw [rows]
  refine ⟨fun row => mem_rows_of_setRows, ?_, fun row => ?_⟩
  · exact (List.pairwise_map.1 (nodup_setRows l r kind)).imp fun distinct same =>
      distinct (Value.tupleKey_eq_iff.2 same)
  · rw [← key_mem_iff, mem_keys_setRows, Dataset.keys, Dataset.keys, key_mem_iff, key_mem_iff]

/-- **Rows are told apart by what they hold.** The keys of two rows, of any lengths, are one text exactly
if the rows have one length and alike values at each position. So rows are in one group, or in one
partition, exactly if they are the same in the key columns, and a set operation has each row once and
exactly the rows that its sides have it say. -/
theorem rows_told_by_content :
    (∀ {vs ws : List Value}, DatesValid vs → DatesValid ws →
      ∃ s t, rowKey vs = .ok s ∧ rowKey ws = .ok t ∧ (s = t ↔ SameRow vs ws)) ∧
    (∀ {count : Nat} {columns : List (List Value)}, (∀ i < count, DatesValid (rowAt columns i)) →
      ∃ groups, groupRows count columns = .ok groups ∧ groups.flatten.Perm (List.range count) ∧
        ∀ i < count, ∀ j < count,
          (∃ g ∈ groups, i ∈ g ∧ j ∈ g) ↔ SameRow (rowAt columns i) (rowAt columns j)) ∧
    ∀ {left right : SourcePlan} {catalog : Catalog} {l r : Dataset}, left catalog = .ok l →
      right catalog = .ok r → l.Regular → r.Regular → l.refs.length = r.refs.length →
      (∀ row ∈ l.rows, DatesValid row) → (∀ row ∈ r.rows, DatesValid row) → ∀ kind,
        ∃ d, SourcePlan.set left right kind catalog = .ok d ∧
          (∀ row ∈ d.rows, row ∈ l.rows ∨ row ∈ r.rows) ∧
          d.rows.Pairwise (fun row other => ¬SameRow row other) ∧
          ∀ row, HasRow d.rows row ↔ kind.Holds (HasRow l.rows row) (HasRow r.rows row) :=
  ⟨rowKey_eq_iff, groupRows_same, set_same⟩

/-- A text that holds the mark between the items of a row, the two zeros, and a text that looks like the
empty value. -/
theorem rows_told_by_content_marks :
    let zeros : List Value := [.number (.ofNat 0), .text "null", .number (Number.ofNat 0).neg, .null]
    let l : Dataset := ⟨[⟨"a", none⟩], [zeros], 4⟩
    let r : Dataset := ⟨[⟨"b", none⟩], [[.null]], 1⟩
    (∃ s t, rowKey [.text "a", .text "b"] = .ok s ∧ rowKey [.text "a|b"] = .ok t ∧ s ≠ t) ∧
    (∃ groups, groupRows 4 [zeros] = .ok groups ∧ (∃ g ∈ groups, 0 ∈ g ∧ 2 ∈ g) ∧
      ¬∃ g ∈ groups, 1 ∈ g ∧ 3 ∈ g) ∧
    ∃ d, SourcePlan.set (.ofData l) (.ofData r) .difference [] = .ok d ∧
      HasRow d.rows [.text "null"] ∧ ¬HasRow d.rows [.null] := by
  intro zeros l r
  have regular : l.Regular := ⟨rfl, by simp [l, zeros]⟩
  have regular' : r.Regular := ⟨rfl, by simp [r]⟩
  obtain ⟨keys, groups, sets⟩ := rows_told_by_content
  obtain ⟨s, t, hs, ht, same⟩ := @keys [.text "a", .text "b"] [.text "a|b"] (by decide) (by decide)
  obtain ⟨gs, grouped, -, meet⟩ := @groups 4 [zeros] (by decide +kernel)
  obtain ⟨d, evaluated, -, -, has⟩ := @sets (.ofData l) (.ofData r) [] l r rfl rfl
    regular regular' rfl (by decide +kernel) (by decide +kernel) .difference
  refine ⟨⟨s, t, hs, ht, fun h => ?_⟩, ⟨gs, grouped, ?_, ?_⟩, d, evaluated, ?_, ?_⟩
  · exact absurd (same.1 h) (by decide +kernel)
  · exact (meet 0 (by decide) 2 (by decide)).2 (by decide +kernel)
  · exact fun h => absurd ((meet 1 (by decide) 3 (by decide)).1 h) (by decide +kernel)
  · exact (has _).2 (by decide +kernel)
  · exact fun h => absurd ((has _).1 h) (by decide +kernel)

end Evaluation
end QueryAlgebra
