import QueryAlgebra.Proofs.Evaluation.Composition
import QueryAlgebra.Proofs.Evaluation.Joins
import QueryAlgebra.Proofs.Tree.Elements

/-!
# Features row by row

A feature without aggregates and windows is evaluated column by column, and yet each of its values
depends on one row alone.

* `Feature.valueAt`: the value of such a feature for one row, in which its elements are read.
* `Feature.valueAt_congr`: it depends on what the elements inside the feature are read as.
* `Tabulates`: a column that holds what is computed row by row.
* `Supplies`: data holds what is read for the elements of a feature.
* `values_tabulate`: the plan of a feature gives the column of its values.
-/

namespace QueryAlgebra

open Evaluation

namespace Feature

/-! ### The value of a row -/

mutual

/-- The value of a feature without aggregates and windows for one row, in which an element of an origin
and a name is read. -/
def valueAt (read : Source → String → Value) : Feature → Except Fault Value
  | .aliased f _          => f.valueAt read
  | .literal v _          => .ok v
  | .element s n _        => .ok (read s n)
  | .expression op args t => do
    applyOperator op (← valuesAt read args) (Feature.expression op args t).kind
  | .window ..            => .error .windowOverGroups

def valuesAt (read : Source → String → Value) : List Feature → Except Fault (List Value)
  | []     => .ok []
  | f :: r => do return (← f.valueAt read) :: (← valuesAt read r)

end

section

variable {read read' : Source → String → Value}

mutual

/-- **The value of a feature depends on what the elements inside it are read as.** -/
theorem valueAt_congr : ∀ f : Feature,
    (∀ s n k, Feature.element s n k ∈ f.elements → read s n = read' s n) →
      f.valueAt read = f.valueAt read'
  | .aliased f _, h => valueAt_congr f h
  | .literal _ _, _ => rfl
  | .element s n k, h => congrArg Except.ok (h s n k (List.mem_singleton_self _))
  | .expression op args t, h => by simp only [valueAt, valuesAt_congr args h]
  | .window .., _ => rfl

theorem valuesAt_congr : ∀ fs : List Feature,
    (∀ s n k, Feature.element s n k ∈ elementsOf fs → read s n = read' s n) →
      valuesAt read fs = valuesAt read' fs
  | [], _ => rfl
  | f :: r, h => by
    have first := valueAt_congr f fun s n k hk => h s n k (List.mem_append_left _ hk)
    have rest := valuesAt_congr r fun s n k hk => h s n k (List.mem_append_right _ hk)
    simp only [valuesAt, first, rest]

end

end

end Feature

namespace Evaluation

open Translation Dataset

/-! ### Columns of values -/

/-- A column that holds, row by row, what is computed for the row. -/
structure Tabulates (n : Nat) (compute : Nat → Except Fault Value) (column : List Value) : Prop where
  length : column.length = n
  item   : ∀ i < n, compute i = .ok (item column i)

theorem Tabulates.of_mapM {n : Nat} {compute : Nat → Except Fault Value} {column : List Value}
    (h : (List.range n).mapM compute = .ok column) : Tabulates n compute column := by
  have rows := mapM_eq_ok h
  have length : column.length = n := by rw [← rows.length_eq, List.length_range]
  refine ⟨length, fun i inside => ?_⟩
  have row := rows.get (i := i) (by simpa using inside) (length ▸ inside)
  simpa [Dataset.item, length, inside] using row

/-- The data holds what is read, row by row, for the elements of a feature, and for all elements with
their keys. -/
def Supplies (d : Dataset) (read : Nat → Source → String → Value) (f : Feature) : Prop :=
  ∀ s n k, Feature.element s n k ∈ f.elements → ∀ u : Source, u.canonical = s.canonical →
    ∀ column, d.column n (some u.label) = .ok column →
      Tabulates d.length (fun i => .ok (read i s n)) column

/-- A literal is told by its key: of zero only one of the signs is used. -/
def ToldLiteral (literals : String → Value) (v : Value) (k : Kind) : Prop :=
  v = literals (Feature.literal v k).key

theorem ToldLiteral.eq {literals : String → Value} {v w : Value} {k : Kind}
    (hv : ToldLiteral literals v k) (hw : ToldLiteral literals w k)
    (same : w.canonical = v.canonical) : w = v := by
  have key : (Feature.literal w k).key = (Feature.literal v k).key := by
    rw [← Feature.key_canonical, ← (Feature.literal v k).key_canonical]
    simp only [Feature.canonical, same]
  rw [hw, key, ← hv]

section

variable {sources : KeyedMap Source SourcePlan} {kinds : String → Kind} {literals : String → Value}
  {m : List (String × FeaturePlan)} {d : Dataset} {read : Nat → Source → String → Value}

/-- The arguments of a row are the items of their columns there. -/
theorem valuesAt_of_columns {args : List Feature} {xs : List FeaturePlan} (hxs : Remembered m args xs)
    (ih : ∀ f ∈ args, ∀ x, Remembers m f.key x → ∀ column, x.values (.ofData d) = .ok column →
      Tabulates d.length (fun i => f.valueAt (read i)) column) :
    ∀ {columns : List (List Value)}, xs.mapM (fun x => x.values (.ofData d)) = .ok columns →
      ∀ i < d.length, Feature.valuesAt (read i) args = .ok (columns.map fun c => item c i) := by
  intro columns evaluated i inside
  replace evaluated := mapM_eq_ok evaluated
  unfold Remembered at hxs
  induction hxs generalizing columns with
  | nil =>
    cases evaluated
    rfl
  | cons hx _ rest =>
    cases evaluated with
    | cons hc evaluated =>
      have first := (ih _ (by simp) _ hx _ hc).item i inside
      have others := rest (fun f hf => ih f (by simp [hf])) evaluated
      simp only [Feature.valuesAt, first, others]
      rfl

/-- **The plan of a feature without aggregates and windows gives the column of its values**, row by
row. -/
theorem values_tabulate (hm : Rooted (backend sources .empty) (.plain kinds (ToldLiteral literals)) m) :
    ∀ f : Feature, f.Obeys (.plain kinds (ToldLiteral literals)) →
      (f.Throughout fun g => g.isCollective = false) → Supplies d read f →
      ∀ x, Made (ToldLiteral literals) m f x → ∀ column, x.values (.ofData d) = .ok column →
        Tabulates d.length (fun i => f.valueAt (read i)) column := by
  refine Feature.childInduction fun f ih hf rowWise supplied x made column evaluated => ?_
  -- What is remembered for a part gives the column of the values of that part.
  have part : ∀ c ∈ f.children, ∀ y, Remembers m c.key y → ∀ column,
      y.values (.ofData d) = .ok column →
        Tabulates d.length (fun i => c.valueAt (read i)) column := by
    intro c hc y hy
    refine ih c hc (hf.children c hc) (rowWise.parts c hc) ?_ y
      (made_of_remembered hm (hf.children c hc) hy)
    exact fun s n k hk => supplied s n k (Feature.elements_of_child hc hk)
  cases made with
  | @aliased f n y hy => exact part f (by simp [Feature.children]) y hy column evaluated
  | @literal v w k same sort =>
    obtain rfl := hf.2.eq sort same
    obtain rfl := Except.ok.inj evaluated
    refine ⟨List.length_replicate, fun i inside => ?_⟩
    have inside : i < (Batch.ofData d).size := inside
    simp [Feature.valueAt, item, inside]
  | @element s u n k same =>
    have found : d.column n (some u.label) = .ok column := by
      simpa [FeaturePlan.element, Batch.ofData] using evaluated
    exact supplied s n k (by simp [Feature.elements]) u same column found
  | @expression op args t xs hxs =>
    have single : op.aggregates = false := by
      simpa [Feature.isCollective, Feature.isWindow, Feature.aggregates] using rowWise.own
    simp only [FeaturePlan.expression, single, Bool.false_eq_true, if_false] at evaluated
    obtain ⟨columns, arguments, rows⟩ := bind_eq_ok.1 evaluated
    have rows : Tabulates d.length _ column := .of_mapM rows
    have arguments := valuesAt_of_columns hxs part arguments
    refine ⟨rows.length, fun i inside => ?_⟩
    simp only [Feature.valueAt, arguments i inside]
    exact rows.item i inside
  | window => exact absurd rowWise.own (by simp [Feature.isCollective, Feature.isWindow])

end

end Evaluation

end QueryAlgebra
