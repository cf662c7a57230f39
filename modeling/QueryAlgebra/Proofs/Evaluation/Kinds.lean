import Mathlib.Data.List.GetD
import QueryAlgebra.Proofs.Evaluation.Arrangement
import QueryAlgebra.Proofs.Evaluation.Composition
import QueryAlgebra.Proofs.Evaluation.Joins
import QueryAlgebra.Proofs.Evaluation.Results
import QueryAlgebra.Proofs.Tree.Elements

/-!
# The kinds of values

A feature has values of its kind, if the columns that it reads have values of theirs. The kind is known
before anything is evaluated, so that each operator has to give what was inferred for it.

* `Feature.valueKind`: the kind of the values of a feature, which is its own kind unless fractions come
  through to integers.
* `Feature.IsTight`, `Feature.valueKind_of_tight`: where no fraction comes through.
* `Feature.isNested`: least and greatest values of aggregates, which find no value for most rows.
* `Batch.Regular`, `Natural`: batches of rows that are there, data with natural values.
* `Kinded`: a column of values of the kind of a feature.
* `values_kinded`: the plan of a feature gives such columns.
* `values_of_kind`: so do the plans that are compiled, one feature after the other.
-/

namespace QueryAlgebra

open Evaluation

namespace Feature

mutual

/-- The kind of the values of a feature. It is the kind of the feature, but for numbers that need not
be whole though their kind is Integer. -/
def valueKind : Feature → Kind
  | .aliased f _          => f.valueKind
  | .literal _ k          => k
  | .element _ _ k        => k
  | .expression op args t => op.valueKind (valueKinds args) (Feature.expression op args t).kind
  | .window fn _ _ _      => fn.valueKind

def valueKinds : List Feature → List Kind
  | []     => []
  | f :: r => f.valueKind :: valueKinds r

end

/-- The values of a feature are numbers exactly if its kind is one of numbers. -/
theorem isNumeric_valueKind (f : Feature) : f.valueKind.isNumeric = f.kind.isNumeric := by
  cases f with
  | aliased f n => exact isNumeric_valueKind f
  | literal v k => rfl
  | element s n k => rfl
  | expression op args t => exact op.isNumeric_valueKind _ _
  | window fn ps os fr => exact isNumeric_valueKind fn

/-- **Only of features of kind Integer the values may be of another kind.** -/
theorem valueKind_eq : ∀ f : Feature, f.kind.isInteger = false → f.valueKind = f.kind
  | .aliased f _, h => valueKind_eq f h
  | .literal _ _, _ => rfl
  | .element _ _ _, _ => rfl
  | .expression op args t, h => by
    have same : (Feature.expression op args t).kind.loosened = (Feature.expression op args t).kind := by
      rw [Kind.loosened, h]
      rfl
    unfold valueKind Operator.valueKind
    split
    · exact same
    · rfl
  | .window fn _ _ _, h => valueKind_eq fn h

/-- No fraction comes through to the feature itself: if its kind is Integer it is no average, and what
it is computed from is of kind Integer where a fraction would come through. -/
def IsTight : Feature → Prop
  | .expression op args t => (Feature.expression op args t).kind.isInteger = true → op ≠ .avg ∧
      (op.carries = true → ∀ a ∈ args, a.kind.isInteger = true)
  | _                     => True

theorem valueKinds_eq_map (fs : List Feature) : valueKinds fs = fs.map valueKind := by
  induction fs with
  | nil => rfl
  | cons f r ih => simp [valueKinds, ih]

/-- **Where no fraction comes through anywhere, the values are of the very kind of the feature.** -/
theorem valueKind_of_tight : ∀ f : Feature, f.Throughout IsTight → f.valueKind = f.kind := by
  refine childInduction fun f ih tight => ?_
  cases f with
  | aliased f n => exact ih f (by simp [children]) (tight.parts f (by simp [children]))
  | literal v k => rfl
  | element s n k => rfl
  | expression op args t =>
    -- What the arguments have as kinds of values are their own kinds, by induction.
    cases integer : (Feature.expression op args t).kind.isInteger with
    | false => exact valueKind_eq _ integer
    | true =>
      obtain ⟨mean, whole⟩ := tight.own integer
      refine op.valueKind_of_whole mean fun carries => ?_
      rw [valueKinds_eq_map]
      refine List.forall_mem_map.2 fun a ha => ?_
      rw [ih a ha (tight.parts a ha)]
      exact whole carries a ha
  | window fn ps os fr => exact ih fn (by simp [children]) (tight.parts fn (by simp [children]))

/-- Whether the feature is the least or the greatest value of an aggregate. The column of an aggregate
is shorter than the rows that are searched for it. -/
def isNested : Feature → Bool
  | .expression .min args _ => anyAggregate args
  | .expression .max args _ => anyAggregate args
  | _                       => false

end Feature

namespace Evaluation

open Translation Dataset

/-! ### Batches -/

/-- The data of the batch is regular, and the rows of its groups are rows of the data. -/
structure Batch.Regular (b : Batch) : Prop where
  data   : b.data.Regular
  groups : ∀ gs ∈ b.groups, ∀ g ∈ gs, ∀ i ∈ g, i < b.data.length

theorem Batch.Regular.ofData {d : Dataset} (h : d.Regular) : (Batch.ofData d).Regular := ⟨h, nofun⟩

/-- The columns of the elements inside a feature, and of all elements with their keys, have values that
are empty or natural ones of the kinds of the elements. -/
def Natural (d : Dataset) (f : Feature) : Prop :=
  ∀ s n k, Feature.element s n k ∈ f.elements → ∀ u : Source, u.canonical = s.canonical →
    ∀ column, d.column n (some u.label) = .ok column → ∀ v ∈ column, k.Covers v

theorem Natural.child {d : Dataset} {f c : Feature} (h : Natural d f) (hc : c ∈ f.children) :
    Natural d c := fun s n k hk => h s n k (Feature.elements_of_child hc hk)

/-- A column of values of the kind of a feature: one for each group, or for each row unless the feature
aggregates the rows. -/
structure Kinded (b : Batch) (f : Feature) (vs : List Value) : Prop where
  length : b.groups.isSome = true ∨ f.hasAggregate = false → vs.length = b.size
  covers : ∀ v ∈ vs, f.valueKind.Covers v

/-! ### Windows -/

/-- A window does not aggregate. -/
theorem window_eq_ok {fn : FeaturePlan} {frame : Option Frame} {partition : List FeaturePlan}
    {ordering : List (OrderSymbol FeaturePlan)} {z : FeaturePlan}
    (h : FeaturePlan.window fn partition ordering frame = .ok z) :
    z = ⟨FeaturePlan.windowValues fn partition ordering frame, false, none⟩ := by
  unfold FeaturePlan.window at h
  split at h
  · split at h
    · exact (Except.ok.inj h).symm
    · cases h
  · exact (Except.ok.inj h).symm

theorem window_values {fn : FeaturePlan} {frame : Option Frame} {partition : List FeaturePlan}
    {ordering : List (OrderSymbol FeaturePlan)} {z : FeaturePlan}
    (h : FeaturePlan.window fn partition ordering frame = .ok z) :
    z.values = FeaturePlan.windowValues fn partition ordering frame := by
  rw [window_eq_ok h]

section

variable {fn : FeaturePlan} {d : Dataset} {frame : Option Frame} {P : Value → Prop}
  (each : ∀ rows : List Nat, (∀ i ∈ rows, i < d.length) → ∀ vs,
    fn.values ⟨d, some [rows]⟩ = .ok vs → P (item vs 0))
include each

/-- What holds of the values for all frames holds of the values of a partition. -/
theorem partitionValues_forall {keys : List SortKey} {members : List Nat}
    (inside : ∀ i ∈ members, i < d.length) {pairs : List (Nat × Value)}
    (h : FeaturePlan.partitionValues fn keys frame d members = .ok pairs) :
    ∀ p ∈ pairs, P p.2 := by
  obtain ⟨sorted, arranged, h⟩ := bind_eq_ok.1 h
  refine forall_right_of_forall₂ (fun p q hq => ?_) (mapM_eq_ok h)
  obtain ⟨rows, framed, hq⟩ := bind_eq_ok.1 hq
  obtain ⟨vs, evaluated, hq⟩ := bind_eq_ok.1 hq
  obtain rfl := pure_eq_ok.1 hq
  exact each rows (fun i hi => inside i ((arrange_perm arranged).subset (frameAt_subset framed hi)))
    vs evaluated

/-- A window has no values for groups. For rows it has a value each, of which the same holds as for
all frames. -/
theorem windowValues_forall (empty : P .null) {partition : List FeaturePlan}
    {ordering : List (OrderSymbol FeaturePlan)} {groups : Option (List (List Nat))} {vs : List Value}
    (h : FeaturePlan.windowValues fn partition ordering frame ⟨d, groups⟩ = .ok vs) :
    groups = none ∧ vs.length = d.length ∧ ∀ v ∈ vs, P v := by
  unfold FeaturePlan.windowValues at h
  cases groups with
  | some gs => exact absurd h throw_ne_ok
  | none =>
    obtain ⟨keys, -, h⟩ := bind_eq_ok.1 h
    obtain ⟨columns, -, h⟩ := bind_eq_ok.1 h
    obtain ⟨partitions, grouped, h⟩ := bind_eq_ok.1 h
    obtain ⟨values, evaluated, h⟩ := bind_eq_ok.1 h
    obtain rfl := pure_eq_ok.1 h
    refine ⟨rfl, by simp, ?_⟩
    -- Values are looked up by row in those of all partitions; a row in none of them has none.
    have all : ∀ pairs ∈ values, ∀ p ∈ pairs, P p.2 :=
      forall_of_forall₂ (fun members pairs partition inside =>
        partitionValues_forall each inside partition) (mapM_eq_ok evaluated) (groupRows_bounds grouped)
    have found : ∀ (i : Nat) (v : Value), Assoc.find? (i == ·) (values.flatMap id) = some v → P v := by
      intro i v hv
      obtain ⟨k, -, hk⟩ := Assoc.mem_of_find? hv
      obtain ⟨pairs, hpairs, hp⟩ := List.mem_flatMap.1 hk
      exact all pairs hpairs (k, v) hp
    intro v hv
    obtain ⟨i, -, rfl⟩ := List.mem_map.1 hv
    cases hi : Assoc.find? (i == ·) (values.flatMap id) with
    | none => exact empty
    | some w => exact found i w hi

end

/-! ### Expressions -/

section

variable {sources : KeyedMap Source SourcePlan} {kinds : String → Kind}
  {m : List (String × FeaturePlan)} {b : Batch}

/-- An item of a column of values fits their kind, even if the column is too short. -/
theorem fits_item {l : Kind} {column : List Value} (covers : ∀ v ∈ column, l.Covers v) (i : Nat) :
    Fits l (item column i) := by
  rcases Nat.lt_or_ge i column.length with inside | outside
  · exact .inr (covers _ (item_mem inside))
  · exact .inl (List.getD_eq_default _ _ outside)

theorem not_covers_absent (l : Kind) : ¬l.Covers .absent := by
  rintro (null | admitted)
  · cases null
  · cases l with
    | primitive p => cases p <;> exact admitted
    | _ => exact admitted

/-- The arguments of a row fit the kinds of their values, whatever rows their columns have. -/
theorem fits_of_columns {args : List Feature} {xs : List FeaturePlan} (hxs : Remembered m args xs)
    (ih : ∀ f ∈ args, ∀ x, Remembers m f.key x → ∀ vs, x.values b = .ok vs → Kinded b f vs) :
    ∀ {columns : List (List Value)}, xs.mapM (fun x => x.values b) = .ok columns →
      ∀ i, List.Forall₂ Fits (Feature.valueKinds args) (columns.map fun c => item c i) := by
  intro columns evaluated i
  replace evaluated := mapM_eq_ok evaluated
  unfold Remembered at hxs
  induction hxs generalizing columns with
  | nil =>
    cases evaluated
    exact .nil
  | @cons f x _ _ hx _ rest =>
    cases evaluated with
    | @cons _ c _ _ hc evaluated =>
      have first := ih f (by simp) x hx c hc
      exact .cons (fits_item first.covers i) (rest (fun g hg => ih g (by simp [hg])) evaluated)

/-- The result of a row-wise operator has values of its kind. -/
theorem rowWise_kinded {op : Operator} {args : List Feature} {t : Option Kind} {repr : String}
    {xs : List FeaturePlan} (check : op.check (Feature.kinds args) t repr = .ok ())
    (free : ∀ l ∈ t, l.StructFree) (single : op.aggregates = false) (hxs : Remembered m args xs)
    (ih : ∀ f ∈ args, ∀ x, Remembers m f.key x → ∀ vs, x.values b = .ok vs → Kinded b f vs)
    {vs : List Value}
    (h : (FeaturePlan.rowWise op xs (Feature.expression op args t).kind).values b = .ok vs) :
    Kinded b (.expression op args t) vs := by
  obtain ⟨columns, arguments, h⟩ := bind_eq_ok.1 h
  have rows := mapM_eq_ok h
  refine ⟨fun _ => by rw [← rows.length_eq, List.length_range], ?_⟩
  refine forall_right_of_forall₂ (fun i v hv => ?_) rows
  exact applyOperator_covers check free single (fits_of_columns hxs ih arguments i) hv

/-- An aggregate summarizes its argument, which it evaluates on all rows, group by group. -/
theorem aggregateOf_groups {op : Operator} {argument : Option FeaturePlan} {vs : List Value}
    (h : (FeaturePlan.aggregateOf op argument).values b = .ok vs) :
    ∃ column : Option (List Value),
      (∀ ws ∈ column, ∃ x ∈ argument, x.values (.ofData b.data) = .ok ws) ∧
      List.Forall₂ (fun g v => summarize op (column.map fun c => g.map (item c)) g.length = .ok v)
        (b.groups.getD [List.range b.data.length]) vs := by
  cases argument with
  | none => exact ⟨none, nofun, mapM_eq_ok h⟩
  | some x =>
    obtain ⟨column, argument, h⟩ := bind_eq_ok.1 h
    obtain ⟨ws, evaluated, rfl⟩ := map_eq_ok.1 argument
    refine ⟨some ws, ?_, mapM_eq_ok h⟩
    rintro _ ⟨⟩
    exact ⟨x, rfl, evaluated⟩

/-- The kinds of what is summed up or compared by an aggregate are numeric. -/
theorem numeric_of_aggregate {op : Operator} {ks : List Kind} {t : Option Kind} {repr : String}
    (check : op.check ks t repr = .ok ()) (aggregates : op.aggregates = true) (count : op ≠ .count) :
    ∀ k ∈ ks, k.isNumeric = true := by
  have numeric : Operator.ensureAll .numeric ks = .ok () := by
    cases op <;> first | exact check | exact absurd rfl count | cases aggregates
  intro k hk
  have family := Operator.numeric_of_ensureAll numeric k hk
  cases k with
  | primitive p => exact family
  | _ => cases family

/-- The rows of a group have numbers, or are missing, in the column of a numeric feature. -/
theorem amounts_of_kinded {f : Feature} {ws : List Value} (kinded : Kinded b f ws)
    (numeric : f.kind.isNumeric = true) (g : List Nat) :
    ∀ w ∈ g.map (item ws), w = .absent ∨ w.IsAmount (f.valueKind.isInteger = true) := by
  refine List.forall_mem_map.2 fun i _ => ?_
  exact (fits_item kinded.covers i).imp_right
    (Kind.covers_iff_amount (f.isNumeric_valueKind.trans numeric)).1

/-- No row is missing in the column of a feature that has a value for each row. -/
theorem present_of_kinded {d : Dataset} {f : Feature} {ws : List Value}
    (kinded : Kinded (.ofData d) f ws) (each : f.hasAggregate = false) {g : List Nat}
    (inside : ∀ i ∈ g, i < d.length) : Value.absent ∉ g.map (item ws) := by
  intro missing
  obtain ⟨i, hi, absent⟩ := List.mem_map.1 missing
  have length : ws.length = d.length := kinded.length (.inr each)
  have cover := kinded.covers _ (item_mem (length ▸ inside i hi))
  rw [absent] at cover
  exact not_covers_absent _ cover

/-- The result of an aggregate has values of its kind, if its argument has one for each row. -/
theorem aggregateOf_kinded {op : Operator} {args : List Feature} {t : Option Kind}
    {xs : List FeaturePlan} (built : (Feature.expression op args t).Built)
    (aggregates : op.aggregates = true)
    (flat : (Feature.expression op args t).isNested = false) (regular : b.Regular)
    (hxs : Remembered m args xs)
    (ih : ∀ f ∈ args, ∀ x, Remembers m f.key x → ∀ vs, x.values (.ofData b.data) = .ok vs →
      Kinded (.ofData b.data) f vs)
    {vs : List Value} (h : (FeaturePlan.aggregateOf op xs.head?).values b = .ok vs) :
    Kinded b (.expression op args t) vs := by
  obtain ⟨-, -, -, check⟩ := built.inv_expression
  rw [← Feature.kinds_eq_map] at check
  obtain ⟨column, argument, groups⟩ := aggregateOf_groups h
  have inside : ∀ g ∈ b.groups.getD [List.range b.data.length], ∀ i ∈ g, i < b.data.length := by
    cases hgs : b.groups with
    | none => simp
    | some gs => exact regular.groups gs hgs
  constructor
  · rintro (some | none)
    · obtain ⟨gs, hgs⟩ := Option.isSome_iff_exists.1 some
      rw [← groups.length_eq]
      simp only [Batch.size, hgs, Option.getD_some]
    · simp [Feature.hasAggregate, aggregates] at none
  · refine forall_of_forall₂ (fun g v hv within => ?_) groups inside
    -- What is summarized are the values of the argument for the rows of the group.
    cases hxs with
    | nil =>
      obtain rfl : column = none := by
        cases column with
        | none => rfl
        | some ws => obtain ⟨_, missing, -⟩ := argument ws rfl; cases missing
      exact summarize_covers check aggregates (by simp) (by simp) hv
    | @cons f y args _ hy others =>
      have values : ∀ ws ∈ column, Kinded (.ofData b.data) f ws := by
        intro ws hws
        obtain ⟨x, hx, evaluated⟩ := argument ws hws
        obtain rfl := Option.some.inj hx
        exact ih f (by simp) y hy ws evaluated
      refine summarize_covers check aggregates (fun count ws hws w hw => ?_)
        (fun least ws hws => ?_) hv
      · obtain ⟨c, hc, rfl⟩ := Option.map_eq_some_iff.1 (Option.mem_def.1 hws)
        have numeric := numeric_of_aggregate check aggregates count f.kind (by simp [Feature.kinds])
        refine (amounts_of_kinded (values c hc) numeric g w hw).imp_right fun amount => ?_
        exact amount.mono fun integers => integers f.valueKind (by simp [Feature.valueKinds])
      · obtain ⟨c, hc, rfl⟩ := Option.map_eq_some_iff.1 (Option.mem_def.1 hws)
        have short : Feature.anyAggregate (f :: args) = false := by
          rcases least with rfl | rfl <;> exact flat
        exact present_of_kinded (values c hc) (Bool.or_eq_false_iff.1 short).1 within

/-! ### Features -/

/-- An element has the values of its column, for a group that of the first row. -/
theorem element_kinded {s u : Source} {n : String} {k : Kind} (regular : b.Regular)
    (natural : ∀ column, b.data.column n (some u.label) = .ok column → ∀ v ∈ column, k.Covers v)
    {vs : List Value} (h : (FeaturePlan.element u n).values b = .ok vs) :
    Kinded b (.element s n k) vs := by
  obtain ⟨column, found, h⟩ := bind_eq_ok.1 h
  have length := regular.data.height column (mem_of_column regular.data found)
  have covers := natural column found
  cases hgs : b.groups with
  | none =>
    rw [hgs] at h
    obtain rfl := pure_eq_ok.1 h
    exact ⟨fun _ => by rw [length, Batch.size, hgs], covers⟩
  | some gs =>
    rw [hgs] at h
    obtain rfl := pure_eq_ok.1 h
    refine ⟨fun _ => by rw [List.length_map, Batch.size, hgs], fun v hv => ?_⟩
    obtain ⟨g, hg, rfl⟩ := List.mem_map.1 hv
    cases g with
    | nil => exact .inl rfl
    | cons i r =>
      have inside := regular.groups gs hgs _ hg i List.mem_cons_self
      exact covers _ (item_mem (length ▸ inside))

/-- A window has for each row the value of its function for the frame of that row. -/
theorem window_kinded {fn : Feature} {ps : List Feature} {os : List OrderTerm}
    {fr fr' : Option Frame} {y z : FeaturePlan} {xs : List FeaturePlan}
    {ys : List (OrderSymbol FeaturePlan)}
    (made : FeaturePlan.window y xs ys fr' = .ok z) (regular : b.Regular)
    (ih : ∀ b' : Batch, b'.Regular → b'.data = b.data → ∀ vs, y.values b' = .ok vs → Kinded b' fn vs)
    {vs : List Value} (h : z.values b = .ok vs) : Kinded b (.window fn ps os fr) vs := by
  rw [window_values made] at h
  have frames : ∀ rows : List Nat, (∀ i ∈ rows, i < b.data.length) → ∀ vs,
      y.values ⟨b.data, some [rows]⟩ = .ok vs → fn.valueKind.Covers (item vs 0) := by
    intro rows inside vs evaluated
    have one : Batch.Regular ⟨b.data, some [rows]⟩ :=
      ⟨regular.data, by rintro _ ⟨⟩ g hg; exact List.mem_singleton.1 hg ▸ inside⟩
    have kinded := ih _ one rfl vs evaluated
    have single : vs.length = 1 := kinded.length (.inl rfl)
    exact kinded.covers _ (item_mem (by omega))
  obtain ⟨rows, length, covers⟩ := windowValues_forall frames (.inl rfl) h
  exact ⟨fun _ => by rw [length, Batch.size, rows], covers⟩

/-- **The plan of a feature gives values of its kind.** -/
theorem values_kinded
    (hm : Rooted (backend sources .empty) (.plain kinds fun v k => k.Admits v) m) :
    ∀ f : Feature, f.Built → f.Obeys (.plain kinds fun v k => k.Admits v) →
      (f.Throughout fun g => g.isNested = false) → ∀ x, Made (fun v k => k.Admits v) m f x →
        ∀ b : Batch, b.Regular → Natural b.data f → ∀ vs, x.values b = .ok vs → Kinded b f vs := by
  refine Feature.childInduction fun f ih built obeys flat x made b regular natural vs evaluated => ?_
  -- What is remembered for a part gives values of the kind of that part.
  have part : ∀ c ∈ f.children, c.Built → ∀ y, Remembers m c.key y → ∀ b' : Batch, b'.Regular →
      b'.data = b.data → ∀ vs, y.values b' = .ok vs → Kinded b' c vs := by
    intro c hc hb y hy b' regular' same
    exact ih c hc hb (obeys.children c hc) (flat.parts c hc) y
      (made_of_remembered hm (obeys.children c hc) hy) b' regular' (same ▸ natural.child hc)
  cases made with
  | @aliased f n y hy =>
    have kinded := part f (by simp [Feature.children]) built.inv_aliased.1 y hy b regular rfl vs
      evaluated
    exact ⟨kinded.length, kinded.covers⟩
  | @literal v w k same sort =>
    obtain rfl := Except.ok.inj evaluated
    exact ⟨fun _ => List.length_replicate, fun v hv => .inr (List.eq_of_mem_replicate hv ▸ sort)⟩
  | @element s u n k same =>
    exact element_kinded regular (natural s n k (by simp [Feature.elements]) u same) evaluated
  | @expression op args t xs hxs =>
    obtain ⟨parts, -, -, check⟩ := built.inv_expression
    cases aggregates : op.aggregates with
    | true =>
      simp only [FeaturePlan.expression, aggregates, if_true] at evaluated
      exact aggregateOf_kinded built aggregates flat.own regular hxs
        (fun f hf y hy => part f hf (parts f hf).1 y hy _ (.ofData regular.data) rfl) evaluated
    | false =>
      simp only [FeaturePlan.expression, aggregates, Bool.false_eq_true, if_false] at evaluated
      rw [← Feature.kinds_eq_map] at check
      exact rowWise_kinded check obeys.1.1.1 aggregates hxs
        (fun f hf y hy => part f hf (parts f hf).1 y hy b regular rfl) evaluated
  | @window fn ps os fr fr' y _ xs ys hfn hps hos frame made =>
    exact window_kinded made regular
      (part fn (by simp [Feature.children]) built.inv_window.1 y hfn) evaluated

end

/-! ### Compiled features -/

/-- Trees without structs that the constructors give have literals of their kinds, and keys tell the kinds
of all elements. -/
theorem ensures_plain (kinds : String → Kind) : ∃ all : String → Kind,
    (Rules.structFree.and (.toldBeyondTables kinds)).Ensures (.plain all fun v k => k.Admits v) := by
  obtain ⟨all, told⟩ := Rules.told_of_beyond kinds
  refine ⟨all, fun f hb h => ⟨told.feature f hb h, ?_⟩, fun s hb h => ⟨told.source s hb h, trivial⟩⟩
  cases f with
  | literal w k =>
    obtain ⟨v, cast⟩ := hb.inv_literal
    exact Kind.cast_admits h.own.1 cast
  | _ => trivial

/-- **A compiled feature gives natural values of its kind.** The values are those of another kind only
if its kind is Integer: they are numbers that need not be whole where an average, or what is computed
from more than integers, comes through. Keys have to tell the kinds of elements beyond tables. -/
theorem values_of_kind {sources : KeyedMap Source SourcePlan} {history : List Tree}
    {kinds : String → Kind}
    (known : ∀ tree ∈ history, tree.Built ∧
      tree.Obeys (Rules.structFree.and (.toldBeyondTables kinds)))
    {f : Feature} (built : f.Built) (obeys : f.Obeys (Rules.structFree.and (.toldBeyondTables kinds)))
    (flat : f.Throughout fun g => g.isNested = false) {x : FeaturePlan}
    {t : Translator SourcePlan FeaturePlan}
    (compiled : (translatorAfter sources history).serve (.finish (.feature f))
      = (.ok (some (.feature x)), t))
    {b : Batch} (regular : b.Regular) (natural : Natural b.data f) {vs : List Value}
    (evaluated : x.values b = .ok vs) :
    (∀ v ∈ vs, v = .null ∨ f.valueKind.Admits v) ∧
      (f.kind.isInteger = false ∨ f.Throughout Feature.IsTight → f.valueKind = f.kind) := by
  obtain ⟨all, ensures⟩ := ensures_plain kinds
  have obeys := Feature.Built.obeys ensures f built obeys
  obtain ⟨m, hm, made⟩ :=
    feature_made (fun tree h => (known tree h).1.obeys ensures (known tree h).2) obeys compiled
  have kinded := values_kinded hm f built obeys flat x made b regular natural vs evaluated
  exact ⟨kinded.covers, fun h => h.elim f.valueKind_eq f.valueKind_of_tight⟩

/-- The column of a symbol, if it is a plan with values. -/
def columnOf (r : Except Fault (Option (Translation.Symbol SourcePlan FeaturePlan))) (b : Batch) :
    Option (List Value) :=
  match r with
  | .ok (some (.feature x)) =>
    match x.values b with
    | .ok vs   => some vs
    | .error _ => none
  | _ => none

theorem evaluated_of_columnOf {α : Type} {g : List Value → α} {a : α}
    {p : Except Fault (Option (Translation.Symbol SourcePlan FeaturePlan)) ×
      Translator SourcePlan FeaturePlan} {b : Batch} (h : (columnOf p.1 b).map g = some a) :
    ∃ x t vs, p = (.ok (some (.feature x)), t) ∧ x.values b = .ok vs ∧ g vs = a := by
  obtain ⟨r, t⟩ := p
  obtain ⟨vs, hvs, rfl⟩ := Option.map_eq_some_iff.1 h
  dsimp only [columnOf] at hvs
  split at hvs
  · rename_i x
    split at hvs
    · rename_i evaluated
      exact ⟨x, t, vs, rfl, Option.some.inj hvs ▸ evaluated, rfl⟩
    · cases hvs
  · cases hvs

/-- The sum of a group divided by its size: the fraction of the mean is cut off. -/
theorem values_of_kind_quotient :
    let student : Source := .table ⟨"student", [("level", ⟨.primitive .integer, "class"⟩)]⟩
    let level : Feature := .element student "class" (.primitive .integer)
    let sum : Feature := .expression .sum [level] none
    let count : Feature := .expression .count [] none
    let mean : Feature := .expression .div [sum, count] none
    let b : Batch := ⟨⟨[⟨"class", some "student"⟩],
      [[.number (.ofNat 1), .number (.ofNat 2), .null]], 3⟩, some [[0, 1], [2]]⟩
    ∃ x t vs, (translatorAfter .empty []).serve (.finish (.feature mean))
        = (.ok (some (.feature x)), t) ∧ x.values b = .ok vs ∧
      vs.map Value.plain = ["1", "null"] ∧ mean.kind = .primitive .integer ∧
      ∀ v ∈ vs, v = .null ∨ mean.kind.Admits v := by
  intro student level sum count mean b
  have hlevel : level.Built :=
    .element (.of_distinct rfl) (show student.get "level" = .ok _ from rfl)
  have hsum : sum.Built := built_single hlevel rfl
  have built : mean.Built := built_pair hsum built_count rfl
  have olevel : level.Obeys (Rules.structFree.and (.toldBeyondTables fun _ => default)) :=
    ⟨⟨trivial, .inl ⟨_, rfl⟩⟩, structFree_table rfl, trivial⟩
  have obeys : mean.Obeys (Rules.structFree.and (.toldBeyondTables fun _ => default)) :=
    ⟨⟨nofun, trivial⟩, ⟨⟨nofun, trivial⟩, olevel, trivial⟩, ⟨⟨nofun, trivial⟩, trivial⟩, trivial⟩
  have flatlevel : level.Throughout fun g => g.isNested = false :=
    .mk rfl (by simp [level, Feature.children])
  have flatsum : sum.Throughout fun g => g.isNested = false :=
    .mk rfl (by simpa [sum, Feature.children] using flatlevel)
  have flatcount : count.Throughout fun g => g.isNested = false :=
    .mk rfl (by simp [count, Feature.children])
  have flat : mean.Throughout fun g => g.isNested = false :=
    .mk rfl (by simpa [mean, Feature.children] using ⟨flatsum, flatcount⟩)
  have regular : b.Regular := ⟨⟨rfl, by simp [b]⟩, by rintro _ ⟨⟩; decide⟩
  have natural : Natural b.data mean := by
    intro s n k hk u _ column found v hv
    obtain rfl : [Value.number (.ofNat 1), .number (.ofNat 2), .null] = column := by
      simpa [b, eq_comm] using mem_of_column regular.data found
    have element : Feature.element s n k = level := by
      simpa [mean, sum, count, level, Feature.elements, elementsOf] using hk
    obtain rfl : k = .primitive .integer := (Feature.element.inj element).2.2
    simp only [List.mem_cons, List.not_mem_nil, or_false] at hv
    obtain rfl | rfl | rfl := hv
    · exact .inr (Number.integral_ofNat 1)
    · exact .inr (Number.integral_ofNat 2)
    · exact .inl rfl
  have column : (columnOf ((translatorAfter .empty []).serve (.finish (.feature mean))).1 b).map
      (fun vs => vs.map Value.plain) = some ["1", "null"] := by
    decide +kernel
  obtain ⟨x, t, vs, compiled, evaluated, texts⟩ := evaluated_of_columnOf column
  have kinded := values_of_kind (by simp) built obeys flat compiled regular natural evaluated
  have tight : mean.valueKind = mean.kind := rfl
  exact ⟨x, t, vs, compiled, evaluated, texts, rfl, tight ▸ kinded.1⟩

/-- Whether the value is a number with a fraction. -/
def hasFraction : Value → Bool
  | .number n => n.isFinite && !n.isWhole
  | _         => false

theorem not_covers_of_fraction {v : Value} (h : hasFraction v = true) :
    v ≠ .null ∧ ¬(Kind.primitive .integer).Admits v := by
  cases v with
  | number n =>
    obtain ⟨finite, fraction⟩ := Bool.and_eq_true_iff.1 h
    refine ⟨nofun, fun admitted => ?_⟩
    have whole := Number.integral_iff.1 admitted finite
    simp [whole] at fraction
  | _ => cases h

/-- A number of kind Integer with a fraction: the sum of an integer and a decimal has the kind of the
integer, since neither of the kinds is wider. -/
theorem fractions_of_kind_integer :
    let item : Source := .table ⟨"item", [("qty", ⟨.primitive .integer, "qty"⟩),
      ("cost", ⟨.primitive .decimal, "cost"⟩)]⟩
    let qty : Feature := .element item "qty" (.primitive .integer)
    let cost : Feature := .element item "cost" (.primitive .decimal)
    let total : Feature := .expression .add [qty, cost] none
    let b : Batch := .ofData ⟨[⟨"qty", some "item"⟩, ⟨"cost", some "item"⟩],
      [[.number (.ofNat 5)], [.number ((Number.ofNat 5).div (.ofNat 4))]], 1⟩
    total.Built ∧ total.kind = .primitive .integer ∧ b.Regular ∧ Natural b.data total ∧
      ∃ x t vs, (translatorAfter .empty []).serve (.finish (.feature total))
          = (.ok (some (.feature x)), t) ∧ x.values b = .ok vs ∧
        ∃ v ∈ vs, v ≠ .null ∧ ¬total.kind.Admits v := by
  intro item qty cost total b
  have hitem : item.Built := .of_distinct rfl
  have hqty : qty.Built := .element hitem (show item.get "qty" = .ok _ from rfl)
  have hcost : cost.Built := .element hitem (show item.get "cost" = .ok _ from rfl)
  have natural : Natural b.data total := by
    intro s n k hk u _ column found v hv
    have elements : Feature.element s n k = qty ∨ Feature.element s n k = cost := by
      simpa [total, qty, cost, Feature.elements, elementsOf] using hk
    have fields : n = "qty" ∧ k = .primitive .integer ∨ n = "cost" ∧ k = .primitive .decimal :=
      elements.imp (fun h => (Feature.element.inj h).2) fun h => (Feature.element.inj h).2
    have here : u.label = "item" := by
      by_contra other
      obtain ⟨rfl, -⟩ | ⟨rfl, -⟩ := fields <;>
        simp [Dataset.column, find?, List.findIdx?_cons, b, Batch.ofData, Ne.symm other] at found
    rw [here] at found
    obtain ⟨rfl, rfl⟩ | ⟨rfl, rfl⟩ := fields
    · obtain rfl := Except.ok.inj found
      obtain rfl := List.mem_singleton.1 hv
      exact .inr (Number.integral_ofNat 5)
    · obtain rfl := Except.ok.inj found
      obtain rfl := List.mem_singleton.1 hv
      exact .inr trivial
  have column : (columnOf ((translatorAfter .empty []).serve (.finish (.feature total))).1 b).map
      (fun vs => vs.map hasFraction) = some [true] := by
    decide +kernel
  obtain ⟨x, t, vs, compiled, evaluated, fractions⟩ := evaluated_of_columnOf column
  obtain ⟨v, rfl, fraction⟩ := List.map_eq_singleton_iff.1 fractions
  exact ⟨built_pair hqty hcost rfl, rfl, .ofData ⟨rfl, by simp⟩, natural, x, t, [v],
    compiled, evaluated, v, List.mem_singleton_self v, not_covers_of_fraction fraction⟩

end Evaluation

end QueryAlgebra
