import QueryAlgebra.Proofs.Evaluation.Grouping
import QueryAlgebra.Proofs.Evaluation.Kinds
import QueryAlgebra.Proofs.Number.Places
import Mathlib.Data.List.Perm.Basic

/-!
# Rows of window frames

A frame with whole offsets spans the rows between two distances from the current row. Places of its ends
are computed with rounded numbers, but as long as a partition is no longer than numbers count, they stand
among its positions as the exact ones do. So a window aggregates exactly the rows that its frame spans,
unless the frame ends two rows or more before the first row of the partition: then its end is a position
below zero, which counts from the end of the partition.

* `Frame.Spans`, `Frame.spanned`: the rows that a frame spans.
* `Feature.Aggregates`, `Parted`: the aggregate of some rows, and the partitions of a window.
* `near_boundPlace`, `explicitFrame_eq`: ends of frames as exact integers.
* `explicitFrame_spanned`, `explicitFrame_wrapped`: the rows of a frame.
* `windowValues_eq_ok`: the values of a window, row by row.
* `framed_rows`: the rows that a window with a frame aggregates.
* `frame_wraps`: a frame before the first row of its partition that holds rows.
-/

namespace QueryAlgebra

open Evaluation Translation Dataset

/-! ### What a frame spans -/

/-- The distance of an end of a frame from the current row, unless it is unbounded. -/
def FrameEnd.distance? : FrameEnd → Option Int
  | .unbounded => none
  | .current   => some 0
  | .offset n  => n.toInt?

/-- An end of a frame that is an integer if it is an offset. -/
def FrameEnd.Whole : FrameEnd → Prop
  | .offset n => n.isWhole = true
  | _         => True

namespace Frame

variable (f : Frame)

/-- Both ends of the frame are integers, if they are offsets. -/
def Whole : Prop := f.start.Whole ∧ f.stop.Whole

/-- The frame of the row at a position holds the row at another one. -/
def Spans (p q : Nat) : Prop :=
  (∀ d ∈ f.start.distance?, p + d ≤ q) ∧ ∀ d ∈ f.stop.distance?, (q : Int) ≤ p + d

instance (p q : Nat) : Decidable (f.Spans p q) := inferInstanceAs (Decidable (_ ∧ _))

/-- The rows of a sorted partition that the frame of the row at a position holds. -/
def spanned (sorted : List Nat) (p : Nat) : List Nat :=
  (sorted.zipIdx.filter fun e => f.Spans p e.2).map (·.1)

/-- A bounded frame does not start after it ends. -/
def Ordered : Prop := ∀ a ∈ f.start.distance?, ∀ b ∈ f.stop.distance?, a ≤ b

end Frame

theorem FrameEnd.denotes_place {e : FrameEnd} (whole : e.Whole) {d : Int}
    (bounded : e.distance? = some d) (unbounded : Number) : (e.place unbounded).Denotes d := by
  cases e with
  | unbounded => cases bounded
  | current =>
    obtain rfl := Option.some.inj bounded
    exact Number.denotes_ofNat (n := 0) (by decide)
  | offset n => exact Number.denotes_of_toInt? whole bounded

/-- What the constructor of windows has checked. -/
theorem Frame.ordered_of_check {f : Frame} (whole : f.Whole) (h : f.check = .ok ()) : f.Ordered := by
  intro a ha b hb
  have start := (FrameEnd.denotes_place whole.1 ha (.infinite true)).position
  have stop := (FrameEnd.denotes_place whole.2 hb (.infinite false)).position
  unfold Frame.check at h
  split at h
  · cases h
  · rename_i accepted
    rw [Number.lt_iff stop start] at accepted
    exact Int.le_of_mul_le_mul_right (not_lt.1 accepted) (Int.natCast_pos.2 Number.stepsPerOne_pos)

/-! ### What a window aggregates -/

/-- The value is what an aggregate makes of rows of data: of the values of its argument on these rows,
or of their number. -/
def Feature.Aggregates (fn : Feature) (d : Dataset) (rows : List Nat) (v : Value) : Prop :=
  ∃ (op : Operator) (args : List Feature) (t : Option Kind) (column : Option (List Value)),
    fn = .expression op args t ∧
    List.Forall₂ (fun a c => a.Column (.ofData d) c) args.head?.toList column.toList ∧
    summarize op (column.map fun c => rows.map (item c)) rows.length = .ok v

/-- The rows of data in partitions, which are the groups of rows by the columns of some features, and
the columns that they are sorted by. -/
structure Parted (ps : List Feature) (os : List OrderTerm) (d : Dataset) (keys : List SortKey)
    (partitions : List (List Nat)) : Prop where
  parted : ∃ columns, List.Forall₂ (fun p c => p.Column (.ofData d) c) ps columns ∧
    groupRows d.length columns = .ok partitions
  keyed  : List.Forall₂ (fun o k => o.feature.Column (.ofData d) k.1 ∧ k.2 = o.direction) os keys

/-- Every row is in one partition. -/
theorem Parted.perm {ps : List Feature} {os : List OrderTerm} {d : Dataset} {keys : List SortKey}
    {partitions : List (List Nat)} (h : Parted ps os d keys partitions) :
    partitions.flatten.Perm (List.range d.length) := by
  obtain ⟨columns, -, grouped⟩ := h.parted
  exact groupRows_perm grouped

namespace Evaluation

/-! ### Slices -/

/-- The items between two positions. -/
theorem filter_zipIdx {α : Type} (low high : Nat) : ∀ (as : List α) (first : Nat),
    ((as.zipIdx first).filter fun e => decide (low ≤ e.2 ∧ e.2 < high)).map (·.1)
      = (as.take (high - first)).drop (low - first)
  | [], _ => by simp
  | a :: r, first => by
    have rest := filter_zipIdx low high r (first + 1)
    rw [List.zipIdx_cons, List.filter_cons]
    by_cases before : first < high
    · obtain ⟨n, next⟩ : ∃ n, high - first = n + 1 := ⟨high - first - 1, by omega⟩
      rw [show high - (first + 1) = n by omega] at rest
      rw [next, List.take_succ_cons]
      by_cases behind : low ≤ first
      · have head : low - first = 0 := by omega
        have tail : low - (first + 1) = 0 := by omega
        rw [tail, List.drop_zero] at rest
        rw [if_pos (by simpa using ⟨behind, before⟩), List.map_cons, rest, head, List.drop_zero]
      · obtain ⟨k, skipped⟩ : ∃ k, low - first = k + 1 := ⟨low - first - 1, by omega⟩
        rw [show low - (first + 1) = k by omega] at rest
        rw [if_neg (by simpa using fun inside => absurd inside behind), rest, skipped,
          List.drop_succ_cons]
    · rw [show high - first = 0 by omega, List.take_zero, List.drop_nil]
      rw [show high - (first + 1) = 0 by omega, List.take_zero, List.drop_nil] at rest
      rw [if_neg (by simpa using fun _ => not_lt.1 before), rest]

/-- The integer that a finite number is cut off to, among small integers. -/
theorem toInt?_among (negative : Bool) (m : Magnitude) : ∃ t,
    (Number.finite negative m).toInt? = some t ∧ ∀ k : Nat,
      ((k : Int) * stepsPerOne ≤ m.signed negative → (k : Int) ≤ t) ∧
      (m.signed negative ≤ -k * stepsPerOne → t ≤ -k) := by
  refine ⟨_, rfl, fun k => ?_⟩
  have positive := Number.stepsPerOne_pos
  have reached : k * stepsPerOne ≤ m.steps → k ≤ m.steps / stepsPerOne :=
    (Nat.le_div_iff_mul_le positive).2
  have none : m.steps = 0 → m.steps / stepsPerOne = 0 := by
    intro zero
    rw [zero, Nat.zero_div]
  rw [Int.neg_mul, ← Nat.cast_mul]
  have only : k * stepsPerOne = 0 → k = 0 := fun zero =>
    (Nat.mul_eq_zero.1 zero).resolve_right positive.ne'
  generalize k * stepsPerOne = c at *
  generalize m.steps / stepsPerOne = t at *
  cases negative <;> simp only [Magnitude.signed, Bool.false_eq_true, if_false, if_true] <;> omega

/-- The position in a short list that a number denotes which stands among small integers as an integer
does. -/
theorem slicePosition_of_near {bound length : Nat} {x : Number} {i : Int} (h : x.Near bound i)
    (inside : length ≤ bound) (small : bound ≤ 2 ^ 53) : slicePosition length x
      = if i < 0 then (length + i).toNat else min i.toNat length := by
  by_cases near : i.natAbs ≤ bound
  · obtain ⟨negative, exact⟩ := h.denotes near small
    simp only [slicePosition, (Number.Denotes.mk negative exact).toInt?, Option.getD_some]
  · -- Beyond the bound it is the end of the list on that side.
    obtain ⟨u, position, among⟩ := h
    have above := (among bound (by omega)).1
    have below := (among (-bound) (by omega)).2
    cases x with
    | nan => cases position
    | infinite negative =>
      obtain rfl := Option.some.inj position
      have limit := Number.stepsLimit_pos
      have steps := Int.mul_nonneg (Int.natCast_nonneg bound) (Int.natCast_nonneg stepsPerOne)
      rw [Int.neg_mul] at below
      unfold slicePosition
      cases negative <;> simp only [Bool.false_eq_true, if_false, if_true] at * <;> split <;> omega
    | finite negative m =>
      obtain rfl := Option.some.inj position
      obtain ⟨t, read, cut⟩ := toInt?_among negative m
      have cut := cut bound
      simp only [slicePosition, read, Option.getD_some]
      split <;> split <;> omega

/-! ### Ends of frames -/

theorem near_atLeastZero {bound : Nat} {x : Number} {i : Int} (h : x.Near bound i)
    (positive : 0 < bound) : (atLeastZero x).Near bound (max 0 i) := by
  have zero := Number.denotes_ofNat (n := 0) (by decide)
  have below : x.lt (.ofNat 0) = true ↔ i < 0 := h.lt_iff zero positive
  unfold atLeastZero
  split
  · rename_i less
    rw [max_eq_left (below.1 less).le]
    exact zero.near
  · rename_i not_less
    rw [max_eq_right (not_lt.1 (mt below.2 not_less))]
    exact h

theorem near_atMost {bound : Nat} {x limit : Number} {i j : Int} (h : x.Near bound i)
    (hl : limit.Denotes j) (small : j.natAbs < bound) : (atMost limit x).Near bound (min j i) := by
  have above := h.gt_iff hl small
  unfold atMost
  split
  · rename_i more
    rw [min_eq_left (above.1 more).le]
    exact hl.near
  · rename_i not_more
    rw [min_eq_right (not_lt.1 (mt above.2 not_more))]
    exact h

/-- The place of an end of a frame, seen from the row at a position. -/
def reach (p : Nat) (unbounded : Int) (e : FrameEnd) : Int :=
  match e.distance? with
  | none   => unbounded
  | some d => p + d

/-- **The place of an end of a frame stands among small integers as the exact one does**, however large
the offset is. -/
theorem near_boundPlace {p : Nat} (small : p ≤ 2 ^ 53) {unbounded : Number} {k : Int}
    (hk : unbounded.Denotes k) {e : FrameEnd} (whole : e.Whole) :
    (boundPlace p unbounded e).Near (2 ^ 53) (reach p k e) := by
  have here := Number.denotes_ofNat small
  cases e with
  | unbounded => exact hk.near
  | current =>
    simp only [boundPlace, reach, FrameEnd.distance?, Int.add_zero]
    exact here.near
  | offset n =>
    obtain ⟨d, exact⟩ := Number.denotes_of_isWhole whole
    simp only [boundPlace, reach, FrameEnd.distance?, exact.toInt?]
    exact here.add exact

/-- **The rows between the ends of a frame**, as exact integers: they are cut at the ends of the
partition, and an end below zero counts from the end of the partition. -/
theorem explicitFrame_eq {f : Frame} (whole : f.Whole) {sorted : List Nat} {p : Nat}
    (short : sorted.length < 2 ^ 53) (inside : p < sorted.length) {stop : Int}
    (hstop : stop = min (sorted.length - 1 : Int) (reach p (sorted.length - 1) f.stop) + 1) :
    explicitFrame sorted p f = (sorted.take
        (if stop < 0 then (sorted.length + stop).toNat else min stop.toNat sorted.length)).drop
      (min (max 0 (reach p 0 f.start)).toNat sorted.length) := by
  have one := Number.denotes_ofNat (n := 1) (by decide)
  have last : ((Number.ofNat sorted.length).sub (.ofNat 1)).Denotes (sorted.length - 1) :=
    ((Number.denotes_ofNat short.le).add one.neg).denotes (by omega) le_rfl
  have here : p ≤ 2 ^ 53 := by omega
  have first := near_atLeastZero
    (near_boundPlace here (Number.denotes_ofNat (n := 0) (by decide)) whole.1) (by decide)
  have final := near_atMost (near_boundPlace here last whole.2) last (by omega)
  have behind := @Number.Near.add (2 ^ 53 - 1) _ _ _ _ final one (by decide)
  unfold explicitFrame slice
  dsimp only
  rw [slicePosition_of_near first short.le le_rfl, slicePosition_of_near behind (by omega) (by omega),
    if_neg (by omega), hstop]
  rfl

/-- What a frame spans, between places of its ends. -/
theorem spans_iff {f : Frame} {p q n : Nat} (inside : q < n) :
    f.Spans p q ↔ reach p 0 f.start ≤ q ∧ (q : Int) ≤ reach p (n - 1) f.stop := by
  unfold Frame.Spans reach
  cases f.start.distance? <;> cases f.stop.distance? <;> simp <;> omega

/-- **The frame of a row is what it spans**, where it does not end two rows or more before the first
row of the partition. -/
theorem explicitFrame_spanned {f : Frame} (whole : f.Whole) {sorted : List Nat} {p : Nat}
    (short : sorted.length < 2 ^ 53) (inside : p < sorted.length)
    (ahead : ∀ d ∈ f.stop.distance?, -1 ≤ p + d) : explicitFrame sorted p f = f.spanned sorted p := by
  have stop : -1 ≤ reach p (sorted.length - 1) f.stop := by
    unfold reach
    split
    · omega
    · rename_i d hd
      exact ahead d hd
  rw [explicitFrame_eq whole short inside rfl, if_neg (by omega)]
  have between := filter_zipIdx (min (max 0 (reach p 0 f.start)).toNat sorted.length)
    (min (min (sorted.length - 1 : Int) (reach p (sorted.length - 1) f.stop) + 1).toNat sorted.length)
    sorted 0
  rw [Nat.sub_zero, Nat.sub_zero] at between
  rw [← between, Frame.spanned]
  refine congrArg _ (List.filter_congr fun e he => decide_eq_decide.2 ?_)
  have place : e.2 < sorted.length := by simpa using List.snd_lt_of_mem_zipIdx he
  rw [spans_iff place]
  omega

/-- **The frame of a row that ends two rows or more before the first row of the partition** spans no
row, but its end counts from the end of the partition: it is all of the partition but the last rows. -/
theorem explicitFrame_wrapped {f : Frame} (whole : f.Whole) (ordered : f.Ordered) {sorted : List Nat}
    {p : Nat} (short : sorted.length < 2 ^ 53) (inside : p < sorted.length) {d : Int}
    (hd : d ∈ f.stop.distance?) (behind : p + d < -1) : f.spanned sorted p = [] ∧
      explicitFrame sorted p f = sorted.take (sorted.length + p + d + 1).toNat := by
  constructor
  · refine List.map_eq_nil_iff.2 (List.filter_eq_nil_iff.2 fun e _ => ?_)
    have beyond : ¬f.Spans p e.2 := fun h => by
      have := h.2 d hd
      omega
    simpa using beyond
  · have start : reach p 0 f.start ≤ 0 := by
      unfold reach
      split
      · exact le_rfl
      · rename_i a ha
        have := ordered a ha d hd
        omega
    have stop : reach p (sorted.length - 1) f.stop = p + d := by
      simp only [reach, Option.mem_def.1 hd]
    rw [explicitFrame_eq whole short inside rfl, stop, if_pos (by omega), max_eq_left start]
    simp only [Int.toNat_zero, Nat.zero_min, List.drop_zero]
    congr 2
    omega

/-! ### Values of windows -/

/-- The plan of an aggregate aggregates the rows of a group. -/
theorem aggregates_of_plans {fn : Feature} (aggregates : fn.aggregates = true) {y : FeaturePlan}
    (h : fn.Plans y) {d : Dataset} {rows : List Nat} {vs : List Value}
    (evaluated : y.values ⟨d, some [rows]⟩ = .ok vs) : fn.Aggregates d rows (item vs 0) := by
  cases h with
  | @expression op args t xs h =>
    have own : op.aggregates = true := aggregates
    simp only [FeaturePlan.expression, own, if_true] at evaluated
    cases h with
    | nil =>
      have counted : [rows].mapM (fun g => summarize op none g.length) = .ok vs := evaluated
      obtain ⟨v, vs, summarized, others, rfl⟩ := List.forall₂_cons_left_iff.1 (mapM_eq_ok counted)
      exact ⟨op, [], t, none, rfl, .nil, summarized⟩
    | @cons a x args xs hx _ =>
      obtain ⟨column, argument, evaluated⟩ := bind_eq_ok.1 evaluated
      obtain ⟨ws, hws, rfl⟩ := map_eq_ok.1 argument
      obtain ⟨v, vs, summarized, others, rfl⟩ := List.forall₂_cons_left_iff.1 (mapM_eq_ok evaluated)
      exact ⟨op, a :: args, t, some ws, rfl, .cons ⟨x, hx, hws⟩ .nil, summarized⟩
  | _ => cases aggregates

/-- The values of a window for a partition: each row has the value of the window function on the group
of the rows of its frame. -/
theorem partitionValues_eq_ok {fn : FeaturePlan} {keys : List SortKey} {frame : Option Frame}
    {d : Dataset} {members : List Nat} {pairs : List (Nat × Value)}
    (h : FeaturePlan.partitionValues fn keys frame d members = .ok pairs) :
    ∃ sorted, arrange members keys = .ok sorted ∧ pairs.map (·.1) = sorted ∧
      ∀ p row, sorted[p]? = some row → ∃ rows vs, frameAt keys frame sorted p = .ok rows ∧
        fn.values ⟨d, some [rows]⟩ = .ok vs ∧ (row, item vs 0) ∈ pairs := by
  obtain ⟨sorted, arranged, h⟩ := bind_eq_ok.1 h
  have each : List.Forall₂ (fun e pair => ∃ rows vs, frameAt keys frame sorted e.2 = .ok rows ∧
      fn.values ⟨d, some [rows]⟩ = .ok vs ∧ pair = (e.1, item vs 0))
      (sorted.zip (List.range sorted.length)) pairs := by
    refine (mapM_eq_ok h).imp fun e pair he => ?_
    obtain ⟨rows, framed, he⟩ := bind_eq_ok.1 he
    obtain ⟨vs, evaluated, he⟩ := bind_eq_ok.1 he
    exact ⟨rows, vs, framed, evaluated, (pure_eq_ok.1 he).symm⟩
  refine ⟨sorted, arranged, ?_, fun p row at_p => ?_⟩
  · have same : List.Forall₂ (· = ·) ((sorted.zip (List.range sorted.length)).map (·.1))
        (pairs.map (·.1)) := by
      rw [List.forall₂_map_left_iff, List.forall₂_map_right_iff]
      refine each.imp ?_
      rintro e _ ⟨rows, vs, -, -, rfl⟩
      rfl
    rw [List.forall₂_eq_eq_eq, List.map_fst_zip (by simp)] at same
    exact same.symm
  · have entry : (sorted.zip (List.range sorted.length))[p]? = some (row, p) :=
      List.getElem?_zip_eq_some.2 ⟨at_p, List.getElem?_range (List.getElem?_eq_some_iff.1 at_p).1⟩
    obtain ⟨_, found, rows, vs, framed, evaluated, rfl⟩ := related_at each entry
    exact ⟨rows, vs, framed, evaluated, List.mem_of_getElem? found⟩

/-- What stands in a list with distinct keys is found. -/
theorem find?_of_mem {es : List (Nat × Value)} (distinct : (es.map (·.1)).Nodup) {i : Nat} {v : Value}
    (h : (i, v) ∈ es) : Assoc.find? (i == ·) es = some v := by
  induction es with
  | nil => cases h
  | cons e r ih =>
    obtain ⟨new, distinct⟩ := List.nodup_cons.1 distinct
    obtain rfl | h := List.mem_cons.1 h
    · simp [Assoc.find?]
    · have other : i ≠ e.1 := by
        rintro rfl
        exact new (List.mem_map.2 ⟨_, h, rfl⟩)
      simp [Assoc.find?, other, ih distinct h]

/-- **The values of a window on rows**: each row of a sorted partition has the value of the window
function on the group of the rows of its frame. -/
theorem windowValues_eq_ok {fn : FeaturePlan} {partition : List FeaturePlan}
    {ordering : List (OrderSymbol FeaturePlan)} {frame : Option Frame} {d : Dataset} {vs : List Value}
    (h : FeaturePlan.windowValues fn partition ordering frame (.ofData d) = .ok vs) :
    ∃ keys columns partitions, FeaturePlan.sortKeys ordering (.ofData d) = .ok keys ∧
      partition.mapM (fun p => p.values (.ofData d)) = .ok columns ∧
      groupRows d.length columns = .ok partitions ∧ ∀ members ∈ partitions, ∃ sorted,
        arrange members keys = .ok sorted ∧ ∀ p row, sorted[p]? = some row → ∃ rows ws,
          frameAt keys frame sorted p = .ok rows ∧ fn.values ⟨d, some [rows]⟩ = .ok ws ∧
          item vs row = item ws 0 := by
  obtain ⟨keys, ordered, h⟩ := bind_eq_ok.1 h
  obtain ⟨columns, parted, h⟩ := bind_eq_ok.1 h
  obtain ⟨partitions, grouped, h⟩ := bind_eq_ok.1 h
  obtain ⟨values, evaluated, h⟩ := bind_eq_ok.1 h
  obtain rfl := pure_eq_ok.1 h
  have each := mapM_eq_ok evaluated
  refine ⟨keys, columns, partitions, ordered, parted, grouped, fun members hmembers => ?_⟩
  have rows : ((values.flatMap id).map (·.1)).Perm (List.range d.length) := by
    refine List.Perm.trans ?_ (groupRows_perm grouped)
    rw [List.flatMap_id, List.map_flatten]
    refine List.Perm.flatten_congr (List.forall₂_map_left_iff.2 (each.flip.imp ?_))
    intro pairs members h
    obtain ⟨sorted, arranged, same, -⟩ := partitionValues_eq_ok h
    exact same ▸ arrange_perm arranged
  have distinct := rows.nodup_iff.2 List.nodup_range
  obtain ⟨k, hk⟩ := List.getElem?_of_mem hmembers
  obtain ⟨pairs, hpairs, partition⟩ := related_at each hk
  obtain ⟨sorted, arranged, same, framed⟩ := partitionValues_eq_ok partition
  refine ⟨sorted, arranged, fun p row at_p => ?_⟩
  obtain ⟨rows, ws, frame, value, mem⟩ := framed p row at_p
  have found := find?_of_mem distinct
    (List.mem_flatMap.2 ⟨pairs, List.mem_of_getElem? hpairs, mem⟩)
  have bound : row < d.length := groupRows_bounds grouped members hmembers row
    ((arrange_perm arranged).subset (List.mem_of_getElem? at_p))
  have here : (List.range d.length)[row]? = some row := List.getElem?_range bound
  refine ⟨rows, ws, frame, value, ?_⟩
  simp only [item, Batch.ofData, List.getD_eq_getElem?_getD, List.getElem?_map, here, Option.map_some,
    Option.getD_some, found]

/-! ### Windows of trees -/

/-- What the constructor of windows has checked of a frame. -/
theorem check_of_built {fn : Feature} {ps : List Feature} {os : List OrderTerm} {fr : Frame}
    (h : (Feature.window fn ps os (some fr)).Built) : fr.check = .ok () := by
  cases h with
  | literal h => obtain ⟨_, _, _, hf⟩ := Feature.literalOf_eq_ok h; cases hf
  | element _ h => obtain ⟨_, _, hf⟩ := Source.get_eq_ok h; cases hf
  | aliased _ h => obtain ⟨_, _, hf⟩ := Feature.aliasOf_eq_ok h; cases hf
  | expression _ h => obtain ⟨_, _, _, _, _, hf⟩ := Feature.expr_eq_ok h; cases hf
  | window _ _ _ h =>
    obtain ⟨aggregates, _, _, _, _, hf⟩ := Feature.windowOf_eq_ok h
    cases hf
    have checked : ∃ u, fr.check = .ok u := by
      obtain ⟨-, -, checked⟩ := by simpa [Feature.windowOf, aggregates] using h
      exact checked
    exact checked.elim fun _ h => h

/-- The columns that rows are sorted by are those of the features to order by. -/
theorem keyed_of_sortKeys {os : List OrderTerm} {ys : List (OrderSymbol FeaturePlan)}
    (planned : List.Forall₂ Feature.Plans (os.map OrderTerm.feature) (ys.map (·.1)))
    (directions : ys.map (·.2) = os.map OrderTerm.direction) {b : Batch} {keys : List SortKey}
    (h : FeaturePlan.sortKeys ys b = .ok keys) :
    List.Forall₂ (fun o k => o.feature.Column b k.1 ∧ k.2 = o.direction) os keys := by
  rw [List.forall₂_map_left_iff, List.forall₂_map_right_iff] at planned
  replace h := mapM_eq_ok h
  induction planned generalizing keys with
  | nil =>
    cases h
    exact .nil
  | cons hy _ ih =>
    cases h with
    | cons hk rest =>
      obtain ⟨direction, directions⟩ := List.cons.inj directions
      obtain ⟨values, evaluated, made⟩ := bind_eq_ok.1 hk
      obtain rfl := pure_eq_ok.1 made
      exact .cons ⟨⟨_, hy, evaluated⟩, direction⟩ (ih directions rest)

section

variable {sources : KeyedMap Source SourcePlan} {kinds : String → Kind} {labels : String → String}

/-- **The rows that a window with a frame of whole offsets aggregates**, whatever was translated before.
The rows of the data are in partitions, and the value of the row at a position of a sorted partition is
the aggregate of exactly those rows that the frame spans, in their order, as long as the frame does not
end two rows or more before the first row of the partition. If it does, it spans no row, but its end
counts from the end of the partition, and all but the last rows are aggregated. -/
theorem framed_rows {history : List Tree}
    (known : ∀ tree ∈ history, tree.Built ∧
      tree.Obeys (Rules.structFree.and ((Rules.told kinds).and (.labelled labels))))
    {fn : Feature} {ps : List Feature} {os : List OrderTerm} {fr : Frame}
    (built : (Feature.window fn ps os (some fr)).Built)
    (obeys : (Feature.window fn ps os (some fr)).Obeys
      (Rules.structFree.and ((Rules.told kinds).and (.labelled labels))))
    (whole : fr.Whole) {x : FeaturePlan} {t : Translator SourcePlan FeaturePlan}
    (compiled : (translatorAfter sources history).serve
      (.finish (.feature (.window fn ps os (some fr)))) = (.ok (some (.feature x)), t))
    {d : Dataset} (short : d.length < 2 ^ 53) {vs : List Value}
    (evaluated : x.values (.ofData d) = .ok vs) :
    ∃ keys partitions, Parted ps os d keys partitions ∧
      partitions.flatten.Perm (List.range d.length) ∧ ∀ members ∈ partitions, ∃ sorted,
        arrange members keys = .ok sorted ∧ sorted.Perm members ∧
        ∀ (p row : Nat), sorted[p]? = some row → ∃ rows, fn.Aggregates d rows (item vs row) ∧
          ((∀ e ∈ fr.stop.distance?, -1 ≤ p + e) → rows = fr.spanned sorted p) ∧
          ∀ e ∈ fr.stop.distance?, p + e < -1 → fr.spanned sorted p = [] ∧
            rows = sorted.take (sorted.length + p + e + 1).toNat := by
  have hf := Feature.Built.obeys Rules.ensures_faithful _ built obeys
  have faithful : ∀ tree ∈ history, tree.Obeys (.faithful kinds labels) := fun tree htree =>
    (known tree htree).1.obeys Rules.ensures_faithful (known tree htree).2
  obtain ⟨m, o, hm, -, gives⟩ := (rooted_lawful (backend sources .empty) Rules.faithful_offered.selected
    fun _ _ _ _ => ⟨⟨⟨nofun, trivial⟩, trivial⟩, trivial⟩).feature_compiled (I := rooted _ _)
      (fun _ _ => nofun) faithful hf compiled
  generalize given : Except.ok x = r at gives
  cases gives with
  | @window _ _ _ _ y xs ys hfn hps hos =>
  obtain ⟨z, made, rfl⟩ := map_eq_ok.1 given.symm
  replace made : FeaturePlan.window y xs ys (some fr) = .ok z := made
  have planned : ∀ c ∈ (Feature.window fn ps os (some fr)).children, ∀ y, Remembers m c.key y →
      c.Plans y := fun c hc => plans_of_remembered hm c (hf.children c hc)
  have values : FeaturePlan.windowValues y xs ys (some fr) (.ofData d) = .ok vs :=
    window_values made ▸ evaluated
  obtain ⟨keys, columns, partitions, ordered, parted, grouped, each⟩ := windowValues_eq_ok values
  obtain ⟨terms, directions⟩ := remembered_of_terms hos
  have byColumns : Parted ps os d keys partitions := by
    refine ⟨⟨columns, ?_, grouped⟩, keyed_of_sortKeys (plans_of_each (fun c hc => planned c ?_) terms)
      directions ordered⟩
    · refine (forall₂_through (plans_of_each (fun c hc => planned c ?_) hps) (mapM_eq_ok parted)).imp ?_
      · simp [Feature.children, hc]
      · exact fun _ _ h => h
    · simpa [Feature.children] using .inr (.inr (List.mem_map.1 hc))
  refine ⟨keys, partitions, byColumns, byColumns.perm, fun members hmembers => ?_⟩
  obtain ⟨sorted, arranged, framed⟩ := each members hmembers
  have part : sorted.length < 2 ^ 53 := by
    rw [(arrange_perm arranged).length_eq]
    refine lt_of_le_of_lt ?_ short
    rw [← List.length_range (n := d.length), ← byColumns.perm.length_eq]
    exact (List.sublist_flatten_of_mem hmembers).length_le
  refine ⟨sorted, arranged, arrange_perm arranged, fun p row at_p => ?_⟩
  obtain ⟨rows, ws, frame, value, same⟩ := framed p row at_p
  obtain rfl := Except.ok.inj frame
  have inside := (List.getElem?_eq_some_iff.1 at_p).1
  have aggregated := aggregates_of_plans built.inv_window.2.1
    (planned fn (by simp [Feature.children]) y hfn) value
  have ordered := Frame.ordered_of_check whole (check_of_built built)
  exact ⟨_, same ▸ aggregated, explicitFrame_spanned whole part inside,
    fun e he behind => explicitFrame_wrapped whole ordered part inside he behind⟩

end

/-! ### Scores -/

/-- A table of scores by school. -/
def scored : Source := .table ⟨"scored", [("school", ⟨.primitive .integer, "school"⟩),
  ("score", ⟨.primitive .integer, "score"⟩)]⟩

/-- A field of the table. -/
def scoredField (name : String) : Feature := .element scored name (.primitive .integer)

/-- The data of the table. -/
def scoredData (school score : List Nat) : Dataset :=
  ⟨[⟨"school", some "scored"⟩, ⟨"score", some "scored"⟩],
    [school.map fun n => .number (.ofNat n), score.map fun n => .number (.ofNat n)], school.length⟩

theorem scored_built : scored.Built := .of_distinct rfl

/-- What a row and the one before it in its school score together. -/
theorem framed_rows_of_scores :
    let school := scoredField "school"
    let score := scoredField "score"
    let total : Feature := .expression .sum [score] none
    let frame : Frame := ⟨.rows, .offset (Number.ofNat 1).neg, .current⟩
    let moving : Feature := .window total [school] [.by score .ascending] (some frame)
    let d := scoredData [1, 1, 2, 1] [10, 30, 5, 20]
    frame.Whole ∧ moving.Built ∧ ∃ x t vs, (translatorAfter .empty []).serve (.finish (.feature moving))
        = (.ok (some (.feature x)), t) ∧ x.values (.ofData d) = .ok vs ∧
      vs.map Value.plain = ["10", "50", "5", "30"] ∧
      ∃ keys partitions, Parted [school] [.by score .ascending] d keys partitions ∧
        ∀ members ∈ partitions, ∃ sorted, arrange members keys = .ok sorted ∧
          ∀ (p row : Nat), sorted[p]? = some row →
            total.Aggregates d (frame.spanned sorted p) (item vs row) := by
  intro school score total frame moving d
  have hschool : school.Built := .element scored_built (show scored.get "school" = .ok _ from rfl)
  have hscore : score.Built := .element scored_built (show scored.get "score" = .ok _ from rfl)
  have htotal : total.Built := built_single hscore rfl
  have accepted : frame.check = .ok () := if_neg (by decide +kernel)
  have built : moving.Built := by
    refine @Feature.Built.window total [.feature school] [.term (.by score .ascending)] (some frame) _
      htotal (by simpa using .feature hschool) (by simpa using .term (.by _ hscore)) ?_
    simp only [Feature.windowOf, accepted]
    rfl
  let rules := Rules.structFree.and
    ((Rules.told fun _ => .primitive .integer).and (.labelled fun _ => "scored"))
  have source : scored.Obeys rules := ⟨structFree_table rfl, told_table rfl, by simp [Rules.labelled]⟩
  have field (name : String) : (scoredField name).Obeys rules := ⟨⟨trivial, rfl, rfl⟩, source⟩
  have untyped : ∀ k ∈ (none : Option Kind), k.StructFree := by simp
  have obeys : moving.Obeys rules :=
    ⟨⟨trivial, trivial, trivial⟩, ⟨⟨untyped, trivial, trivial⟩, field _, trivial⟩,
      ⟨field _, trivial⟩, ⟨field _, trivial⟩⟩
  have column : (columnOf ((translatorAfter .empty []).serve (.finish (.feature moving))).1
      (.ofData d)).map (fun vs => vs.map Value.plain) = some ["10", "50", "5", "30"] := by
    decide +kernel
  obtain ⟨x, t, vs, compiled, evaluated, texts⟩ := evaluated_of_columnOf column
  have whole : frame.Whole := ⟨show Number.isWhole _ = true by decide +kernel, trivial⟩
  obtain ⟨keys, partitions, parted, -, each⟩ :=
    framed_rows (by simp) built obeys whole compiled (by decide) evaluated
  refine ⟨whole, built, x, t, vs, compiled, evaluated, texts, keys, partitions, parted,
    fun members hmembers => ?_⟩
  obtain ⟨sorted, arranged, -, framed⟩ := each members hmembers
  refine ⟨sorted, arranged, fun p row at_p => ?_⟩
  obtain ⟨rows, aggregated, spanned, -⟩ := framed p row at_p
  rw [← spanned (by simp [frame, FrameEnd.distance?])]
  exact aggregated

/-- Rows without keys are one partition in their own order. -/
theorem unkeyed_of_parted {d : Dataset} {keys : List SortKey} {partitions : List (List Nat)}
    (h : Parted [] [] d keys partitions) :
    keys = [] ∧ groupRows d.length [] = .ok partitions := by
  obtain ⟨⟨columns, none, grouped⟩, keyed⟩ := h
  obtain rfl := List.forall₂_nil_left_iff.1 none
  exact ⟨List.forall₂_nil_left_iff.1 keyed, grouped⟩

/-- **A frame that ends two rows before the first one holds rows**: from there its end counts from the
end of the partition. -/
theorem frame_wraps :
    let count : Feature := .expression .count [] none
    let frame : Frame := ⟨.rows, .offset (Number.ofNat 3).neg, .offset (Number.ofNat 2).neg⟩
    let before : Feature := .window count [] [] (some frame)
    let d := scoredData [1, 1, 1] [10, 20, 30]
    frame.Whole ∧ before.Built ∧ ∃ x t vs, (translatorAfter .empty []).serve (.finish (.feature before))
        = (.ok (some (.feature x)), t) ∧ x.values (.ofData d) = .ok vs ∧
      vs.map Value.plain = ["2", "0", "1"] ∧
      ¬∃ keys partitions, Parted [] [] d keys partitions ∧
        ∀ members ∈ partitions, ∃ sorted, arrange members keys = .ok sorted ∧
          ∀ (p row : Nat), sorted[p]? = some row →
            count.Aggregates d (frame.spanned sorted p) (item vs row) := by
  intro count frame before d
  have hcount : count.Built := built_count
  have accepted : frame.check = .ok () := if_neg (by decide +kernel)
  have built : before.Built := by
    refine @Feature.Built.window count [] [] (some frame) _ hcount (by simp) (by simp) ?_
    simp only [Feature.windowOf, accepted]
    rfl
  have column : (columnOf ((translatorAfter .empty []).serve (.finish (.feature before))).1
      (.ofData d)).map (fun vs => vs.map Value.plain) = some ["2", "0", "1"] := by
    decide +kernel
  obtain ⟨x, t, vs, compiled, evaluated, texts⟩ := evaluated_of_columnOf column
  have whole : frame.Whole := ⟨show Number.isWhole _ = true by decide +kernel,
    show Number.isWhole _ = true by decide +kernel⟩
  refine ⟨whole, built, x, t, vs, compiled, evaluated, texts, ?_⟩
  rintro ⟨keys, partitions, parted, each⟩
  obtain ⟨rfl, grouped⟩ := unkeyed_of_parted parted
  have one : (groupRows 3 []).toOption = some [List.range 3] := by decide +kernel
  obtain rfl : [List.range 3] = partitions := by
    rw [show groupRows 3 [] = .ok partitions from grouped] at one
    exact (Option.some.inj one).symm
  obtain ⟨sorted, arranged, rows⟩ := each _ (List.mem_singleton_self _)
  obtain rfl : List.range 3 = sorted := Except.ok.inj ((arrange_unkeyed 3).symm.trans arranged)
  obtain ⟨op, args, u, column, same, argument, counted⟩ := rows 0 0 rfl
  obtain ⟨rfl, rfl, -⟩ := Feature.expression.inj same
  obtain rfl : column = none := Option.toList_eq_nil_iff.1 (List.forall₂_nil_left_iff.1 argument)
  have empty : frame.spanned (List.range 3) 0 = [] := by decide +kernel
  rw [empty] at counted
  obtain ⟨v, rest, rfl, two, -⟩ := List.map_eq_cons_iff.1 texts
  obtain rfl : .number (.ofNat 0) = v := Except.ok.inj counted
  exact absurd two (by decide +kernel)

end Evaluation

end QueryAlgebra
