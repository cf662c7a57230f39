import QueryAlgebra.Evaluation.Apply
import QueryAlgebra.Proofs.Number.Signs
import QueryAlgebra.Proofs.Text.Order
import QueryAlgebra.Proofs.Value.Key

/-!
# The order of values

On a scale of values of one type, with the empty value before all others, each value has a place, and
two values compare as their places do. One thing alone falls out of this order: an infinity has no order
with itself, since the difference of the two is not a number.

* `Comparison.ofDifference_sub`: numbers compare as the integers do at which they stand.
* `Scale.Holds`: the values of a scale and their places.
* `valueOrder_of_holds`: how values of one scale compare.
* `valueOrder_flip`: values compared the other way round.
* `Preordered`: values among which the comparison is a total preorder.
* `Scale.preordered`: values of one scale are, unless an infinity is among them.
* `values_of_scale_ordered`: what of a total order holds for the values of a scale.
-/

namespace QueryAlgebra

namespace Evaluation

open Number in
/-- **Numbers compare as the integers do at which they stand**, but an infinity has no order with
itself. -/
theorem Comparison.ofDifference_sub {x y : Number} {u v : Int} (hx : x.position? = some u)
    (hy : y.position? = some v) : Comparison.ofDifference (x.sub y) =
      if x = y ∧ x.isFinite = false then .unordered else .ofOrdering (compare u v) := by
  split
  · rename_i same
    obtain ⟨rfl, endless⟩ := same
    cases x with
    | nan => rfl
    | infinite a => cases a <;> rfl
    | finite a m => cases endless
  · rename_i apart
    have twice : y.neg.neg = y := by cases y <;> simp [neg]
    obtain ⟨p, hp, below, above⟩ := position_add hx (position_neg hy) (by rwa [twice])
    have zero : (Number.ofNat 0).position? = some 0 := by decide +kernel
    have same : compare p 0 = compare u v := by
      rcases lt_trichotomy u v with h | rfl | h
      · rw [Int.compare_eq_lt.2 h, Int.compare_eq_lt.2 (by omega)]
      · rw [Int.compare_eq_eq.2 rfl, Int.compare_eq_eq.2 (by omega)]
      · rw [Int.compare_eq_gt.2 h, Int.compare_eq_gt.2 (by omega)]
    simp only [Comparison.ofDifference, sub, compare?, hp, zero, same]

/-! ### Comparing the other way round -/

theorem Comparison.ofOrdering_swap (o : Ordering) :
    Comparison.ofOrdering o.swap = (Comparison.ofOrdering o).flip := by
  cases o <;> rfl

theorem Comparison.ofDifference_flip (x y : Number) :
    Comparison.ofDifference (y.sub x) = (Comparison.ofDifference (x.sub y)).flip := by
  cases hx : x.position? with
  | none =>
    obtain rfl : x = .nan := by cases x <;> first | rfl | cases hx
    have left : y.sub .nan = .nan := by cases y <;> rfl
    rw [left]
    rfl
  | some u =>
    cases hy : y.position? with
    | none =>
      obtain rfl : y = .nan := by cases y <;> first | rfl | cases hy
      have right : x.sub .nan = .nan := by cases x <;> rfl
      rw [right]
      rfl
    | some v =>
      rw [ofDifference_sub hx hy, ofDifference_sub hy hx]
      by_cases same : x = y ∧ x.isFinite = false
      · rw [if_pos same, if_pos (same.1 ▸ ⟨rfl, same.2⟩)]
        rfl
      · have apart : ¬(y = x ∧ y.isFinite = false) := by
          rintro ⟨rfl, endless⟩
          exact same ⟨rfl, endless⟩
        rw [if_neg same, if_neg apart, ← Comparison.ofOrdering_swap, Int.compare_swap]

theorem compareTexts_flip (s t : String) : compareTexts t s = (compareTexts s t).flip := by
  unfold compareTexts
  by_cases before : Text.before s t = true
  · simp only [before, Text.before_asymm before]
    rfl
  · by_cases behind : Text.before t s = true
    · simp only [before, behind]
      rfl
    · simp only [before, behind]
      rfl

/-- The only fault of a value without a natural order is an invalid date. -/
theorem comparedText_error {v : Value} {f : Fault} (h : comparedText v = .error f) :
    f = .invalidDate := by
  have keyed : ∀ w : Value, rowKey [w] = .error f → f = .invalidDate := fun w h => by
    unfold rowKey at h
    split at h
    · exact (Except.error.inj h).symm
    · cases h
  cases v with
  | text s => cases h
  | _ => exact keyed _ h

/-- **Two values compare the other way round as the same values do**, and fail together. -/
theorem valueOrder_flip (a b : Value) : valueOrder b a = (valueOrder a b).map Comparison.flip := by
  have keyed : (do return compareTexts (← comparedText b) (← comparedText a)) = Except.map Comparison.flip
      (do return compareTexts (← comparedText a) (← comparedText b)) := by
    cases ha : comparedText a with
    | error f =>
      obtain rfl := comparedText_error ha
      cases hb : comparedText b with
      | error g => rw [comparedText_error hb]; rfl
      | ok t => rfl
    | ok s =>
      cases hb : comparedText b with
      | error g => rfl
      | ok t => exact congrArg Except.ok (compareTexts_flip s t)
  have dates : ∀ s t : Option Instant, valueOrder (.date t) (.date s) =
      (valueOrder (.date s) (.date t)).map Comparison.flip := fun s t => by
    cases s with
    | none => cases t <;> rfl
    | some s =>
      cases t with
      | none => rfl
      | some t =>
        refine congrArg Except.ok ?_
        rw [← Comparison.ofOrdering_swap, Int.compare_swap]
  have truths : ∀ s t : Bool, valueOrder (.bool t) (.bool s) =
      (valueOrder (.bool s) (.bool t)).map Comparison.flip := fun s t => by cases s <;> cases t <;> rfl
  have numbers : ∀ x y : Number, valueOrder (.number y) (.number x) =
      (valueOrder (.number x) (.number y)).map Comparison.flip := fun x y =>
    congrArg Except.ok (Comparison.ofDifference_flip x y)
  cases a with
  | null => cases b <;> rfl
  | date s =>
    cases b with
    | null => rfl
    | date t => exact dates s t
    | _ => exact keyed
  | number x =>
    cases b with
    | null => rfl
    | number y => exact numbers x y
    | _ => exact keyed
  | bool s =>
    cases b with
    | null => rfl
    | bool t => exact truths s t
    | _ => exact keyed
  | _ =>
    cases b with
    | null => rfl
    | _ => exact keyed

/-! ### Scales -/

/-- The types whose values have a natural order. -/
inductive Scale where
  | truths | numbers | texts | dates

/-- A scale holds a value at a place, the empty value at the first one. Places are ordered as lists. -/
inductive Scale.Holds : Scale → Value → List Int → Prop where
  | null {s : Scale} : Holds s .null []
  | truth (b : Bool) : Holds .truths (.bool b) [b.toNat]
  | number {n : Number} {u : Int} (h : n.position? = some u) : Holds .numbers (.number n) [u]
  | text (t : String) : Holds .texts (.text t) (0 :: (Text.units t).map Int.ofNat)
  | date (t : Instant) : Holds .dates (.date (some t)) [t.millis]

/-- The value is an infinity. -/
def Endless (v : Value) : Prop := ∃ negative, v = .number (.infinite negative)

/-- How two places compare. -/
def placeOrder (p q : List Int) : Comparison := if p < q then .less else if q < p then .greater else .equal

theorem placeOrder_singleton (u v : Int) : placeOrder [u] [v] = .ofOrdering (compare u v) := by
  have places : ∀ u v : Int, [u] < [v] ↔ u < v := by simp [List.cons_lt_cons_iff]
  simp only [placeOrder, places]
  rcases lt_trichotomy u v with h | rfl | h
  · simp [h, Int.compare_eq_lt.2 h, Comparison.ofOrdering]
  · simp [Comparison.ofOrdering]
  · simp [h, h.not_gt, Int.compare_eq_gt.2 h, Comparison.ofOrdering]

theorem map_ofNat_lt_iff : ∀ {x y : List Nat}, x.map Int.ofNat < y.map Int.ofNat ↔ x < y
  | _, [] => by simp
  | [], _ :: _ => by simp
  | a :: x, b :: y => by
    simp [List.cons_lt_cons_iff, map_ofNat_lt_iff (x := x) (y := y)]

theorem compareTexts_eq (s t : String) : compareTexts s t =
    placeOrder (0 :: (Text.units s).map Int.ofNat) (0 :: (Text.units t).map Int.ofNat) := by
  have before : ∀ s t : String, 0 :: (Text.units s).map Int.ofNat < 0 :: (Text.units t).map Int.ofNat ↔
      Text.before s t = true := fun s t => by
    rw [List.cons_lt_cons_iff, map_ofNat_lt_iff, Text.before_iff]
    simp
  simp only [compareTexts, placeOrder, before]

/-- **Values of one scale compare as their places do**, but an infinity has no order with itself. -/
theorem valueOrder_of_holds {s : Scale} {a b : Value} {p q : List Int} (ha : s.Holds a p)
    (hb : s.Holds b q) (apart : ¬(a = b ∧ Endless a)) :
    valueOrder a b = .ok (placeOrder p q) := by
  cases ha with
  | null => cases hb <;> rfl
  | truth x =>
    cases hb with
    | null => rfl
    | truth y => cases x <;> cases y <;> rfl
  | number hx =>
    cases hb with
    | null => rfl
    | number hy =>
      rw [placeOrder_singleton]
      refine congrArg Except.ok ((Comparison.ofDifference_sub hx hy).trans (if_neg ?_))
      rintro ⟨rfl, endless⟩
      refine apart ⟨rfl, ?_⟩
      rename_i n _ _
      cases n with
      | nan => cases hx
      | infinite negative => exact ⟨negative, rfl⟩
      | finite negative m => cases endless
  | text x =>
    cases hb with
    | null => rfl
    | text y => exact congrArg Except.ok (compareTexts_eq x y)
  | date x =>
    cases hb with
    | null => rfl
    | date y => rw [placeOrder_singleton]; rfl

theorem valueOrder_endless {a : Value} (h : Endless a) : valueOrder a a = .ok .unordered := by
  obtain ⟨negative, rfl⟩ := h
  cases negative <;> rfl

theorem placeOrder_eq_equal_iff {p q : List Int} : placeOrder p q = .equal ↔ p = q := by
  unfold placeOrder
  rcases lt_trichotomy p q with h | rfl | h
  · simp [h, h.ne]
  · simp
  · simp [h, h.not_gt, h.ne']

/-- Values stand at one place exactly when they differ at most in the sign of a zero. -/
theorem Scale.Holds.place_eq_iff {s : Scale} {a b : Value} {p q : List Int} (ha : s.Holds a p)
    (hb : s.Holds b q) : p = q ↔ a.canonical = b.canonical := by
  cases ha with
  | null => cases hb <;> simp [Value.canonical]
  | truth x =>
    cases hb with
    | null => simp [Value.canonical]
    | truth y => cases x <;> cases y <;> simp [Value.canonical]
  | number hx =>
    cases hb with
    | null => simp [Value.canonical]
    | number hy => simpa [Value.canonical] using Number.position_eq_iff hx hy
  | text x =>
    cases hb with
    | null => simp [Value.canonical]
    | text y =>
      have units : (Text.units x).map Int.ofNat = (Text.units y).map Int.ofNat ↔ x = y :=
        ⟨fun h => Text.units_injective (List.map_injective_iff.2 (fun _ _ => Int.ofNat.inj) h),
          fun h => h ▸ rfl⟩
      simpa [Value.canonical] using units
  | date x =>
    cases hb with
    | null => simp [Value.canonical]
    | date y => cases x; cases y; simp [Value.canonical]

/-! ### Total preorders -/

/-- The first value is not behind the second one. -/
def AtMost (a b : Value) : Prop := valueOrder a b = .ok .less ∨ valueOrder a b = .ok .equal

/-- The comparison of the values is a total preorder. -/
structure Preordered (vs : Value → Prop) : Prop where
  total : ∀ a b, vs a → vs b → AtMost a b ∨ AtMost b a
  trans : ∀ a b c, vs a → vs b → vs c → AtMost a b → AtMost b c → AtMost a c

theorem Preordered.mono {vs ws : Value → Prop} (order : Preordered ws) (h : ∀ v, vs v → ws v) :
    Preordered vs where
  total a b ha hb := order.total a b (h a ha) (h b hb)
  trans a b c ha hb hc := order.trans a b c (h a ha) (h b hb) (h c hc)

theorem atMost_of_equal {a b : Value} (h : valueOrder a b = .ok .equal) : AtMost b a :=
  .inr (by rw [valueOrder_flip, h]; rfl)

/-- Values are equal if each is at most the other. -/
theorem equal_iff_atMost {a b : Value} : valueOrder a b = .ok .equal ↔ AtMost a b ∧ AtMost b a := by
  constructor
  · exact fun h => ⟨.inr h, atMost_of_equal h⟩
  · rintro ⟨h | h, back⟩
    · rw [AtMost, valueOrder_flip, h] at back
      rcases back with back | back <;> cases back
    · exact h

/-- The one value is before the other if that one is not at most the first. -/
theorem Preordered.less_iff {vs : Value → Prop} (order : Preordered vs) {a b : Value} (ha : vs a)
    (hb : vs b) : valueOrder a b = .ok .less ↔ ¬AtMost b a := by
  constructor
  · intro h back
    rw [AtMost, valueOrder_flip, h] at back
    rcases back with back | back <;> cases back
  · intro h
    rcases (order.total a b ha hb).resolve_right h with less | equal
    · exact less
    · exact absurd (atMost_of_equal equal) h

theorem atMost_iff {s : Scale} {a b : Value} {p q : List Int} (ha : s.Holds a p) (hb : s.Holds b q) :
    AtMost a b ↔ p ≤ q ∧ ¬(a = b ∧ Endless a) := by
  by_cases apart : a = b ∧ Endless a
  · obtain ⟨rfl, endless⟩ := apart
    simp [AtMost, valueOrder_endless endless, endless]
  · rw [AtMost, valueOrder_of_holds ha hb apart, ← not_lt]
    unfold placeOrder
    rcases lt_trichotomy p q with h | rfl | h
    · simp [h, h.not_gt, apart]
    · simp [apart]
    · simp [h, h.not_gt, apart]

/-- **The values of one scale are in a total preorder**, unless an infinity is among them. -/
theorem Scale.preordered (s : Scale) :
    Preordered fun v => (∃ p, s.Holds v p) ∧ ¬Endless v where
  total := by
    rintro a b ⟨⟨p, ha⟩, bounded⟩ ⟨⟨q, hb⟩, bounded'⟩
    rw [atMost_iff ha hb, atMost_iff hb ha]
    exact (le_total p q).imp (fun h => ⟨h, fun same => bounded same.2⟩)
      fun h => ⟨h, fun same => bounded' same.2⟩
  trans := by
    rintro a b c ⟨⟨p, ha⟩, bounded⟩ ⟨⟨q, hb⟩, -⟩ ⟨⟨r, hc⟩, -⟩ ab bc
    rw [atMost_iff ha hb] at ab
    rw [atMost_iff hb hc] at bc
    exact (atMost_iff ha hc).2 ⟨ab.1.trans bc.1, fun same => bounded same.2⟩

/-- A value in which no date is invalid is equal to itself, unless it is an infinity or not a number. -/
theorem valueOrder_self {v : Value} (known : v ≠ .number .nan) (valid : v.hasInvalidDate = false)
    (bounded : ¬Endless v) : valueOrder v v = .ok .equal := by
  have texts : ∀ t : String, compareTexts t t = .equal := fun t => by
    rw [compareTexts_eq, placeOrder, if_neg (lt_irrefl _), if_neg (lt_irrefl _)]
  have keyed : (do return compareTexts (← rowKey [v]) (← rowKey [v])) =
      (.ok .equal : Except Fault Comparison) := by
    have key : rowKey [v] = .ok (Value.tupleKey [v]) := if_neg (by simp [valid])
    rw [key]
    exact congrArg Except.ok (texts _)
  cases v with
  | null => rfl
  | bool b => cases b <;> rfl
  | number n =>
    cases hn : n.position? with
    | none =>
      cases n with
      | nan => exact absurd rfl known
      | infinite negative => cases hn
      | finite negative m => cases hn
    | some u =>
      rw [valueOrder_of_holds (.number hn) (.number hn) fun same => bounded same.2, placeOrder,
        if_neg (lt_irrefl _), if_neg (lt_irrefl _)]
  | text t => exact congrArg Except.ok (texts t)
  | date t =>
    cases t with
    | none => cases valid
    | some t =>
      rw [valueOrder_of_holds (.date t) (.date t) fun same => bounded same.2, placeOrder,
        if_neg (lt_irrefl _), if_neg (lt_irrefl _)]
  | _ => exact keyed

/-- What a comparison operator makes of two values that are not empty. -/
theorem applyOperator_of_order {op : Operator} (h : op.group = .comparison) {a b : Value}
    (ha : a.isNull = false) (hb : b.isNull = false) (kind : Kind) :
    applyOperator op [a, b] kind = valueOrder a b >>= outcome op := by
  cases op <;> first | simp [applyOperator, applyPresent, ha, hb, h]; done | cases h

/-- An infinity is told from all other values by what is left of it without signs of zeros. -/
theorem Endless.eq_of_canonical {a b : Value} (h : Endless a) (same : a.canonical = b.canonical) :
    a = b := by
  obtain ⟨negative, rfl⟩ := h
  cases b <;> simp only [Value.canonical, reduceCtorEq, Value.number.injEq] at same
  exact congrArg Value.number (Number.eq_infinite_of_unsignedZero same.symm).symm

/-- **The values of one scale are in a total order, in which an infinity alone has no place beside
itself**: the comparison of two values is the reverse of the comparison the other way round, it finds
equal what differs at most in the sign of a zero, and it is transitive. So every value is equal to
itself for the operators, and no infinity is. -/
theorem values_of_scale_ordered {s : Scale} {a b c : Value} {p q r : List Int} (ha : s.Holds a p)
    (hb : s.Holds b q) (hc : s.Holds c r) :
    (∃ o, valueOrder a b = .ok o ∧ valueOrder b a = .ok o.flip ∧
      (o = .unordered ↔ a = b ∧ Endless a) ∧
      (o = .equal ↔ a.canonical = b.canonical ∧ ¬Endless a)) ∧
    (AtMost a b → AtMost b c → AtMost a c) ∧
    ∀ (v : Value) (kind : Kind), v.isNull = false → v ≠ .number .nan → v.hasInvalidDate = false →
      ∃ same : Bool, (same = true ↔ ¬Endless v) ∧
        applyOperator .eq [v, v] kind = .ok (.bool same) ∧
        applyOperator .le [v, v] kind = .ok (.bool same) ∧
        applyOperator .ge [v, v] kind = .ok (.bool same) ∧
        applyOperator .ne [v, v] kind = .ok (.bool !same) := by
  refine ⟨?_, fun ab bc => ?_, fun v kind present known valid => ?_⟩
  · by_cases apart : a = b ∧ Endless a
    · obtain ⟨rfl, endless⟩ := apart
      exact ⟨.unordered, valueOrder_endless endless, valueOrder_endless endless, by simp [endless],
        by simp [endless]⟩
    · have order := valueOrder_of_holds ha hb apart
      refine ⟨placeOrder p q, order, by rw [valueOrder_flip, order]; rfl, ?_, ?_⟩
      · simp only [apart, iff_false]
        unfold placeOrder
        split <;> [skip; split] <;> simp
      · rw [placeOrder_eq_equal_iff, ha.place_eq_iff hb]
        exact ⟨fun same => ⟨same, fun endless => apart ⟨endless.eq_of_canonical same, endless⟩⟩,
          fun same => same.1⟩
  · obtain ⟨first, apart⟩ := (atMost_iff ha hb).1 ab
    obtain ⟨second, -⟩ := (atMost_iff hb hc).1 bc
    refine (atMost_iff ha hc).2 ⟨first.trans second, ?_⟩
    rintro ⟨rfl, endless⟩
    -- A value between an infinity and itself is that infinity.
    have ends : p = r := (ha.place_eq_iff hc).2 rfl
    have between : p = q := le_antisymm first (ends ▸ second)
    exact apart ⟨endless.eq_of_canonical ((ha.place_eq_iff hb).1 between), endless⟩
  · have self : ∀ op : Operator, op.group = .comparison →
        applyOperator op [v, v] kind = valueOrder v v >>= outcome op := fun op h =>
      applyOperator_of_order h present present kind
    by_cases endless : Endless v
    · refine ⟨false, by simp [endless], ?_⟩
      rw [self .eq rfl, self .le rfl, self .ge rfl, self .ne rfl, valueOrder_endless endless]
      exact ⟨rfl, rfl, rfl, rfl⟩
    · refine ⟨true, by simp [endless], ?_⟩
      rw [self .eq rfl, self .le rfl, self .ge rfl, self .ne rfl, valueOrder_self known valid endless]
      exact ⟨rfl, rfl, rfl, rfl⟩

/-- The two zeros are equal and stand before an infinity; each is equal to itself. -/
theorem values_of_scale_ordered_zeros :
    let zero : Value := .number (.ofNat 0)
    let negative : Value := .number (Number.ofNat 0).neg
    let endless : Value := .number (.infinite false)
    (Scale.numbers.Holds zero [0] ∧ Scale.numbers.Holds negative [0] ∧
      Scale.numbers.Holds endless [stepsLimit]) ∧
    valueOrder zero negative = .ok .equal ∧
    applyOperator .eq [negative, negative] (.primitive .float) = .ok (.bool true) ∧
    (AtMost zero negative → AtMost negative endless → AtMost zero endless) := by
  have zero : (Number.ofNat 0).position? = some 0 := by decide +kernel
  have negative := Number.position_neg zero
  have bounded : ∀ {n : Number}, n.isFinite = true → ¬Endless (.number n) := by
    rintro n finite ⟨s, h⟩
    cases Value.number.inj h
    cases finite
  refine ⟨⟨.number zero, .number negative, .number rfl⟩, ?_⟩
  obtain ⟨⟨o, order, -, -, equal⟩, trans, self⟩ := values_of_scale_ordered (.number zero)
    (.number negative) (.number (n := .infinite false) rfl)
  have same : o = .equal := equal.2 ⟨congrArg Value.number (by decide +kernel),
    bounded (by decide +kernel)⟩
  obtain ⟨b, holds, eq, -⟩ := self (.number (Number.ofNat 0).neg) (.primitive .float) rfl
    (fun h => absurd (congrArg Number.isFinite (Value.number.inj h)) (by decide +kernel)) rfl
  refine ⟨same ▸ order, ?_, trans⟩
  rwa [holds.2 (bounded (by decide +kernel))] at eq

/-- **An infinity is not equal to itself**, neither for the comparison nor for the operators. -/
theorem infinity_unordered :
    Scale.numbers.Holds (.number (.infinite false)) [stepsLimit] ∧
    valueOrder (.number (.infinite false)) (.number (.infinite false)) = .ok .unordered ∧
    ¬AtMost (.number (.infinite false)) (.number (.infinite false)) ∧
    applyOperator .eq [.number (.infinite false), .number (.infinite false)] (.primitive .float) =
      .ok (.bool false) :=
  ⟨.number rfl, rfl, fun h => h.elim nofun nofun, rfl⟩

end Evaluation

end QueryAlgebra
