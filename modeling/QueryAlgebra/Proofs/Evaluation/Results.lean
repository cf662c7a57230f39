import QueryAlgebra.Proofs.Evaluation.Truth
import QueryAlgebra.Proofs.Kind.Admits

/-!
# The kinds of results

What an operator gives for values of its arguments is a natural value of the kind that was inferred
for it. Only fractions can come through to a result of kind Integer: of kinds that rank alike the first
is the widest, so integers with decimals are integers, and so is the average of integers.

* `Operator.carries`: the operators that let fractions through.
* `Operator.valueKind`: the kind of the values of a result.
* `applyOperator_covers`: row-wise operators give values of that kind.
* `summarize_covers`: so do aggregates.
-/

namespace QueryAlgebra

open Evaluation

namespace Operator

variable {op : Operator} {ks : List Kind} {k : Kind}

/-- Whether the result has a fraction if the arguments have. -/
def carries : Operator → Bool
  | .add | .sub | .mul | .mod | .min | .max | .sum | .abs => true
  | _                                                     => false

/-- The kind of the values of a result of kind `k` whose arguments have values of kinds `ks`. The
numbers of a kind of integers need not be whole where a fraction comes through. -/
def valueKind (op : Operator) (ks : List Kind) (k : Kind) : Kind :=
  if op == .avg || op.carries && !ks.all Kind.isInteger then k.loosened else k

theorem isNumeric_valueKind (op : Operator) (ks : List Kind) (k : Kind) :
    (op.valueKind ks k).isNumeric = k.isNumeric := by
  unfold valueKind
  split
  · exact k.isNumeric_loosened
  · rfl

/-- Where the values are whole by their kind, no fraction comes through. -/
theorem whole_of_valueKind (h : (op.valueKind ks k).isInteger = true) :
    k.isInteger = true ∧ op ≠ .avg ∧ (op.carries = true → ∀ l ∈ ks, l.isInteger = true) := by
  unfold valueKind at h
  split at h
  · simp at h
  · rename_i tight
    simp only [Bool.or_eq_true, beq_iff_eq, Bool.and_eq_true, Bool.not_eq_true', not_or, not_and,
      Bool.not_eq_false, List.all_eq_true] at tight
    exact ⟨h, tight.1, tight.2⟩

/-- Where no fraction comes through, the values are of the very kind that was inferred. -/
theorem valueKind_of_whole (op : Operator) {ks : List Kind} {k : Kind} (mean : op ≠ .avg)
    (whole : op.carries = true → ∀ l ∈ ks, l.isInteger = true) : op.valueKind ks k = k := by
  refine if_neg ?_
  simp only [Bool.or_eq_true, beq_iff_eq, Bool.and_eq_true, Bool.not_eq_true', not_or, not_and,
    Bool.not_eq_false, List.all_eq_true]
  exact ⟨mean, whole⟩

/-- Tests and casts give values of the very kind that was inferred. -/
theorem valueKind_of_tests (tests : op.tests = true) : op.valueKind ks k = k := by
  cases op <;> first | rfl | cases tests

/-- A number is a natural value of the result if it is whole where no fraction comes through. -/
theorem covers_of_amount {v : Value} (numeric : k.isNumeric = true) {whole : Prop}
    (h : v.IsAmount (k.isInteger = true ∧ op ≠ .avg ∧ (op.carries = true → whole)))
    (arguments : (∀ l ∈ ks, l.isInteger = true) → whole) : (op.valueKind ks k).Covers v := by
  refine (Kind.covers_iff_amount ((isNumeric_valueKind op ks k).trans numeric)).2 (h.mono ?_)
  intro integer
  obtain ⟨kind, mean, tight⟩ := whole_of_valueKind integer
  exact ⟨kind, mean, fun carries => arguments (tight carries)⟩

end Operator

namespace Evaluation

variable {op : Operator} {kinds ks : List Kind} {k : Kind} {t : Option Kind} {repr : String}
  {v : Value} {vs : List Value}

theorem amountOf_eq_ok {n : Number} (h : amountOf op v = .ok n) : v = .number n := by
  cases v with
  | number m => exact congrArg Value.number (Except.ok.inj h)
  | _ => cases h

/-! ### Row-wise operators -/

/-- Arithmetic gives a number, or an empty value for a division by zero. -/
theorem calculate_amount {a b : Number} (h : calculate op a b k = .ok v) :
    v.IsAmount (k.isInteger = true ∧ (op.carries = true → a.Integral ∧ b.Integral)) := by
  unfold calculate at h
  split at h
  · exact .inr ⟨_, (Except.ok.inj h).symm, fun whole => (whole.2 rfl).1.add (whole.2 rfl).2⟩
  · exact .inr ⟨_, (Except.ok.inj h).symm, fun whole => (whole.2 rfl).1.sub (whole.2 rfl).2⟩
  · exact .inr ⟨_, (Except.ok.inj h).symm, fun whole => (whole.2 rfl).1.mul (whole.2 rfl).2⟩
  · split at h
    · exact .inl (Except.ok.inj h).symm
    · refine .inr ⟨_, (Except.ok.inj h).symm, fun whole => ?_⟩
      rw [Kind.eq_of_isInteger whole.1]
      exact Number.integral_trunc _
  · split at h
    · exact .inl (Except.ok.inj h).symm
    · exact .inr ⟨_, (Except.ok.inj h).symm, fun whole => (whole.2 rfl).1.rem (whole.2 rfl).2⟩
  · cases h

theorem yearOf_amount (h : yearOf op v = .ok w) : w.IsAmount True := by
  cases v with
  | date d =>
    cases d with
    | some d => exact .inr ⟨_, (Except.ok.inj h).symm, fun _ => Number.integral_ofInt _⟩
    | none => exact .inr ⟨_, (Except.ok.inj h).symm, fun _ => .nan⟩
  | _ => cases h

theorem mem_of_getD {n : Number} {i : Nat} (h : vs.getD i .absent = .number n) :
    Value.number n ∈ vs := by
  rw [List.getD_eq_getElem?_getD] at h
  cases item : vs[i]? with
  | none => simp [item] at h
  | some w =>
    rw [item, Option.getD_some] at h
    exact h ▸ List.mem_of_getElem? item

/-- The operators that compute give numbers. -/
theorem applyOperator_amount (computes : op.tests = false) (single : op.aggregates = false)
    (h : applyOperator op vs k = .ok v) :
    v.IsAmount (k.isInteger = true ∧ op ≠ .avg ∧
      (op.carries = true → ∀ n, Value.number n ∈ vs → n.Integral)) := by
  have present : applyPresent op vs k = .ok v → v.IsAmount (k.isInteger = true ∧ op ≠ .avg ∧
      (op.carries = true → ∀ n, Value.number n ∈ vs → n.Integral)) := by
    intro h
    unfold applyPresent at h
    generalize hgroup : op.group = g at h
    cases g with
    | arithmetic =>
      obtain ⟨a, ha, h⟩ := bind_eq_ok.1 h
      obtain ⟨b, hb, h⟩ := bind_eq_ok.1 h
      refine (calculate_amount h).mono fun ⟨integer, _, whole⟩ => ⟨integer, fun carries => ?_⟩
      exact ⟨whole carries a (mem_of_getD (amountOf_eq_ok ha)),
        whole carries b (mem_of_getD (amountOf_eq_ok hb))⟩
    | temporal => exact (yearOf_amount h).mono fun _ => trivial
    | math =>
      dsimp only at h
      split at h
      · cases hgroup
      · obtain ⟨a, ha, h⟩ := bind_eq_ok.1 h
        refine .inr ⟨_, (pure_eq_ok.1 h).symm, fun ⟨_, _, whole⟩ => ?_⟩
        exact (whole rfl a (mem_of_getD (amountOf_eq_ok ha))).abs
      · obtain ⟨a, ha, h⟩ := bind_eq_ok.1 h
        exact .inr ⟨_, (pure_eq_ok.1 h).symm, fun _ => a.integral_ceil⟩
      · obtain ⟨a, ha, h⟩ := bind_eq_ok.1 h
        exact .inr ⟨_, (pure_eq_ok.1 h).symm, fun _ => a.integral_floor⟩
      · exact absurd h throw_ne_ok
    | aggregate => simp [Operator.aggregates, hgroup] at single
    | _ => simp [Operator.tests, hgroup] at computes
  unfold applyOperator at h
  split at h
  case h_5 =>
    split at h
    · exact .inl (Except.ok.inj h).symm
    · exact present h
  all_goals cases computes

/-- The value of a row for an argument: a natural one of a kind, empty, or missing where the column of
the argument is too short. -/
def Fits (l : Kind) (v : Value) : Prop := v = .absent ∨ l.Covers v

theorem whole_of_fits (fits : List.Forall₂ Fits ks vs) (integers : ∀ l ∈ ks, l.isInteger = true) :
    ∀ n, Value.number n ∈ vs → n.Integral := by
  intro n hn
  refine forall_of_forall₂ (Q := fun v => ∀ n, v = .number n → n.Integral) ?_ fits integers _ hn n
    rfl
  rintro l v (rfl | cover) integer n number
  · cases number
  · rw [Kind.eq_of_isInteger integer] at cover
    obtain rfl | ⟨m, rfl, whole⟩ := (Kind.covers_iff_amount rfl).1 cover
    · cases number
    · exact Value.number.inj number ▸ whole rfl

/-- **Row-wise operators give natural values of the kind of their results.** -/
theorem applyOperator_covers (check : op.check kinds t repr = .ok ())
    (free : ∀ l ∈ t, l.StructFree) (single : op.aggregates = false)
    (fits : List.Forall₂ Fits ks vs) (h : applyOperator op vs (op.resultKind kinds t) = .ok v) :
    (op.valueKind ks (op.resultKind kinds t)).Covers v := by
  cases tests : op.tests with
  | false =>
    exact Operator.covers_of_amount (Operator.resultKind_numeric check tests)
      (applyOperator_amount tests single h) (whole_of_fits fits)
  | true =>
    -- A cast gives what it is asked for, and all other tests give truth values.
    rw [Operator.valueKind_of_tests tests]
    by_cases cast : op = .cast
    · subst cast
      cases t with
      | none => cases check
      | some target =>
        have h : (if vs.any Value.isNull then .ok .null
            else target.cast (vs.getD 0 .absent)) = Except.ok v := h
        split at h
        · exact .inl (Except.ok.inj h).symm
        · exact .inr (Kind.cast_admits (free target rfl) h)
    · have boolean : op.resultKind kinds t = .primitive .boolean := by
        cases op <;> first | rfl | exact absurd rfl cast | cases tests
      rw [boolean] at h ⊢
      obtain rfl | ⟨b, rfl⟩ := applyOperator_truth tests (fun _ => rfl) h
      · exact .inl rfl
      · exact .inr trivial

/-! ### Aggregates -/

/-- The extremum of values is one of them. -/
theorem extremum_mem {wanted : Comparison} : ∀ {vs : List Value} {best v : Value},
    extremum wanted best vs = .ok v → v ∈ best :: vs
  | [], best, v, h => by
    obtain rfl := Except.ok.inj h
    exact List.mem_singleton_self _
  | w :: r, best, v, h => by
    obtain ⟨order, -, h⟩ := bind_eq_ok.1 h
    split at h
    · exact List.mem_cons_of_mem _ (extremum_mem h)
    · rcases List.mem_cons.1 (extremum_mem h) with rfl | rest
      · exact List.mem_cons_self
      · exact List.mem_cons_of_mem _ (List.mem_cons_of_mem _ rest)

/-- A sum of whole numbers is whole. -/
theorem total_integral {n : Number} (h : total op vs = .ok n)
    (whole : ∀ m, Value.number m ∈ vs → m.Integral) : n.Integral := by
  have sum : ∀ {vs : List Value} {acc n : Number}, acc.Integral →
      (∀ m, Value.number m ∈ vs → m.Integral) →
      vs.foldlM (fun acc v => do return acc.add (← amountOf op v)) acc = .ok n → n.Integral := by
    intro vs
    induction vs with
    | nil => exact fun hacc _ h => pure_eq_ok.1 h ▸ hacc
    | cons w r ih =>
      intro acc n hacc whole h
      rw [List.foldlM_cons] at h
      obtain ⟨next, added, h⟩ := bind_eq_ok.1 h
      obtain ⟨m, amount, added⟩ := bind_eq_ok.1 added
      obtain rfl := pure_eq_ok.1 added
      obtain rfl := amountOf_eq_ok amount
      exact ih (hacc.add (whole m List.mem_cons_self))
        (fun l hl => whole l (List.mem_cons_of_mem _ hl)) h
  exact sum (Number.integral_ofNat 0) whole h

/-- Aggregates of numbers give numbers. A count is whole whatever is counted, and a sum has found no
value missing. -/
theorem summarize_amount {values? : Option (List Value)} {size : Nat} {whole : Prop}
    (numbers : op ≠ .count → ∀ ws ∈ values?, ∀ w ∈ ws, w = .absent ∨ w.IsAmount whole)
    (there : op = .min ∨ op = .max → ∀ ws ∈ values?, Value.absent ∉ ws)
    (h : summarize op values? size = .ok v) :
    v.IsAmount (op ≠ .avg ∧ (op.carries = true → whole)) := by
  by_cases count : op = .count
  · subst count
    exact .inr ⟨_, (Except.ok.inj h).symm, fun _ => Number.integral_ofNat _⟩
  · have each : ∀ w ∈ (values?.getD []).filter fun v => !v.isNull,
        (w = .absent ∨ w.IsAmount whole) ∧ (op = .min ∨ op = .max → w ≠ .absent) := by
      intro w hw
      obtain ⟨hw, -⟩ := List.mem_filter.1 hw
      cases values? with
      | none => cases hw
      | some ws => exact ⟨numbers count ws rfl w hw, fun least missing =>
          there least ws rfl (missing ▸ hw)⟩
    unfold summarize at h
    dsimp only at h
    generalize (values?.getD []).filter (fun v => !v.isNull) = present at *
    -- A sum needs all numbers to be whole, an extremum is one of the values itself.
    have integral (all : whole) : ∀ n, Value.number n ∈ present → n.Integral := by
      intro n hn
      obtain missing | null | ⟨m, number, integral⟩ := (each _ hn).1
      · cases missing
      · cases null
      · exact Value.number.inj number ▸ integral all
    have best {wanted : Comparison} {w : Value} {r : List Value} (least : op = .min ∨ op = .max)
        (carries : op.carries = true) (items : present = w :: r)
        (h : extremum wanted w r = .ok v) :
        v.IsAmount (op ≠ .avg ∧ (op.carries = true → whole)) := by
      obtain ⟨fits, found⟩ := each v (items ▸ extremum_mem h)
      exact (fits.resolve_left (found least)).mono fun tight => tight.2 carries
    split at h
    · exact absurd rfl count
    · split at h
      · exact .inl (Except.ok.inj h).symm
      · split at h
        · exact best (.inl rfl) rfl rfl h
        · exact best (.inr rfl) rfl rfl h
        · obtain ⟨n, sum, h⟩ := bind_eq_ok.1 h
          exact .inr ⟨n, (pure_eq_ok.1 h).symm, fun tight =>
            total_integral sum (integral (tight.2 rfl))⟩
        · obtain ⟨n, sum, h⟩ := bind_eq_ok.1 h
          exact .inr ⟨_, (pure_eq_ok.1 h).symm, fun tight => absurd rfl tight.1⟩
        · cases h

/-- **Aggregates give natural values of the kind of their results.** -/
theorem summarize_covers (check : op.check kinds t repr = .ok ()) (aggregates : op.aggregates = true)
    {values? : Option (List Value)} {size : Nat}
    (numbers : op ≠ .count → ∀ ws ∈ values?, ∀ w ∈ ws,
      w = .absent ∨ w.IsAmount (∀ l ∈ ks, l.isInteger = true))
    (there : op = .min ∨ op = .max → ∀ ws ∈ values?, Value.absent ∉ ws)
    (h : summarize op values? size = .ok v) :
    (op.valueKind ks (op.resultKind kinds t)).Covers v := by
  have computes : op.tests = false := by
    cases op <;> first | rfl | cases aggregates
  exact Operator.covers_of_amount (Operator.resultKind_numeric check computes)
    ((summarize_amount numbers there h).mono And.right) id

end Evaluation

end QueryAlgebra
