import QueryAlgebra.Kind.Cast
import QueryAlgebra.Proofs.Keyed
import QueryAlgebra.Proofs.Kind.Key
import QueryAlgebra.Proofs.Number.Integral
import QueryAlgebra.Proofs.Tree.Built

/-!
# Natural values of kinds

* `Kind.Admits`: the natural values of a kind, where numbers of kind Integer are whole.
* `Kind.loosened`: the kind of numbers that need not be whole.
* `Value.IsAmount`, `Kind.covers_iff_amount`: the natural values of numeric kinds.
* `Kind.cast_admits`: casting to a kind gives a natural value of it.
-/

namespace QueryAlgebra

/-! ### Natural values -/

/-- The natural values of a primitive kind. Integers are whole, unless they have grown too large to
be finite. -/
def Primitive.Admits : Primitive → Value → Prop
  | .boolean,   .bool _   => True
  | .integer,   .number n => n.Integral
  | .float,     .number _ => True
  | .decimal,   .number _ => True
  | .string,    .text _   => True
  | .date,      .date _   => True
  | .timestamp, .date _   => True
  | _,          _         => False

namespace Kind

/-- The natural values of a kind without structs. -/
def Admits : Kind → Value → Prop
  | .primitive p, v           => p.Admits v
  | .array e,     .list items => ∀ v ∈ items, e.Admits v
  | .map k e,     .dict es    => ∀ x ∈ es, k.Admits x.1 ∧ e.Admits x.2
  | _,            _           => False

/-- The value is empty, or a natural one of the kind. -/
def Covers (k : Kind) (v : Value) : Prop := v = .null ∨ k.Admits v

def isInteger : Kind → Bool
  | .primitive .integer => true
  | _                   => false

/-- The kind with numbers that need not be whole. -/
def loosened (k : Kind) : Kind := if k.isInteger then .primitive .float else k

theorem eq_of_isInteger {k : Kind} (h : k.isInteger = true) : k = .primitive .integer := by
  unfold isInteger at h
  split at h
  · rfl
  · cases h

@[simp]
theorem isInteger_loosened (k : Kind) : k.loosened.isInteger = false := by
  unfold loosened
  split
  · rfl
  · simpa using ‹¬k.isInteger = true›

@[simp]
theorem isNumeric_loosened (k : Kind) : k.loosened.isNumeric = k.isNumeric := by
  unfold loosened
  split
  · rename_i integer
    rw [eq_of_isInteger integer]
    rfl
  · rfl

end Kind

/-- The value is empty or a number, which is whole under a condition. -/
def Value.IsAmount (whole : Prop) (v : Value) : Prop :=
  v = .null ∨ ∃ n, v = .number n ∧ (whole → n.Integral)

theorem Value.IsAmount.mono {p q : Prop} {v : Value} (h : v.IsAmount p) (w : q → p) :
    v.IsAmount q := by
  obtain rfl | ⟨n, rfl, whole⟩ := h
  · exact .inl rfl
  · exact .inr ⟨n, rfl, fun hq => whole (w hq)⟩

namespace Kind

/-- **The natural values of a numeric kind** are the numbers, which are whole if the kind is Integer. -/
theorem covers_iff_amount {k : Kind} {v : Value} (numeric : k.isNumeric = true) :
    k.Covers v ↔ v.IsAmount (k.isInteger = true) := by
  refine or_congr_right ⟨fun h => ?_, ?_⟩
  · cases k with
    | primitive p =>
      cases v with
      | number n =>
        refine ⟨n, rfl, fun integer => ?_⟩
        obtain rfl := Kind.primitive.inj (eq_of_isInteger integer)
        exact h
      | _ => cases p <;> first | exact h.elim | exact absurd numeric (by decide)
    | _ => cases numeric
  · rintro ⟨n, rfl, whole⟩
    cases k with
    | primitive p =>
      cases p with
      | integer => exact whole rfl
      | float => trivial
      | decimal => trivial
      | _ => cases numeric
    | _ => cases numeric

/-! ### Casting -/

theorem Admits.asKey {k : Kind} {v : Value} (h : k.Admits v) : k.Admits v.asKey := by
  cases v with
  | number n =>
    cases k with
    | primitive p =>
      cases p with
      | integer => exact Number.Integral.unsignedZero h
      | _ => exact h
    | _ => exact h
  | _ => exact h

theorem cast?_admits {p : Primitive} {v w : Value} (h : p.cast? v = some w) : p.Admits w := by
  cases p <;> simp only [Primitive.cast?, Option.map_eq_some_iff, Option.some.injEq] at h
  case boolean => exact h ▸ trivial
  case integer =>
    obtain ⟨n, -, rfl⟩ := h
    exact n.integral_trunc
  case string => exact h ▸ trivial
  all_goals
    obtain ⟨_, -, rfl⟩ := h
    trivial

/-- **Casting to a kind gives a natural value of it.** -/
theorem cast_admits : ∀ {k : Kind}, k.StructFree → ∀ {v w : Value}, k.cast v = .ok w → k.Admits w
  | .primitive p, _, v, w, h => by
    unfold cast at h
    split at h
    · exact Except.ok.inj h ▸ cast?_admits ‹_›
    · exact absurd h refuse_ne_ok
  | .array e, free, v, w, h => by
    unfold cast at h
    split at h
    · obtain ⟨items, hitems, h⟩ := bind_eq_ok.1 h
      obtain rfl := pure_eq_ok.1 h
      have each : ∀ x ∈ items, e.Admits x := by
        refine forall_right_of_forall₂ (fun _ x hx => ?_) (mapM_eq_ok hitems)
        exact cast_admits (k := e) free hx
      exact each
    · exact absurd h refuse_ne_ok
  | .map k e, free, v, w, h => by
    unfold cast at h
    split at h
    · obtain ⟨entries, hentries, h⟩ := bind_eq_ok.1 h
      obtain rfl := pure_eq_ok.1 h
      have each : ∀ x ∈ entries, k.Admits x.1 ∧ e.Admits x.2 := by
        refine forall_right_of_forall₂ (fun _ x hx => ?_) (mapM_eq_ok hentries)
        obtain ⟨a, ha, b, hb, rfl⟩ := by simpa using hx
        exact ⟨cast_admits free.1 ha, cast_admits free.2 hb⟩
      refine Assoc.ofList_forall (P := k.Admits) (Q := e.Admits) fun x hx => ?_
      obtain ⟨y, hy, rfl⟩ := List.mem_map.1 hx
      exact ⟨(each y hy).1.asKey, (each y hy).2⟩
    · exact absurd h refuse_ne_ok

end Kind

end QueryAlgebra
