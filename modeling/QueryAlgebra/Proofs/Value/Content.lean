import Mathlib.Data.List.Forall2
import QueryAlgebra.Proofs.Value.Key

/-!
# What values hold

Keys are texts, and what they are there for is to tell what values hold. That can be said of the values
alone, part by part.

* `Value.Alike`: values of one type with one content, where a zero has no sign.
* `Value.parts`, `Value.partInduction`: what a value is made of, and induction over it.
* `Value.key_eq_iff_alike`: values have one key exactly if they are alike.
* `Value.tupleKey_eq_iff`: tuples have one key exactly if they are alike position by position.
-/

namespace QueryAlgebra

/-- Numbers are the same but for the sign of a zero exactly if they are one number or both zero. -/
theorem Number.unsignedZero_eq_iff {m n : Number} :
    m.unsignedZero = n.unsignedZero ↔ m = n ∨ m.isZero = true ∧ n.isZero = true := by
  have other : ∀ {x : Number}, x.isZero = false → x.unsignedZero = x := fun h => by
    simp [unsignedZero, h]
  have kept : ∀ x : Number, x.unsignedZero.isZero = x.isZero := fun x => by
    cases x with
    | finite s m => by_cases zero : m.steps = 0 <;> simp [unsignedZero, isZero, abs, zero]
    | _ => rfl
  constructor
  · intro h
    by_cases zero : m.isZero = true
    · exact .inr ⟨zero, by rw [← kept n, ← h, kept m, zero]⟩
    · have zero' : n.isZero = false := by rw [← kept n, ← h, kept m]; simpa using zero
      rw [other (by simpa using zero), other zero'] at h
      exact .inl h
  · rintro (rfl | ⟨hm, hn⟩)
    · rfl
    · cases m with
      | finite s a =>
        cases n with
        | finite t b =>
          obtain rfl : a = b := by
            obtain ⟨_, _, _⟩ := a
            obtain ⟨_, _, _⟩ := b
            simp_all [isZero]
          rw [unsignedZero, if_pos hm, unsignedZero, if_pos hn]
          rfl
        | _ => cases hn
      | _ => cases hm

namespace Value

/-! ### Parts -/

/-- What a value is made of. -/
def parts : Value → List Value
  | .list vs   => vs
  | .dict es   => es.map Prod.fst ++ es.map Prod.snd
  | .record fs => fs.map Prod.snd
  | _          => []

mutual

/-- Induction over what a value is made of. -/
theorem partInduction {P : Value → Prop} (step : ∀ v : Value, (∀ w ∈ v.parts, P w) → P v) :
    ∀ v : Value, P v
  | .absent | .null | .bool _ | .number _ | .text _ | .date _ => step _ (by simp [parts])
  | .list vs => step _ (partInductionItems step vs)
  | .dict es => step _ (List.forall_mem_append.2 (partInductionEntries step es))
  | .record fs => step _ (partInductionFields step fs)

theorem partInductionItems {P : Value → Prop} (step : ∀ v : Value, (∀ w ∈ v.parts, P w) → P v) :
    ∀ vs : List Value, ∀ v ∈ vs, P v
  | [] => by simp
  | v :: r => List.forall_mem_cons.2 ⟨partInduction step v, partInductionItems step r⟩

theorem partInductionEntries {P : Value → Prop} (step : ∀ v : Value, (∀ w ∈ v.parts, P w) → P v) :
    ∀ es : List (Value × Value), (∀ k ∈ es.map Prod.fst, P k) ∧ ∀ v ∈ es.map Prod.snd, P v
  | [] => by simp
  | (k, v) :: r =>
    have rest := partInductionEntries step r
    ⟨List.forall_mem_cons.2 ⟨partInduction step k, rest.1⟩,
      List.forall_mem_cons.2 ⟨partInduction step v, rest.2⟩⟩

theorem partInductionFields {P : Value → Prop} (step : ∀ v : Value, (∀ w ∈ v.parts, P w) → P v) :
    ∀ fs : List (String × Value), ∀ v ∈ fs.map Prod.snd, P v
  | [] => by simp
  | (_, v) :: r => List.forall_mem_cons.2 ⟨partInduction step v, partInductionFields step r⟩

end

/-! ### One content -/

/-- The values have one type and one content. A zero has no sign, and dictionaries and records are
compared in their order. -/
inductive Alike : Value → Value → Prop where
  | absent : Alike .absent .absent
  | null : Alike .null .null
  | bool (b : Bool) : Alike (.bool b) (.bool b)
  | number {m n : Number} (amount : m = n ∨ m.isZero = true ∧ n.isZero = true) :
    Alike (.number m) (.number n)
  | text (s : String) : Alike (.text s) (.text s)
  | date (t : Option Instant) : Alike (.date t) (.date t)
  | list {vs ws : List Value} (items : List.Forall₂ Alike vs ws) : Alike (.list vs) (.list ws)
  | dict {es fs : List (Value × Value)} (keys : List.Forall₂ Alike (es.map Prod.fst) (fs.map Prod.fst))
    (values : List.Forall₂ Alike (es.map Prod.snd) (fs.map Prod.snd)) : Alike (.dict es) (.dict fs)
  | record {fs gs : List (String × Value)} (names : fs.map Prod.fst = gs.map Prod.fst)
    (values : List.Forall₂ Alike (fs.map Prod.snd) (gs.map Prod.snd)) : Alike (.record fs) (.record gs)

/-- Lists are alike item by item exactly if they have one form, when that holds of their items. -/
theorem forall₂_alike_iff : ∀ {vs ws : List Value},
    (∀ v ∈ vs, ∀ w, Alike v w ↔ v.canonical = w.canonical) →
      (List.Forall₂ Alike vs ws ↔ vs.map canonical = ws.map canonical)
  | [], [], _ => by simp
  | [], w :: q, _ => by simp [List.forall₂_nil_left_iff]
  | v :: r, [], _ => by simp [List.forall₂_nil_right_iff]
  | v :: r, w :: q, each => by
    obtain ⟨first, rest⟩ := List.forall_mem_cons.1 each
    rw [List.forall₂_cons, first, forall₂_alike_iff rest, List.map_cons, List.map_cons, List.cons.injEq]

/-- Entries have one form exactly if their keys have and their values have. -/
theorem canonicalEntries_eq_iff : ∀ {es fs : List (Value × Value)},
    canonicalEntries es = canonicalEntries fs ↔
      (es.map Prod.fst).map canonical = (fs.map Prod.fst).map canonical ∧
        (es.map Prod.snd).map canonical = (fs.map Prod.snd).map canonical
  | [], [] => by simp [canonicalEntries]
  | [], f :: q => by simp [canonicalEntries]
  | e :: r, [] => by simp [canonicalEntries]
  | e :: r, f :: q => by
    simp only [canonicalEntries, List.cons.injEq, Prod.mk.injEq, canonicalEntries_eq_iff, List.map_cons]
    exact and_and_and_comm

/-- Fields have one form exactly if they have one name each and their values have one form. -/
theorem canonicalFields_eq_iff : ∀ {fs gs : List (String × Value)},
    canonicalFields fs = canonicalFields gs ↔ fs.map Prod.fst = gs.map Prod.fst ∧
      (fs.map Prod.snd).map canonical = (gs.map Prod.snd).map canonical
  | [], [] => by simp [canonicalFields]
  | [], g :: q => by simp [canonicalFields]
  | f :: r, [] => by simp [canonicalFields]
  | f :: r, g :: q => by
    simp only [canonicalFields, List.cons.injEq, Prod.mk.injEq, canonicalFields_eq_iff, List.map_cons]
    exact and_and_and_comm

/-- **Values are alike exactly if they are the same with unsigned zeros.** -/
theorem alike_iff_canonical : ∀ v w : Value, Alike v w ↔ v.canonical = w.canonical := by
  refine partInduction fun v ih w => ?_
  constructor
  · intro h
    cases h with
    | number amount => exact congrArg Value.number (Number.unsignedZero_eq_iff.2 amount)
    | @list vs ws items =>
      have forms : vs.map canonical = ws.map canonical := (forall₂_alike_iff ih).1 items
      rw [canonical, canonical, canonicals_eq_map, canonicals_eq_map, forms]
    | dict keys values =>
      obtain ⟨ihk, ihv⟩ := List.forall_mem_append.1 ih
      exact congrArg Value.dict (canonicalEntries_eq_iff.2
        ⟨(forall₂_alike_iff ihk).1 keys, (forall₂_alike_iff ihv).1 values⟩)
    | record names values =>
      exact congrArg Value.record (canonicalFields_eq_iff.2 ⟨names, (forall₂_alike_iff ih).1 values⟩)
    | _ => rfl
  · intro h
    -- The form keeps the type, so only values of one type are left.
    cases v <;> cases w <;> first | exact Value.noConfusion h | skip
    case absent.absent => exact .absent
    case null.null => exact .null
    case bool.bool => cases h; exact .bool _
    case number.number => exact .number (Number.unsignedZero_eq_iff.1 (Value.number.inj h))
    case text.text => cases h; exact .text _
    case date.date => cases h; exact .date _
    case list.list vs ws =>
      have forms := Value.list.inj h
      rw [canonicals_eq_map, canonicals_eq_map] at forms
      exact .list ((forall₂_alike_iff ih).2 forms)
    case dict.dict es fs =>
      obtain ⟨ihk, ihv⟩ := List.forall_mem_append.1 ih
      obtain ⟨keys, values⟩ := canonicalEntries_eq_iff.1 (Value.dict.inj h)
      exact .dict ((forall₂_alike_iff ihk).2 keys) ((forall₂_alike_iff ihv).2 values)
    case record.record fs gs =>
      obtain ⟨names, values⟩ := canonicalFields_eq_iff.1 (Value.record.inj h)
      exact .record names ((forall₂_alike_iff ih).2 values)

/-! ### Keys tell contents -/

/-- **Values have one key exactly if they are alike.** -/
theorem key_eq_iff_alike {v w : Value} : v.key = w.key ↔ Alike v w :=
  key_eq_key_iff.trans (alike_iff_canonical v w).symm

/-- **Tuples have one key exactly if they are alike position by position.** -/
theorem tupleKey_eq_iff {vs ws : List Value} : tupleKey vs = tupleKey ws ↔ List.Forall₂ Alike vs ws := by
  constructor
  · intro h
    have keys := List.forall₂_eq_eq_eq ▸ keys_of_tupleKey h
    rw [List.forall₂_map_left_iff, List.forall₂_map_right_iff] at keys
    exact keys.imp fun _ _ => key_eq_iff_alike.1
  · intro alike
    have keys : vs.map key = ws.map key := by
      rw [← List.forall₂_eq_eq_eq, List.forall₂_map_left_iff, List.forall₂_map_right_iff]
      exact alike.imp fun _ _ => key_eq_iff_alike.2
    unfold tupleKey
    rw [keys]

end Value
end QueryAlgebra
