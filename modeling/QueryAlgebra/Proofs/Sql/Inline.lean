import QueryAlgebra.Proofs.Instant.Calendar
import QueryAlgebra.Proofs.Translation.Resolution
import QueryAlgebra.Sql.Inline

/-!
# What can be written as SQL text

* `Kind.Encodable`, `Rules.encodable`: kinds whose values have literals, and trees in which all
  literals are of such kinds and all casts are to primitive kinds.
* `Sql.items_of_cast`, `Sql.literalText_array`: the items of an array that was cast, and their texts.
* `Sql.literalText_cast`: a value that was cast to such a kind has a literal.
* `Sql.Dialect.encodable_accepted`: the backend that writes text refuses no node of such a tree.
-/

namespace QueryAlgebra

open Translation

/-- The kind is primitive, or that of lists of such a kind. -/
def Kind.Encodable : Kind → Prop
  | .primitive _ => True
  | .array e     => e.Encodable
  | _            => False

/-- Literals are of encodable kinds, and casts are to primitive kinds. -/
def Rules.encodable : Rules where
  feature
    | .literal _ k          => k.Encodable
    | .expression .cast _ t => ∀ k ∈ t, ∃ p, k = .primitive p
    | _                     => True
  source _ := True

namespace Sql

/-- The items of an array that was cast. -/
theorem items_of_cast {e : Kind} {v : Value} (h : ∃ u, (Kind.array e).cast u = .ok v) :
    ∃ vs, v = .list vs ∧ ∀ w ∈ vs, ∃ u, e.cast u = .ok w := by
  obtain ⟨u, hu⟩ := h
  cases u with
  | list items =>
    simp only [Kind.cast] at hu
    obtain ⟨ws, hws, hu⟩ := bind_eq_ok.1 hu
    obtain rfl := pure_eq_ok.1 hu
    exact ⟨ws, rfl, forall_right_of_forall₂ (fun u w h => ⟨u, h⟩) (mapM_eq_ok hws)⟩
  | _ => exact absurd (by simpa only [Kind.cast] using hu) Kind.refuse_ne_ok

/-- The text of an array is that of its items, which were cast one by one. -/
theorem literalText_array {e : Kind} {v : Value} (made : ∃ u, (Kind.array e).cast u = .ok v) {t : String}
    (text : literalText (.array e) v = .ok t) : ∃ ws ts, v = .list ws ∧
      List.Forall₂ (fun w t => (∃ u, e.cast u = .ok w) ∧ literalText e w = .ok t) ws ts ∧
      t = "ARRAY[" ++ listed ts ++ "]" := by
  obtain ⟨ws, rfl, cast⟩ := items_of_cast made
  obtain ⟨ts, texts, text⟩ := bind_eq_ok.1 text
  exact ⟨ws, ts, rfl, (List.forall₂_and_left _ _).2 ⟨cast, mapM_eq_ok texts⟩, (pure_eq_ok.1 text).symm⟩

/-- **A value that was cast to an encodable kind has a literal.** -/
theorem literalText_cast : ∀ {k : Kind}, k.Encodable → ∀ {v w : Value}, k.cast v = .ok w →
    ∃ text, literalText k w = .ok text
  | .primitive p, _, v, w, h => by
    simp only [Kind.cast] at h
    split at h
    · cases h
      rename_i hw
      cases p with
      | date =>
        obtain ⟨t, _, rfl⟩ := Option.map_eq_some_iff.1 hw
        obtain ⟨u, hu⟩ := Option.isSome_iff_exists.1 t.midnight_isSome
        exact ⟨_, by rw [hu]; rfl⟩
      | timestamp =>
        obtain ⟨t, _, rfl⟩ := Option.map_eq_some_iff.1 hw
        exact ⟨_, rfl⟩
      | _ => exact ⟨_, rfl⟩
    · exact absurd h Kind.refuse_ne_ok
  | .array e, he, v, w, h => by
    obtain ⟨ws, rfl, cast⟩ := items_of_cast ⟨v, h⟩
    have hitems : ∀ x ∈ ws, ∃ text, literalText e x = .ok text := fun x hx => by
      obtain ⟨u, hu⟩ := cast x hx
      exact literalText_cast (k := e) he hu
    obtain ⟨texts, htexts⟩ := exists_mapM_ok hitems
    exact ⟨_, by simp only [literalText, htexts]; rfl⟩

namespace Dialect

variable (d : Dialect)

/-- Only casts to kinds without a name are refused. -/
theorem expressionText_ok {op : Operator} {args : List String} {kind : Kind}
    (h : op = .cast → ∃ p, kind = .primitive p) : ∃ text, d.expressionText op args kind = .ok text := by
  cases op with
  | cast =>
    obtain ⟨p, rfl⟩ := h rfl
    cases p <;> exact ⟨_, rfl⟩
  | _ => exact ⟨_, rfl⟩

/-- **The backend that writes text refuses no node** of a tree that it can encode. -/
theorem encodable_accepted (sources : KeyedMap Source String) (features : KeyedMap Feature String) :
    Rules.encodable.Ensures (.acceptedBy (d.backend sources features)) where
  feature f hb h := by
    replace h := h.own
    cases f with
    | literal v k =>
      obtain ⟨_, hcast⟩ := hb.inv_literal
      exact literalText_cast h hcast
    | expression op args t =>
      refine fun xs => d.expressionText_ok fun hop => ?_
      subst hop
      obtain ⟨_, _, _, hcheck⟩ := hb.inv_expression
      obtain ⟨k, rfl⟩ : ∃ k, t = some k := by
        cases t with
        | none => simp [Operator.check, Operator.group] at hcheck
        | some k => exact ⟨k, rfl⟩
      exact h k rfl
    | window fn ps os fr => exact fun _ _ _ => ⟨_, rfl⟩
    | _ => trivial
  source _ _ _ := trivial

theorem backend_provides (sources : KeyedMap Source String) (features : KeyedMap Feature String) :
    (d.backend sources features).Provides ⟨sources.keys, features.keys⟩ where
  sources s := sources.isSome_get? s
  features f := features.isSome_get? f
  table _ := ⟨_, rfl⟩

theorem backend_connects (sources : KeyedMap Source String) (features : KeyedMap Feature String) :
    (d.backend sources features).Connects := by
  intro op hop xs kind
  refine d.expressionText_ok fun h => ?_
  subst h
  simp [connectives] at hop

end Dialect

end Sql

end QueryAlgebra
