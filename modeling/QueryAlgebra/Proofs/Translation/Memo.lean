import QueryAlgebra.Proofs.Translation.Direct
import QueryAlgebra.Proofs.Tree.Elements

/-!
# What a translation remembers

While a feature is translated, only its parts come to be remembered, and their keys lie inside its
own. So the feature itself is not remembered before its symbol is known.

* `Feature.length_key_child`: the key of a part is shorter than that of the whole.
* `Adds`: a computation remembers nothing new but under keys that are short enough.
* `directFeature_adds`: a feature adds only keys shorter than its own.
-/

namespace QueryAlgebra

/-- An item of a list is not longer than the list with separators. -/
theorem Text.length_le_intercalate (sep : String) {k : String} :
    ∀ {ks : List String}, k ∈ ks → k.length ≤ (String.intercalate sep ks).length
  | [_], h => by
    obtain rfl := List.mem_singleton.1 h
    simp
  | a :: b :: r, h => by
    rw [String.intercalate_cons_cons, String.length_append, String.length_append]
    rcases List.mem_cons.1 h with rfl | h
    · omega
    · have := Text.length_le_intercalate sep h
      omega

namespace Feature

/-- **The key of a part is shorter than that of the whole.** -/
theorem length_key_child {f c : Feature} (h : c ∈ f.children) : c.key.length < f.key.length := by
  have closing : ")".length = 1 := rfl
  cases f with
  | aliased f n =>
    obtain rfl : c = f := by simpa [children] using h
    simp [key]
    omega
  | literal v k => simp [children] at h
  | element s n k => simp [children] at h
  | expression op args t =>
    have h : c ∈ args := h
    have arg : c.key ∈ featureKeys args := by
      rw [featureKeys_eq_map]
      exact List.mem_map_of_mem h
    have := Text.length_le_intercalate "," arg
    have opening : "(".length = 1 := rfl
    simp only [key, String.length_append]
    omega
  | window fn ps os fr =>
    rcases List.mem_cons.1 h with rfl | h
    · simp [key]
      omega
    · rcases List.mem_append.1 h with h | h
      · have part : c.key ∈ featureKeys ps := by
          rw [featureKeys_eq_map]
          exact List.mem_map_of_mem h
        have := Text.length_le_intercalate "," part
        simp [key]
        omega
      · obtain ⟨o, ho, rfl⟩ := List.mem_map.1 h
        have term : o.key ∈ orderKeys os := by
          rw [orderKeys_eq_map]
          exact List.mem_map_of_mem ho
        have whole : o.feature.key.length ≤ o.key.length := by
          cases o
          simp only [OrderTerm.key, OrderTerm.feature, String.length_append]
          omega
        have := Text.length_le_intercalate "," term
        simp [key]
        omega

end Feature

namespace Translation

variable {S F α β : Type}

/-- A computation remembers nothing new but under keys that are shorter than `n`. -/
def Adds (n : Nat) (d : Direct S F α) : Prop :=
  ∀ w k, (Assoc.find? (k == ·) (eval d w).2.memo).isSome = true →
    (Assoc.find? (k == ·) w.memo).isSome = true ∨ k.length < n

namespace Adds

variable {n : Nat}

theorem of_memo {d : Direct S F α} (h : ∀ w, (eval d w).2.memo = w.memo) : Adds n d :=
  fun w _ hk => .inl (h w ▸ hk)

theorem pure (a : α) : Adds n (Pure.pure a : Direct S F α) := of_memo fun _ => rfl

theorem settle (r : Except Fault α) : Adds n (Direct.settle r : Direct S F α) :=
  of_memo fun w => by cases r <;> rfl

theorem bind {d : Direct S F α} {e : α → Direct S F β} (hd : Adds n d) (he : ∀ a, Adds n (e a)) :
    Adds n (d >>= e) := by
  intro w k hk
  have hw := hd w k
  rw [eval_bind] at hk
  rcases heval : eval d w with ⟨_ | a, v⟩ <;> rw [heval] at hk hw
  · exact hw hk
  · exact (he a v k hk).elim hw .inr

/-- Recalling a feature remembers its key as well. -/
theorem recalled {key : String} {d : Direct S F F} (h : key.length < n)
    (hd : Adds key.length d) : Adds n (Direct.recall key d) := by
  intro w k hk
  unfold Direct.recall at hk
  simp only [eval_bind, eval_get, andThen_ok] at hk
  split at hk
  · exact .inl hk
  · simp only [eval_bind] at hk
    have hw := hd w k
    rcases heval : eval d w with ⟨_ | x, v⟩ <;> rw [heval] at hk hw
    · exact (hw hk).imp_right fun hlt => hlt.trans h
    · by_cases hkey : k = key
      · exact .inr (hkey ▸ h)
      · simp only [eval_modify, andThen_ok, eval_pure] at hk
        rw [Assoc.find?_put_of_ne _ _ hkey] at hk
        exact (hw hk).imp_right fun hlt => hlt.trans h

end Adds

variable (b : Backend S F) {n : Nat}

theorem directReplaced_adds (f : Feature) (x : F) : Adds n (directReplaced b f x) :=
  .of_memo fun w => by
    unfold directReplaced
    cases b.features.get? f <;> rfl

theorem directElement_adds (s : Source) (name : String) (kind : Kind) :
    Adds n (directElement b s name kind) := by
  unfold directElement
  cases b.features.get? (.element s name kind) with
  | some x => exact .pure x
  | none =>
    refine Adds.bind (.of_memo fun w => ?_) fun x => .pure _
    simp only [directOrigin, eval_bind, eval_get, andThen_ok]
    cases w.origins.get? s with
    | some x => rfl
    | none =>
      cases s with
      | table t =>
        dsimp only
        cases b.table t (b.sources.get? (.table t)) <;> rfl
      | _ =>
        dsimp only
        cases b.sources.get? _ <;> rfl

theorem directFeatures_adds : ∀ {fs : List Feature},
    (∀ f ∈ fs, Adds n (Direct.recall f.key (directFeature b f))) → Adds n (directFeatures b fs)
  | [], _ => .pure _
  | f :: r, h => by
    obtain ⟨hf, hr⟩ := List.forall_mem_cons.1 h
    simp only [directFeatures]
    exact hf.bind fun x => (directFeatures_adds hr).bind fun xs => .pure _

theorem directTerms_adds : ∀ {os : List OrderTerm},
    (∀ o ∈ os, Adds n (Direct.recall o.feature.key (directFeature b o.feature))) →
    Adds n (directTerms b os)
  | [], _ => .pure _
  | .by f d :: r, h => by
    obtain ⟨hf, hr⟩ := List.forall_mem_cons.1 h
    simp only [directTerms]
    exact hf.bind fun x => (directTerms_adds hr).bind fun xs => .pure _

/-- **While a feature is translated only shorter keys come to be remembered.** -/
theorem directFeature_adds : ∀ f : Feature, Adds f.key.length (directFeature b f) := by
  refine Feature.childInduction fun f ih => ?_
  have parts : ∀ c ∈ f.children, Adds f.key.length (Direct.recall c.key (directFeature b c)) :=
    fun c hc => .recalled (Feature.length_key_child hc) (ih c hc)
  cases f with
  | aliased f n =>
    simp only [directFeature]
    exact (parts f (by simp [Feature.children])).bind fun x => .pure _
  | literal v k =>
    simp only [directFeature]
    exact .settle _
  | element s n k =>
    simp only [directFeature]
    exact directElement_adds b s n k
  | expression op args t =>
    simp only [directFeature]
    exact (directFeatures_adds b parts).bind fun xs => (Adds.settle _).bind fun y =>
      directReplaced_adds b _ y
  | window fn ps os fr =>
    have hps : ∀ p ∈ ps, p ∈ (Feature.window fn ps os fr).children := fun p hp => by
      simp [Feature.children, hp]
    have hos : ∀ o ∈ os, o.feature ∈ (Feature.window fn ps os fr).children := fun o ho =>
      List.mem_append_right _ (List.mem_map_of_mem ho)
    simp only [directFeature]
    exact (parts fn (by simp [Feature.children])).bind fun x =>
      (directFeatures_adds b fun p hp => parts p (hps p hp)).bind fun xs =>
        (directTerms_adds b fun o ho => parts o.feature (hos o ho)).bind fun ys =>
          (Adds.settle _).bind fun z => directReplaced_adds b _ z

end Translation

end QueryAlgebra
