import QueryAlgebra.Factors
import Mathlib.Data.List.Lex

/-!
# Lists in the order of texts

Texts are compared by their 16-bit units, which tell them apart: no character begins like another one
goes on. So names that are distinct have exactly one order.

* `Text.units_injective`: a text is told by its units.
* `Text.before_asymm`, `Text.before_trans`, `Text.before_of_ne`: a strict order of texts.
* `ordered_perm`, `ordered_sorted`: a list put in order has the same items, none behind a later one.
* `ordered_ascending`: a list with distinct names, put in their order, ascends.
-/

namespace QueryAlgebra

namespace Text

/-! ### Texts -/

/-- The units of a character are told from all that may follow them. -/
theorem unitsOfChar_append_inj {c d : Char} {x y : List Nat}
    (h : unitsOfChar c ++ x = unitsOfChar d ++ y) : c = d ∧ x = y := by
  have valid : ∀ e : Char, e.toNat < 0xD800 ∨ 0xDFFF < e.toNat ∧ e.toNat < 0x110000 := fun e => e.valid
  have hc := valid c
  have hd := valid d
  have same : c.toNat = d.toNat ∧ x = y := by
    unfold unitsOfChar at h
    -- No character is a surrogate, so that one unit and two are told apart by the first one.
    split at h <;> split at h <;> simp only [List.cons_append, List.nil_append, List.cons.injEq] at h
    · exact h
    · omega
    · omega
    · exact ⟨by omega, h.2.2⟩
  exact ⟨Char.toNat_inj.1 same.1, same.2⟩

/-- **A text is told by its units.** -/
theorem units_injective {s t : String} (h : units s = units t) : s = t := by
  have all : ∀ cs ds : List Char, cs.flatMap unitsOfChar = ds.flatMap unitsOfChar → cs = ds := by
    have some : ∀ c : Char, unitsOfChar c ≠ [] := fun c => by
      unfold unitsOfChar
      split <;> simp
    intro cs
    induction cs with
    | nil =>
      intro ds h
      cases ds with
      | nil => rfl
      | cons d r => exact absurd (List.append_eq_nil_iff.1 h.symm).1 (some d)
    | cons c q ih =>
      intro ds h
      cases ds with
      | nil => exact absurd (List.append_eq_nil_iff.1 h).1 (some c)
      | cons d r =>
        obtain ⟨rfl, rest⟩ := unitsOfChar_append_inj h
        rw [ih r rest]
  exact String.toList_inj.1 (all _ _ h)

theorem before_iff {s t : String} : before s t = true ↔ units s < units t := decide_eq_true_iff

theorem before_asymm {s t : String} (h : before s t = true) : before t s = false :=
  decide_eq_false (lt_asymm (before_iff.1 h))

theorem before_trans {s t u : String} (h : before s t = true) (h' : before t u = true) :
    before s u = true :=
  before_iff.2 (lt_trans (before_iff.1 h) (before_iff.1 h'))

/-- Of two texts one comes before the other. -/
theorem before_of_ne {s t : String} (ne : s ≠ t) (h : before t s = false) : before s t = true := by
  have le : units s ≤ units t := not_lt.1 (of_decide_eq_false h)
  exact before_iff.2 (lt_of_le_of_ne le fun same => ne (units_injective same))

end Text

/-! ### Lists -/

section

variable {α : Type} {before : α → α → Bool}

theorem insertOrdered_perm (a : α) (as : List α) : (insertOrdered before a as).Perm (a :: as) := by
  induction as with
  | nil => exact .refl _
  | cons b r ih =>
    unfold insertOrdered
    split
    · exact .refl _
    · exact (ih.cons b).trans (.swap a b r)

/-- **Ordering a list keeps its items.** -/
theorem ordered_perm (as : List α) : (ordered before as).Perm as := by
  have all : ∀ as bs : List α,
      (as.foldl (fun acc a => insertOrdered before a acc) bs).Perm (as ++ bs) := by
    intro as
    induction as with
    | nil => exact fun bs => .refl bs
    | cons a r ih =>
      intro bs
      exact (ih _).trans (((insertOrdered_perm a bs).append_left r).trans List.perm_middle)
  exact (all as []).trans (by simp)

theorem mem_ordered {x : α} {as : List α} : x ∈ ordered before as ↔ x ∈ as :=
  (ordered_perm as).mem_iff

/-- Inserting an item into a list in order leaves it in order. -/
theorem insertOrdered_sorted (asymm : ∀ a b, before a b = true → before b a = false)
    (trans : ∀ a b c, before a b = true → before b c = true → before a c = true) (a : α) {as : List α}
    (h : as.Pairwise fun x y => before y x = false) :
    (insertOrdered before a as).Pairwise fun x y => before y x = false := by
  induction as with
  | nil => simp [insertOrdered]
  | cons b r ih =>
    obtain ⟨first, rest⟩ := List.pairwise_cons.1 h
    unfold insertOrdered
    split
    · rename_i earlier
      refine List.pairwise_cons.2 ⟨List.forall_mem_cons.2 ⟨asymm a b earlier, fun y hy => ?_⟩, h⟩
      -- What came before the new item would come before the next one as well.
      exact Bool.eq_false_iff.2 fun hya =>
        Bool.eq_false_iff.1 (first y hy) (trans y a b hya earlier)
    · rename_i later
      refine List.pairwise_cons.2 ⟨fun y hy => ?_, ih rest⟩
      rcases List.mem_cons.1 ((insertOrdered_perm a r).mem_iff.1 hy) with rfl | hy
      · exact Bool.eq_false_iff.2 later
      · exact first y hy

/-- **No item of a list put in order comes before an earlier one.** -/
theorem ordered_sorted (asymm : ∀ a b, before a b = true → before b a = false)
    (trans : ∀ a b c, before a b = true → before b c = true → before a c = true) (as : List α) :
    (ordered before as).Pairwise fun x y => before y x = false := by
  have all : ∀ as bs : List α, (bs.Pairwise fun x y => before y x = false) →
      (as.foldl (fun acc a => insertOrdered before a acc) bs).Pairwise fun x y => before y x = false := by
    intro as
    induction as with
    | nil => exact fun bs h => h
    | cons a r ih => exact fun bs h => ih _ (insertOrdered_sorted asymm trans a h)
  exact all as [] .nil

/-- **A list with distinct names, put in their order, ascends.** -/
theorem ordered_ascending {name : α → String} {as : List α} (distinct : (as.map name).Nodup) :
    (ordered (fun a b => Text.before (name a) (name b)) as).Pairwise
      fun a b => Text.before (name a) (name b) = true := by
  have sorted := @ordered_sorted α (fun a b => Text.before (name a) (name b))
    (fun _ _ h => Text.before_asymm h) (fun _ _ _ h h' => Text.before_trans h h') as
  have apart : ((ordered (fun a b => Text.before (name a) (name b)) as).map name).Nodup :=
    ((ordered_perm as).map name).nodup_iff.2 distinct
  exact (sorted.and (List.pairwise_map.1 apart)).imp fun h => Text.before_of_ne h.2 h.1

end

end QueryAlgebra
