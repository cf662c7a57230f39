import Mathlib.Data.List.Forall2
import QueryAlgebra.Proofs.Tree.Factors
import QueryAlgebra.Value.Record

/-!
# Dictionaries and records

A dictionary is put together entry by entry, and a record name by name. What is put there once stays as it
was put, in a dictionary in that order, and in a record in the order in which a record holds names.

* `Assoc.ofList_of_new`, `Assoc.ofList_of_length`: entries with different keys are a dictionary as they stand.
* `Assoc.apart_ofList`: the entries of a dictionary have different keys.
* `Record.InOrder`: names as they stand in a record.
* `Record.inOrder_ofList`, `Record.ofList_of_inOrder`: these are the names of records.
* `Record.ofList_perm`: fields with different names are all in the record.
* `Record.forall₂_ofList`: where a field stands depends on names alone.
-/

namespace QueryAlgebra

/-! ### Dictionaries -/

namespace Assoc

variable {κ β : Type} {same : κ → κ → Bool}

/-- A key that is there does not make a list longer. -/
theorem length_put (same : κ → κ → Bool) (k : κ) (v : β) : ∀ es : List (κ × β),
    (put same k v es).length = es.length ∨
      (∀ e ∈ es, same k e.1 = false) ∧ (put same k v es).length = es.length + 1
  | [] => .inr ⟨by simp, rfl⟩
  | e :: r => by
    unfold put
    split
    · exact .inl rfl
    · rename_i other
      rcases length_put same k v r with kept | ⟨new, longer⟩
      · exact .inl (congrArg Nat.succ kept)
      · exact .inr ⟨List.forall_mem_cons.2 ⟨by simpa using other, new⟩, congrArg Nat.succ longer⟩

theorem ofList_concat (es : List (κ × β)) (e : κ × β) :
    ofList same (es ++ [e]) = put same e.1 e.2 (ofList same es) := by
  simp [ofList]

/-- Entries with different keys stay as they are. -/
theorem ofList_of_new {es : List (κ × β)} (new : es.Pairwise fun d e => same e.1 d.1 = false) :
    ofList same es = es := by
  induction es using List.reverseRecOn with
  | nil => rfl
  | append_singleton es e ih =>
    obtain ⟨before, -, apart⟩ := List.pairwise_append.1 new
    rw [ofList_concat, ih before]
    exact put_of_new fun d hd => apart d hd e (List.mem_singleton_self e)

/-- A key that is there keeps its place, and a new one goes behind the others. -/
theorem apart_put {k : κ} {v : β} : ∀ {es : List (κ × β)}, es.Pairwise (fun d e => same e.1 d.1 = false) →
    (put same k v es).Pairwise (fun d e => same e.1 d.1 = false)
  | [], _ => List.pairwise_singleton _ _
  | e :: r, h => by
    obtain ⟨first, rest⟩ := List.pairwise_cons.1 h
    unfold put
    split
    · exact List.pairwise_cons.2 ⟨first, rest⟩
    · rename_i other
      have behind : ∀ d ∈ put same k v r, same d.1 e.1 = false ∧ True :=
        put_forall (P := fun x => same x e.1 = false) (Q := fun _ => True) (by simpa using other) trivial
          fun d hd => ⟨first d hd, trivial⟩
      exact List.pairwise_cons.2 ⟨fun d hd => (behind d hd).1, apart_put rest⟩

/-- Entries that were put one after another have different keys. -/
theorem apart_ofList (es : List (κ × β)) :
    (ofList same es).Pairwise fun d e => same e.1 d.1 = false := by
  induction es using List.reverseRecOn with
  | nil => exact .nil
  | append_singleton es e ih =>
    rw [ofList_concat]
    exact apart_put ih

theorem length_ofList_le (same : κ → κ → Bool) (es : List (κ × β)) : (ofList same es).length ≤ es.length := by
  induction es using List.reverseRecOn with
  | nil => exact Nat.le_refl _
  | append_singleton es e ih =>
    rw [ofList_concat, List.length_append, List.length_singleton]
    rcases length_put same e.1 e.2 (ofList same es) with h | ⟨-, h⟩ <;> omega

/-- If no entry is lost, all stay as they are. -/
theorem ofList_of_length {es : List (κ × β)} (all : (ofList same es).length = es.length) :
    ofList same es = es := by
  induction es using List.reverseRecOn with
  | nil => rfl
  | append_singleton es e ih =>
    have shorter := length_ofList_le same es
    rw [ofList_concat, List.length_append, List.length_singleton] at all
    rw [ofList_concat]
    rcases length_put same e.1 e.2 (ofList same es) with h | ⟨new, h⟩
    · omega
    · rw [put_of_new new, ih (by omega)]

end Assoc

/-! ### Records -/

namespace Record

variable {β γ : Type}

/-- The names stand as assignments leave them in a record: each once, none where it would stand before an
earlier one, and without the name of the ancestry. -/
structure InOrder (names : List String) : Prop where
  ordered : names.Pairwise fun a b => a ≠ b ∧ stands b a = false
  own : ancestry ∉ names

theorem InOrder.nodup {names : List String} (h : InOrder names) : names.Nodup :=
  h.ordered.imp fun h => h.1

/-- What stands before an earlier name is not stood before by later ones. -/
theorem stands_trans {new old later : String} (first : stands new old = true)
    (second : stands later old = false) : stands later new = false := by
  unfold stands at *
  cases hl : index? later with
  | none => rfl
  | some c =>
    rw [hl] at second
    cases hn : index? new with
    | none => rw [hn] at first; cases first
    | some a =>
      rw [hn] at first
      cases ho : index? old with
      | none => rw [ho] at second; cases second
      | some b =>
        rw [ho] at first second
        simp only [decide_eq_true_eq, decide_eq_false_iff_not] at first second ⊢
        omega

/-- A field with a new name is put among the others. -/
theorem insertNew_perm (name : String) (v : β) : ∀ fields : List (String × β),
    (insertNew name v fields).Perm ((name, v) :: fields)
  | [] => .refl _
  | e :: r => by
    unfold insertNew
    split
    · exact .refl _
    · exact ((insertNew_perm name v r).cons e).trans (.swap _ _ _)

theorem insertNew_of_last {name : String} {v : β} : ∀ {fields : List (String × β)},
    (∀ e ∈ fields, stands name e.1 = false) → insertNew name v fields = fields ++ [(name, v)]
  | [], _ => rfl
  | e :: r, last => by
    obtain ⟨behind, last⟩ := List.forall_mem_cons.1 last
    simp [insertNew, behind, insertNew_of_last last]

/-- A new name is put where it stands in order. -/
theorem ordered_insertNew {name : String} (v : β) : ∀ {fields : List (String × β)},
    name ∉ fields.map (·.1) → (fields.map (·.1)).Pairwise (fun a b => a ≠ b ∧ stands b a = false) →
      ((insertNew name v fields).map (·.1)).Pairwise (fun a b => a ≠ b ∧ stands b a = false)
  | [], _, _ => by simp [insertNew]
  | e :: r, new, ordered => by
    obtain ⟨other, new⟩ : name ≠ e.1 ∧ name ∉ r.map (·.1) := by simpa using new
    obtain ⟨first, rest⟩ := List.pairwise_cons.1 ordered
    unfold insertNew
    split
    · rename_i before
      refine List.pairwise_cons.2 ⟨fun n hn => ?_, ordered⟩
      rcases List.mem_cons.1 hn with rfl | hn
      · refine ⟨other, ?_⟩
        -- Of two names only one stands before the other.
        unfold stands at *
        cases hi : index? name <;> cases hj : index? e.1 <;> simp_all
        omega
      · exact ⟨fun same : name = n => new (same ▸ hn), stands_trans before (first n hn).2⟩
    · rename_i behind
      refine List.pairwise_cons.2 ⟨fun n hn => ?_, ordered_insertNew v new rest⟩
      rw [((insertNew_perm name v r).map (·.1)).mem_iff, List.map_cons, List.mem_cons] at hn
      rcases hn with rfl | hn
      · exact ⟨Ne.symm other, by simpa using behind⟩
      · exact first n hn

theorem has_eq_any (test : String → Bool) (fields : List (String × β)) :
    Assoc.has test fields = (fields.map (·.1)).any test := by
  simp [Assoc.has, List.any_map, Function.comp_def]

/-- A record stays in order whatever is assigned. -/
theorem inOrder_assign {fields : List (String × β)} (h : InOrder (fields.map (·.1))) (name : String)
    (v : β) : InOrder ((assign fields name v).map (·.1)) := by
  unfold assign
  split
  · exact h
  · rename_i own
    split
    · rename_i there
      have known : name ∈ fields.map (·.1) := by simpa [Assoc.has] using there
      rw [KeyedMap.keys_put, if_pos known]
      exact h
    · rename_i new
      have unknown : name ∉ fields.map (·.1) := by simpa [Assoc.has] using new
      refine ⟨ordered_insertNew v unknown h.ordered, ?_⟩
      rw [((insertNew_perm name v fields).map (·.1)).mem_iff, List.map_cons, List.mem_cons]
      exact not_or.2 ⟨fun same => own same.symm, h.own⟩

theorem ofList_concat (es : List (String × β)) (e : String × β) :
    ofList (es ++ [e]) = assign (ofList es) e.1 e.2 := by
  simp [ofList]

/-- **The names of a record are in order.** -/
theorem inOrder_ofList (es : List (String × β)) : InOrder ((ofList es).map (·.1)) := by
  induction es using List.reverseRecOn with
  | nil => exact ⟨.nil, nofun⟩
  | append_singleton es e ih =>
    rw [ofList_concat]
    exact inOrder_assign ih e.1 e.2

/-- **A record has each name once.** -/
theorem names_ofList_nodup (es : List (String × β)) : ((ofList es).map (·.1)).Nodup :=
  (inOrder_ofList es).nodup

/-- **Fields whose names are in order stay as they are.** -/
theorem ofList_of_inOrder {es : List (String × β)} (h : InOrder (es.map (·.1))) : ofList es = es := by
  induction es using List.reverseRecOn with
  | nil => rfl
  | append_singleton es e ih =>
    obtain ⟨ordered, own⟩ := h
    rw [List.map_append, List.map_singleton] at ordered own
    obtain ⟨before, -, last⟩ := List.pairwise_append.1 ordered
    obtain ⟨own, name⟩ : ancestry ∉ es.map (·.1) ∧ ancestry ≠ e.1 := by simpa [not_or] using own
    have after : ∀ d ∈ es, d.1 ≠ e.1 ∧ stands e.1 d.1 = false := fun d hd =>
      last d.1 (List.mem_map_of_mem hd) e.1 (List.mem_singleton_self _)
    have unknown : Assoc.has (e.1 == ·) es = false := by
      simpa [Assoc.has] using fun a b hab (same : e.1 = a) => (after (a, b) hab).1 same.symm
    rw [ofList_concat, ih ⟨before, own⟩, assign, if_neg name.symm, unknown]
    exact insertNew_of_last fun d hd => (after d hd).2

/-- **Fields with different names are all in the record**, wherever they stand. -/
theorem ofList_perm {es : List (String × β)} (nodup : (es.map (·.1)).Nodup)
    (own : ancestry ∉ es.map (·.1)) : (ofList es).Perm es := by
  induction es using List.reverseRecOn with
  | nil => exact .refl _
  | append_singleton es e ih =>
    rw [List.map_append, List.map_singleton] at nodup own
    obtain ⟨before, -, apart⟩ := List.nodup_append.1 nodup
    obtain ⟨own, name⟩ : ancestry ∉ es.map (·.1) ∧ ancestry ≠ e.1 := by simpa [not_or] using own
    have earlier := ih before own
    have unknown : Assoc.has (e.1 == ·) (ofList es) = false := by
      rw [has_eq_any, (earlier.map (·.1)).any_eq, List.any_eq_false]
      exact fun n hn same => apart n hn e.1 (List.mem_singleton_self _) (beq_iff_eq.1 same).symm
    rw [ofList_concat, assign, if_neg name.symm, unknown]
    exact (insertNew_perm e.1 e.2 _).trans ((earlier.cons e).trans (List.perm_append_singleton e es).symm)

/-! ### Fields that correspond -/

section Corresponding

variable {S : String × β → String × γ → Prop} (names : ∀ e f, S e f → e.1 = f.1)
include names

theorem names_of_forall₂ {es : List (String × β)} {fs : List (String × γ)} (h : List.Forall₂ S es fs) :
    es.map (·.1) = fs.map (·.1) := by
  induction h with
  | nil => rfl
  | cons first _ ih => rw [List.map_cons, List.map_cons, names _ _ first, ih]

variable {n : String} {v : β} {w : γ}

theorem forall₂_put (new : S (n, v) (n, w)) {es : List (String × β)} {fs : List (String × γ)}
    (h : List.Forall₂ S es fs) :
    List.Forall₂ S (Assoc.put (· == ·) n v es) (Assoc.put (· == ·) n w fs) := by
  induction h with
  | nil => exact .cons new .nil
  | @cons d g es fs first rest ih =>
    obtain ⟨m, x⟩ := d
    obtain ⟨m', y⟩ := g
    obtain rfl : m = m' := names _ _ first
    unfold Assoc.put
    split
    · rename_i same
      obtain rfl : n = m := by simpa using same
      exact .cons new rest
    · exact .cons first ih

theorem forall₂_insertNew (new : S (n, v) (n, w)) {es : List (String × β)} {fs : List (String × γ)}
    (h : List.Forall₂ S es fs) : List.Forall₂ S (insertNew n v es) (insertNew n w fs) := by
  induction h with
  | nil => exact .cons new .nil
  | @cons d g es fs first rest ih =>
    unfold insertNew
    rw [names d g first]
    split
    · exact .cons new (.cons first rest)
    · exact .cons first ih

theorem forall₂_assign (new : S (n, v) (n, w)) {es : List (String × β)} {fs : List (String × γ)}
    (h : List.Forall₂ S es fs) : List.Forall₂ S (assign es n v) (assign fs n w) := by
  unfold assign
  rw [has_eq_any, has_eq_any, names_of_forall₂ names h]
  split
  · exact h
  · split
    · exact forall₂_put names new h
    · exact forall₂_insertNew names new h

/-- **Fields that correspond stand at one place** in the records that are made of them. -/
theorem forall₂_ofList {es : List (String × β)} {fs : List (String × γ)} (h : List.Forall₂ S es fs) :
    List.Forall₂ S (ofList es) (ofList fs) := by
  have assigned : ∀ {acc : List (String × β)} {acc' : List (String × γ)}, List.Forall₂ S acc acc' →
      List.Forall₂ S (es.foldl (fun acc e => assign acc e.1 e.2) acc)
        (fs.foldl (fun acc e => assign acc e.1 e.2) acc') := by
    induction h with
    | nil => exact fun start => start
    | @cons e f _ _ first _ ih =>
      obtain ⟨n, v⟩ := e
      obtain ⟨n', w⟩ := f
      obtain rfl : n = n' := names _ _ first
      exact fun start => ih (forall₂_assign names first start)
  exact assigned .nil

end Corresponding

end Record
end QueryAlgebra
