import QueryAlgebra.Keyed
import Mathlib.Data.List.Basic
import Mathlib.Data.List.Induction
import Mathlib.Data.List.Nodup
import Mathlib.Data.List.Perm.Subperm

/-!
# Sets and maps told by keys

* `nodup_eraseDups`, `eraseDups_concat`: texts in the order in which they appear first.
* `Assoc.mem_of_find?`, `Assoc.mem_put_iff`, `Assoc.ofList_forall`: the entries of association lists.
* `KeyedSet.hasKey_ofList`, `KeyedSet.subset_ofList`: the keys of a set of given nodes.
* `KeyedSet.mem_toList_add`, `KeyedMap.mem_set`: what sets and maps hold after a change.
* `KeyedMap.Proper`, `KeyedSet.Proper`: nodes stand under their own keys, each key once.
* `Keyed.Tells`: sets and maps of nodes take two nodes for one exactly where they have one form.
-/

namespace QueryAlgebra

/-! ### Texts without repetitions -/

/-- One more text is a new one, or there already. -/
theorem eraseDups_concat (keys : List String) (key : String) : (keys ++ [key]).eraseDups
    = if key ∈ keys then keys.eraseDups else keys.eraseDups ++ [key] := by
  rw [List.eraseDups_append]
  by_cases known : key ∈ keys
  · simp [List.removeAll, known]
  · simp [List.removeAll, known, List.eraseDups_cons]

theorem nodup_eraseDups (keys : List String) : keys.eraseDups.Nodup := by
  induction keys using List.reverseRecOn with
  | nil => exact .nil
  | append_singleton keys key ih =>
    rw [eraseDups_concat]
    split
    · exact ih
    · rename_i new
      refine List.nodup_append.2 ⟨ih, List.nodup_singleton key, ?_⟩
      simpa using fun k hk (same : k = key) => new (same ▸ hk)

/-! ### Association lists -/

namespace Assoc

variable {κ β : Type}

/-- What is found stands in the list, under a key that passes the test. -/
theorem mem_of_find? {test : κ → Bool} {v : β} : ∀ {es : List (κ × β)}, find? test es = some v →
    ∃ k, test k = true ∧ (k, v) ∈ es
  | (k, w) :: r, h => by
    unfold find? at h
    split at h
    · rename_i passes
      exact ⟨k, passes, Option.some.inj h ▸ List.mem_cons_self⟩
    · obtain ⟨l, passes, hl⟩ := mem_of_find? h
      exact ⟨l, passes, List.mem_cons_of_mem _ hl⟩

/-- A new key goes behind the others. -/
theorem put_of_new {same : κ → κ → Bool} {k : κ} {v : β} : ∀ {es : List (κ × β)}, (∀ e ∈ es, same k e.1 = false) →
    put same k v es = es ++ [(k, v)]
  | [], _ => rfl
  | e :: r, new => by
    obtain ⟨other, new⟩ := List.forall_mem_cons.1 new
    simp [put, other, put_of_new new]

/-- Nothing changes when a key is given the value that it has. -/
theorem put_of_found {k : String} {v : β} : ∀ {es : List (String × β)},
    find? (k == ·) es = some v → put (· == ·) k v es = es
  | (l, w) :: r, found => by
    by_cases same : k = l
    · simp_all [find?, put]
    · simp only [find?, put, beq_iff_eq, same, if_false] at found ⊢
      rw [put_of_found found]

/-- What is put stands there, and all other keys keep what they have. -/
theorem mem_put_iff {k : String} {v : β} {e : String × β} : ∀ {es : List (String × β)},
    (es.map (·.1)).Nodup → (e ∈ put (· == ·) k v es ↔ e = (k, v) ∨ e ∈ es ∧ e.1 ≠ k)
  | [], _ => by simp [put]
  | (l, w) :: r, distinct => by
    obtain ⟨new, distinct⟩ := List.nodup_cons.1 distinct
    unfold put
    split
    · rename_i same
      obtain rfl : k = l := by simpa using same
      -- The key does not stand further down, so all that follows is kept.
      have others : e ∈ r → e.1 ≠ k := fun he same => new (List.mem_map.2 ⟨e, he, same⟩)
      rw [List.mem_cons, List.mem_cons]
      refine or_congr_right ⟨fun he => ⟨.inr he, others he⟩, ?_⟩
      rintro ⟨rfl | he, other⟩
      · exact absurd rfl other
      · exact he
    · rename_i apart
      have other : (l, w).1 ≠ k := fun same => apart (by simpa using same.symm)
      rw [List.mem_cons, List.mem_cons, mem_put_iff distinct]
      constructor
      · rintro (rfl | rfl | ⟨he, differs⟩)
        · exact .inr ⟨.inl rfl, other⟩
        · exact .inl rfl
        · exact .inr ⟨.inr he, differs⟩
      · rintro (rfl | ⟨rfl | he, differs⟩)
        · exact .inr (.inl rfl)
        · exact .inl rfl
        · exact .inr (.inr ⟨he, differs⟩)

variable {P : κ → Prop} {Q : β → Prop} {same : κ → κ → Bool}

theorem put_forall {k : κ} {v : β} (hk : P k) (hv : Q v) :
    ∀ {es : List (κ × β)}, (∀ e ∈ es, P e.1 ∧ Q e.2) → ∀ e ∈ put same k v es, P e.1 ∧ Q e.2
  | [], _ => by simpa [put] using ⟨hk, hv⟩
  | (k', v') :: r, h => by
    obtain ⟨first, rest⟩ := List.forall_mem_cons.1 h
    unfold put
    split
    · exact List.forall_mem_cons.2 ⟨⟨first.1, hv⟩, rest⟩
    · exact List.forall_mem_cons.2 ⟨first, put_forall hk hv rest⟩

theorem foldl_put_forall : ∀ (es : List (κ × β)) {acc : List (κ × β)}, (∀ e ∈ es, P e.1 ∧ Q e.2) →
    (∀ e ∈ acc, P e.1 ∧ Q e.2) →
      ∀ e ∈ es.foldl (fun acc e => put same e.1 e.2 acc) acc, P e.1 ∧ Q e.2
  | [], _, _, hacc => hacc
  | _ :: r, _, h, hacc => by
    obtain ⟨first, rest⟩ := List.forall_mem_cons.1 h
    exact foldl_put_forall r rest (put_forall first.1 first.2 hacc)

/-- What holds of the keys and of the values of entries holds when they are put one after another. -/
theorem ofList_forall {es : List (κ × β)} (h : ∀ e ∈ es, P e.1 ∧ Q e.2) :
    ∀ e ∈ ofList same es, P e.1 ∧ Q e.2 := foldl_put_forall es h (by simp)

end Assoc

variable {α β γ : Type} [Keyed α]

/-! ### Sets -/

namespace KeyedSet

theorem hasKey_foldl_add (as : List α) (s : KeyedSet α) (k : String) :
    (as.foldl add s).hasKey k = true ↔ (∃ a ∈ as, Keyed.key a = k) ∨ s.hasKey k = true := by
  induction as generalizing s with
  | nil => simp
  | cons a as ih =>
    rw [List.foldl_cons, ih, hasKey_add]
    simp only [List.exists_mem_cons_iff, Bool.or_eq_true, beq_iff_eq, eq_comm (a := k)]
    simp only [or_assoc, or_left_comm]

/-- A set has the keys of the nodes it was made of. -/
theorem hasKey_ofList {as : List α} {k : String} :
    (ofList as).hasKey k = true ↔ ∃ a ∈ as, Keyed.key a = k := by
  rw [ofList, hasKey_foldl_add]
  simp [empty, hasKey, Assoc.has]

omit [Keyed α] in
theorem hasKey_iff {s : KeyedSet α} {k : String} :
    s.hasKey k = true ↔ ∃ e ∈ s.entries, e.1 = k := by
  simp [hasKey, Assoc.has, eq_comm (a := k)]

omit [Keyed α] in
theorem subset_iff {s t : KeyedSet α} :
    s.subset t = true ↔ ∀ k, s.hasKey k = true → t.hasKey k = true := by
  simp only [subset, List.all_eq_true, hasKey_iff (s := s)]
  exact ⟨fun h k ⟨e, he, hk⟩ => hk ▸ h e he, fun h e he => h e.1 ⟨e, he, rfl⟩⟩

/-- A set lies in another one if every node it was made of does. -/
theorem subset_ofList {as : List α} {t : KeyedSet α} :
    (ofList as).subset t = true ↔ ∀ a ∈ as, t.has a = true := by
  simp only [subset_iff, hasKey_ofList]
  exact ⟨fun h a ha => h _ ⟨a, ha, rfl⟩, fun h _ ⟨a, ha, hk⟩ => hk ▸ h a ha⟩

theorem mem_toList_add {s : KeyedSet α} {a b : α} (h : b ∈ (s.add a).toList) :
    b = a ∨ b ∈ s.toList := by
  unfold add at h
  split at h
  · exact .inr h
  · rcases List.mem_append.1 (by simpa [toList] using h : b ∈ s.toList ++ [a]) with h | h
    · exact .inr h
    · exact .inl (List.mem_singleton.1 h)

theorem mem_toList_ofList {as : List α} {a : α} (h : a ∈ (ofList as).toList) : a ∈ as := by
  have all : ∀ (as : List α) (s : KeyedSet α), a ∈ (as.foldl add s).toList → a ∈ as ∨
      a ∈ s.toList := by
    intro as
    induction as with
    | nil => exact fun s h => .inr h
    | cons b r ih =>
      intro s h
      rcases ih _ h with h | h
      · exact .inl (List.mem_cons_of_mem _ h)
      · rcases mem_toList_add h with rfl | h
        · exact .inl List.mem_cons_self
        · exact .inr h
  rcases all as .empty h with h | h
  · exact h
  · simp [toList, empty] at h

end KeyedSet

/-! ### Maps -/

namespace KeyedMap

/-- Nodes with one key are looked up alike. -/
theorem get?_congr (m : KeyedMap α γ) {a b : α} (h : Keyed.key a = Keyed.key b) :
    m.get? a = m.get? b := by
  simp only [get?, h]

theorem get?_set_of_eq (m : KeyedMap α γ) {a b : α} (v : γ)
    (h : Keyed.key a = Keyed.key b) : (m.set a v).get? b = some v := by
  rw [← get?_congr _ h, m.get?_set_self]

/-- The keys of the nodes in a map. -/
def keys (m : KeyedMap α γ) : List String := m.entries.map (·.1)

omit [Keyed α] in
/-- An entry is found exactly under the keys of the entries. -/
theorem isSome_find? {β : Type} (k : String) (es : List (String × β)) :
    (Assoc.find? (k == ·) es).isSome = true ↔ k ∈ es.map (·.1) := by
  induction es with
  | nil => simp [Assoc.find?]
  | cons e r ih =>
    obtain ⟨k', v⟩ := e
    by_cases h : k = k'
    · simp [Assoc.find?, h]
    · simp [Assoc.find?, h, ih]

theorem isSome_get? (m : KeyedMap α γ) (a : α) :
    (m.get? a).isSome = true ↔ Keyed.key a ∈ m.keys := by
  rw [get?, entry?, Option.isSome_map]
  exact isSome_find? (Keyed.key a) m.entries

theorem has_iff (m : KeyedMap α γ) (a : α) : m.has a = true ↔ Keyed.key a ∈ m.keys := by
  simp [has, Assoc.has, keys]

omit [Keyed α] in
theorem mem_put {k : String} {x : γ} {es : List (String × γ)} {e : String × γ}
    (h : e ∈ Assoc.put (· == ·) k x es) : e = (k, x) ∨ e ∈ es := by
  induction es with
  | nil => simpa [Assoc.put] using h
  | cons y r ih =>
    obtain ⟨l, z⟩ := y
    unfold Assoc.put at h
    split at h
    · rename_i hl
      obtain rfl := beq_iff_eq.1 hl
      rcases List.mem_cons.1 h with h | h
      · exact .inl h
      · exact .inr (List.mem_cons_of_mem _ h)
    · rcases List.mem_cons.1 h with h | h
      · exact .inr (h ▸ List.mem_cons_self)
      · exact (ih h).imp_right (List.mem_cons_of_mem _)

/-- After a change a map holds what was put, under the node that it had for the key, and otherwise what it
held. -/
theorem mem_set {m : KeyedMap α γ} {a : α} {v : γ} {e : α × γ} (h : e ∈ (m.set a v).toList) :
    e = (((m.entry? (Keyed.key a)).map (·.1)).getD a, v) ∨ e ∈ m.toList := by
  obtain ⟨y, hy, rfl⟩ := List.mem_map.1 h
  rcases mem_put hy with rfl | hy
  · exact .inl rfl
  · exact .inr (List.mem_map_of_mem hy)

/-- After a change a map holds the value that was put, and otherwise what it held. -/
theorem mem_toList_set {m : KeyedMap α γ} {a : α} {v : γ} {e : α × γ}
    (h : e ∈ (m.set a v).toList) : e.2 = v ∨ e ∈ m.toList :=
  (mem_set h).imp_left (congrArg Prod.snd)

theorem mem_toList_of_get? {m : KeyedMap α γ} {a : α} {v : γ} (h : m.get? a = some v) :
    ∃ e ∈ m.toList, e.2 = v := by
  obtain ⟨x, hx, rfl⟩ := Option.map_eq_some_iff.1 h
  obtain ⟨k, -, hk⟩ := Assoc.mem_of_find? hx
  exact ⟨x, List.mem_map_of_mem hk, rfl⟩

end KeyedMap

/-! ### Proper maps -/

namespace KeyedMap

/-- Nodes stand under their own keys, and no key stands twice. -/
structure Proper (m : KeyedMap α γ) : Prop where
  keyed : ∀ e ∈ m.entries, Keyed.key e.2.1 = e.1
  once  : m.keys.Nodup

theorem Proper.empty : (KeyedMap.empty : KeyedMap α γ).Proper :=
  ⟨by simp [KeyedMap.empty], List.nodup_nil⟩

omit [Keyed α] in
theorem keys_put (k : String) (x : γ) (es : List (String × γ)) :
    (Assoc.put (· == ·) k x es).map (·.1)
      = if k ∈ es.map (·.1) then es.map (·.1) else es.map (·.1) ++ [k] := by
  induction es with
  | nil => simp [Assoc.put]
  | cons e r ih =>
    obtain ⟨l, y⟩ := e
    by_cases h : k = l
    · simp [Assoc.put, h]
    · simp only [Assoc.put, beq_iff_eq, h, if_false, List.map_cons, ih, List.mem_cons, false_or]
      split <;> rfl

theorem keys_set (m : KeyedMap α γ) (a : α) (v : γ) : (m.set a v).keys
    = if Keyed.key a ∈ m.keys then m.keys else m.keys ++ [Keyed.key a] :=
  keys_put _ _ m.entries

theorem keys_erase (m : KeyedMap α γ) (a : α) :
    (m.erase a).keys = m.keys.filter fun k => !(Keyed.key a == k) := by
  rw [keys, keys, List.filter_map]
  rfl

omit [Keyed α] in
theorem mem_of_find? {k : String} {x : γ} {es : List (String × γ)}
    (h : Assoc.find? (k == ·) es = some x) : (k, x) ∈ es := by
  obtain ⟨l, same, hl⟩ := Assoc.mem_of_find? h
  exact beq_iff_eq.1 same ▸ hl

omit [Keyed α] in
theorem find?_of_mem {k : String} {x : γ} : ∀ {es : List (String × γ)}, (es.map (·.1)).Nodup →
    (k, x) ∈ es → Assoc.find? (k == ·) es = some x
  | (l, y) :: r, once, h => by
    obtain ⟨new, once⟩ := List.nodup_cons.1 once
    rcases List.mem_cons.1 h with head | tail
    · cases head
      simp [Assoc.find?]
    · have known : k ∈ r.map (·.1) := List.mem_map.2 ⟨(k, x), tail, rfl⟩
      have hne : k ≠ l := fun hkl => new (hkl ▸ known)
      simpa [Assoc.find?, hne] using find?_of_mem once tail

namespace Proper

variable {m : KeyedMap α γ}

theorem set (h : m.Proper) (a : α) (v : γ) : (m.set a v).Proper where
  keyed e he := by
    rcases mem_put he with rfl | he
    · show Keyed.key (((m.entry? (Keyed.key a)).map (·.1)).getD a) = Keyed.key a
      cases held : m.entry? (Keyed.key a) with
      | none => rfl
      | some e => exact h.keyed _ (mem_of_find? held)
    · exact h.keyed e he
  once := by
    show ((Assoc.put (· == ·) (Keyed.key a) _ m.entries).map (·.1)).Nodup
    rw [keys_put]
    split
    · exact h.once
    · rename_i new
      exact List.nodup_append.2 ⟨h.once, by simp, fun k hk l hl => by
        rintro rfl
        exact new (List.mem_singleton.1 hl ▸ hk)⟩

/-- What stands in a proper map is what is looked up. -/
theorem get?_of_mem (h : m.Proper) {e : α × γ} (he : e ∈ m.toList) : m.get? e.1 = some e.2 := by
  obtain ⟨⟨k, a, v⟩, hmem, rfl⟩ := List.mem_map.1 he
  have hk : Keyed.key a = k := h.keyed _ hmem
  simp only [get?, entry?, hk, find?_of_mem h.once hmem, Option.map_some]

/-- What is looked up in a proper map stands there, under a node with that key. -/
theorem mem_of_get? (h : m.Proper) {a : α} {v : γ} (found : m.get? a = some v) :
    ∃ e ∈ m.toList, Keyed.key e.1 = Keyed.key a ∧ e.2 = v := by
  obtain ⟨e, he, rfl⟩ := Option.map_eq_some_iff.1 found
  have hmem := mem_of_find? he
  exact ⟨e, List.mem_map_of_mem hmem, h.keyed _ hmem, rfl⟩

theorem keys_toList (h : m.Proper) : m.toList.map (fun e => Keyed.key e.1) = m.keys := by
  simp only [toList, KeyedMap.keys, List.map_map]
  exact List.map_congr_left fun e he => h.keyed e he

theorem nodup_toList (h : m.Proper) : (m.toList.map fun e => Keyed.key e.1).Nodup := by
  rw [h.keys_toList]
  exact h.once

/-- The entry of a key is what stands there under a node with that key. -/
theorem entry?_eq_some (h : m.Proper) {k : String} {e : α × γ} :
    m.entry? k = some e ↔ e ∈ m.toList ∧ Keyed.key e.1 = k := by
  constructor
  · intro found
    have hmem := mem_of_find? found
    exact ⟨List.mem_map_of_mem hmem, h.keyed _ hmem⟩
  · rintro ⟨he, rfl⟩
    obtain ⟨⟨l, e⟩, hmem, rfl⟩ := List.mem_map.1 he
    obtain rfl : Keyed.key e.1 = l := h.keyed _ hmem
    exact find?_of_mem h.once hmem

/-- A value that is put stands under the node that was there, and all other keys keep what they have. -/
theorem mem_set_iff (h : m.Proper) {a : α} {v : γ} {e : α × γ} : e ∈ (m.set a v).toList ↔
    e = (((m.entry? (Keyed.key a)).map (·.1)).getD a, v) ∨
      e ∈ m.toList ∧ Keyed.key e.1 ≠ Keyed.key a := by
  constructor
  · intro he
    obtain ⟨⟨l, e⟩, hmem, rfl⟩ := List.mem_map.1 he
    rcases (Assoc.mem_put_iff h.once).1 hmem with put | ⟨hold, other⟩
    · exact .inl (congrArg Prod.snd put)
    · exact .inr ⟨List.mem_map_of_mem hold, h.keyed _ hold ▸ other⟩
  · rintro (rfl | ⟨he, other⟩)
    · exact List.mem_map_of_mem ((Assoc.mem_put_iff h.once).2 (.inl rfl))
    · obtain ⟨⟨l, e⟩, hmem, rfl⟩ := List.mem_map.1 he
      exact List.mem_map_of_mem
        ((Assoc.mem_put_iff h.once).2 (.inr ⟨hmem, (h.keyed _ hmem).symm ▸ other⟩))

theorem erase (h : m.Proper) (a : α) : (m.erase a).Proper where
  keyed e he := h.keyed e (List.mem_filter.1 he).1
  once  := h.once.sublist (List.filter_sublist.map _)

/-- What stands under other keys stays when a key is taken out. -/
theorem mem_erase_iff (h : m.Proper) {a : α} {e : α × γ} :
    e ∈ (m.erase a).toList ↔ e ∈ m.toList ∧ Keyed.key e.1 ≠ Keyed.key a := by
  constructor
  · intro he
    obtain ⟨x, hx, rfl⟩ := List.mem_map.1 he
    obtain ⟨hmem, other⟩ := List.mem_filter.1 hx
    rw [h.keyed x hmem]
    exact ⟨List.mem_map_of_mem hmem, Ne.symm (by simpa using other)⟩
  · rintro ⟨he, other⟩
    obtain ⟨x, hmem, rfl⟩ := List.mem_map.1 he
    rw [h.keyed x hmem] at other
    exact List.mem_map_of_mem (List.mem_filter.2 ⟨hmem, by simpa using other.symm⟩)

end Proper

end KeyedMap

/-! ### Proper sets -/

namespace KeyedSet

/-- Nodes stand under their own keys, and no key stands twice. -/
structure Proper (s : KeyedSet α) : Prop where
  keyed : ∀ e ∈ s.entries, Keyed.key e.2 = e.1
  once  : (s.entries.map (·.1)).Nodup

theorem Proper.empty : (KeyedSet.empty : KeyedSet α).Proper :=
  ⟨by simp [KeyedSet.empty], List.nodup_nil⟩

theorem Proper.add {s : KeyedSet α} (h : s.Proper) (a : α) : (s.add a).Proper := by
  unfold KeyedSet.add
  split
  · exact h
  · rename_i new
    refine ⟨List.forall_mem_append.2 ⟨h.keyed, by simp⟩, ?_⟩
    simp only [List.map_append, List.map_cons, List.map_nil]
    refine List.nodup_append.2 ⟨h.once, by simp, fun k hk l hl same => new ?_⟩
    obtain ⟨e, he, rfl⟩ := List.mem_map.1 hk
    exact hasKey_iff.2 ⟨e, he, same.trans (List.mem_singleton.1 hl)⟩

theorem Proper.ofList (as : List α) : (KeyedSet.ofList as).Proper := by
  have all : ∀ (as : List α) (s : KeyedSet α), s.Proper → (as.foldl KeyedSet.add s).Proper := by
    intro as
    induction as with
    | nil => exact fun _ h => h
    | cons a r ih => exact fun s h => ih _ (h.add a)
  exact all as .empty .empty

/-- A set has the keys of its nodes. -/
theorem Proper.hasKey {s : KeyedSet α} (h : s.Proper) {k : String} :
    s.hasKey k = true ↔ ∃ a ∈ s.toList, Keyed.key a = k := by
  rw [hasKey_iff]
  constructor
  · rintro ⟨e, he, rfl⟩
    exact ⟨e.2, List.mem_map_of_mem he, h.keyed e he⟩
  · rintro ⟨a, ha, rfl⟩
    obtain ⟨e, he, rfl⟩ := List.mem_map.1 ha
    exact ⟨e, he, (h.keyed e he).symm⟩

/-- The nodes of a set have distinct keys. -/
theorem Proper.nodup_toList {s : KeyedSet α} (h : s.Proper) : (s.toList.map Keyed.key).Nodup := by
  have keys : s.toList.map Keyed.key = s.entries.map (·.1) := by
    simp only [toList, List.map_map]
    exact List.map_congr_left h.keyed
  rw [keys]
  exact h.once

/-- A proper set that lies in another one has no more nodes. -/
theorem Proper.size_le {s t : KeyedSet α} (h : s.Proper) (within : s.subset t = true) :
    s.size ≤ t.size := by
  have inside : s.entries.map (·.1) ⊆ t.entries.map (·.1) := fun k hk => by
    have found := subset_iff.1 within k (hasKey_iff.2 (by simpa using hk))
    simpa using hasKey_iff.1 found
  simpa [size] using (h.once.subperm inside).length_le

end KeyedSet

/-! ### Nodes told by their forms -/

/-- Sets and maps take two nodes that are `ok` for one exactly where they have one form. -/
structure Keyed.Tells (ok : α → Prop) (form : α → β) : Prop where
  /-- A value put for a node is found for the nodes of the same form. -/
  found : ∀ (γ : Type) (m : KeyedMap α γ) (v : γ) (a b : α), ok a → ok b → form a = form b →
    (m.set a v).get? b = some v
  /-- A value put for a node changes nothing for nodes of another form. -/
  kept : ∀ (γ : Type) (m : KeyedMap α γ) (v : γ) (a b : α), ok a → ok b → form a ≠ form b →
    (m.set a v).get? b = m.get? b
  /-- A set has the nodes that have the form of one it was made of. -/
  has : ∀ (as : List α) (b : α), (∀ a ∈ as, ok a) → ok b →
    ((KeyedSet.ofList as).has b = true ↔ ∃ a ∈ as, form a = form b)
  /-- A set lies in another one if that one has a node of each form. -/
  subset : ∀ as bs : List α, (∀ a ∈ as, ok a) → (∀ b ∈ bs, ok b) →
    ((KeyedSet.ofList as).subset (KeyedSet.ofList bs) = true ↔
      ∀ a ∈ as, ∃ b ∈ bs, form b = form a)

/-- Where keys agree exactly for nodes of one form, sets and maps tell nodes by their forms. -/
theorem Keyed.Tells.of_key {ok : α → Prop} {form : α → β}
    (h : ∀ a b, ok a → ok b → (Keyed.key a = Keyed.key b ↔ form a = form b)) :
    Keyed.Tells ok form := by
  have has : ∀ (as : List α) (b : α), (∀ a ∈ as, ok a) → ok b →
      ((KeyedSet.ofList as).has b = true ↔ ∃ a ∈ as, form a = form b) := by
    intro as b has hb
    rw [KeyedSet.has, KeyedSet.hasKey_ofList]
    exact exists_congr fun a => and_congr_right fun ha => h a b (has a ha) hb
  refine ⟨fun γ m v a b ha hb hab => ?_, fun γ m v a b ha hb hab => ?_, has,
    fun as bs has' hbs => ?_⟩
  · exact m.get?_set_of_eq v ((h a b ha hb).2 hab)
  · exact m.get?_set_of_ne v fun hk => hab ((h a b ha hb).1 hk.symm)
  · rw [KeyedSet.subset_ofList]
    exact forall₂_congr fun a ha => has bs a hbs (has' a ha)

end QueryAlgebra
