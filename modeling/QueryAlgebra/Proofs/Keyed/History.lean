import Mathlib.Data.List.DropRight
import Mathlib.Data.Set.Card
import QueryAlgebra.Proofs.Keyed

/-!
# Maps and sets told by their histories

What a map of nodes answers and shows is told by what was asked of it before, key by key: what was put
under a key since the key was last taken out. The first put gives the node and the place, the last one
the value. A set of nodes is a map without values in which nothing is taken out.

* `KeyedMap.Request`, `KeyedMap.serveAll`, `KeyedSet.Request`, `KeyedSet.serveAll`: what is asked of maps
  and sets one after the other, and what they answer.
* `KeyedMap.putsOf`, `KeyedMap.Live`, `KeyedMap.entered`: what a history says of a key.
* `KeyedMap.answersOf`, `KeyedMap.Shows`: what it says of answers, and of what is shown, which is just one
  list (`Shows.unique`).
* `KeyedMap.Reflects`: a map shows what a history says. `Reflects.serve`: one request keeps that, and is
  answered by the history; `Reflects.serveAll`: so do all.
* `KeyedSet.asMap`, `KeyedSet.serveAll_asMap`: sets as maps without values.
* `collections_follow_history`: maps and sets do what their histories say, from any list on.
-/

namespace QueryAlgebra

namespace KeyedMap

variable {α β : Type} [Keyed α]

/-! ### Requests -/

/-- What is asked of a map: to change, or to say what it holds. -/
inductive Request (α β : Type) where
  | set   (a : α) (v : β)
  | get   (a : α)
  | has   (a : α)
  | erase (a : α)

/-- What a map answers: that it is done, the value that is held, if any, or whether something was there. -/
inductive Answer (β : Type) where
  | done
  | value (v? : Option β)
  | truth (b : Bool)

/-- The answer to a request, and the map afterwards. -/
def serve (m : KeyedMap α β) : Request α β → Answer β × KeyedMap α β
  | .set a v => (.done, m.set a v)
  | .get a   => (.value (m.get? a), m)
  | .has a   => (.truth (m.has a), m)
  | .erase a => (.truth (m.has a), m.erase a)

/-- The answers to requests one after the other, and the map at the end. -/
def serveAll (m : KeyedMap α β) : List (Request α β) → List (Answer β) × KeyedMap α β
  | []     => ([], m)
  | r :: s =>
    let (answer, next) := m.serve r
    let (answers, last) := next.serveAll s
    (answer :: answers, last)

/-! ### Histories -/

/-- Whether a request takes a key out. -/
def Request.erases (k : String) : Request α β → Bool
  | .erase a => Keyed.key a == k
  | _        => false

/-- What a request puts under a key. -/
def Request.put? (k : String) : Request α β → Option (α × β)
  | .set a v => if Keyed.key a = k then some (a, v) else none
  | _        => none

variable (k : String) (h : List (Request α β))

/-- What was asked since a key was last taken out, or from the beginning on. -/
def since : List (Request α β) := h.rtakeWhile fun r => !r.erases k

/-- What was put under a key since it was last taken out. -/
def putsOf : List (α × β) := (since k h).filterMap (Request.put? k)

/-- Something was put under a key and not taken out. -/
def Live : Prop := (putsOf k h).isEmpty = false

instance : Decidable (Live k h) := inferInstanceAs (Decidable (_ = _))

/-- The node that was put first under a key since it was last taken out. -/
def firstNode? : Option α := (putsOf k h).head?.map (·.1)

/-- The value that was put last under a key since it was last taken out. -/
def lastValue? : Option β := (putsOf k h).getLast?.map (·.2)

/-- The number of requests before the first one, since a key was last taken out, that puts something
under it. -/
def entered : Nat :=
  (h.length - (since k h).length) + (since k h).findIdx fun r => (r.put? k).isSome

variable {k h}

/-- What a history says of the answer to the next request. -/
def answerOf (h : List (Request α β)) : Request α β → Answer β
  | .set _ _ => .done
  | .get a   => .value (lastValue? (Keyed.key a) h)
  | .has a   => .truth (Live (Keyed.key a) h)
  | .erase a => .truth (Live (Keyed.key a) h)

/-- What a history says of the answers to further requests, each behind the ones before it. -/
def answersOf (h : List (Request α β)) : List (Request α β) → List (Answer β)
  | []     => []
  | r :: s => answerOf h r :: answersOf (h ++ [r]) s

/-- Nodes and values are those that a history leaves: one for each live key, in the order in which the
keys were entered, with the first node and the last value of each. -/
structure Shows (h : List (Request α β)) (es : List (α × β)) : Prop where
  live  : ∀ k, k ∈ es.map (fun e => Keyed.key e.1) ↔ Live k h
  order : (es.map fun e => Keyed.key e.1).Pairwise fun k l => entered k h < entered l h
  node  : ∀ e ∈ es, firstNode? (Keyed.key e.1) h = some e.1
  value : ∀ e ∈ es, lastValue? (Keyed.key e.1) h = some e.2

/-! ### One request more -/

theorem since_concat (r : Request α β) :
    since k (h ++ [r]) = if r.erases k then [] else since k h ++ [r] := by
  cases kept : r.erases k <;> simp [since, kept]

theorem putsOf_concat (r : Request α β) :
    putsOf k (h ++ [r]) = if r.erases k then [] else putsOf k h ++ (r.put? k).toList := by
  rw [putsOf, since_concat]
  split
  · rfl
  · rw [List.filterMap_append]
    cases put : r.put? k <;> simp [putsOf, put]

theorem not_live_iff : ¬Live k h ↔ putsOf k h = [] := by simp [Live]

theorem live_iff : Live k h ↔ ∃ r ∈ since k h, (r.put? k).isSome = true := by
  rw [Live, List.isEmpty_eq_false_iff_exists_mem]
  constructor
  · rintro ⟨e, he⟩
    obtain ⟨r, hr, put⟩ := List.mem_filterMap.1 he
    exact ⟨r, hr, by rw [put]; rfl⟩
  · rintro ⟨r, hr, put⟩
    obtain ⟨e, put⟩ := Option.isSome_iff_exists.1 put
    exact ⟨e, List.mem_filterMap.2 ⟨r, hr, put⟩⟩

theorem length_since_le : (since k h).length ≤ h.length := (List.rtakeWhile_suffix _ h).length_le

/-- A live key was entered by a request of the history. -/
theorem entered_lt (live : Live k h) : entered k h < h.length := by
  have inside : ((since k h).findIdx fun r => (r.put? k).isSome) < (since k h).length :=
    List.findIdx_lt_length.2 (live_iff.1 live)
  have shorter : (since k h).length ≤ h.length := length_since_le
  unfold entered
  omega

/-- A live key stays where it was entered unless it is taken out. -/
theorem entered_concat {r : Request α β} (live : Live k h) (kept : r.erases k = false) :
    entered k (h ++ [r]) = entered k h := by
  have inside := List.findIdx_lt_length.2 (live_iff.1 live)
  simp only [entered, since_concat, kept, Bool.false_eq_true, if_false, List.findIdx_append,
    if_pos inside, List.length_append, List.length_singleton, Nat.add_sub_add_right]

/-- A key that is not live is entered when something is put under it. -/
theorem entered_new {r : Request α β} (new : ¬Live k h) (kept : r.erases k = false)
    (put : (r.put? k).isSome = true) : entered k (h ++ [r]) = h.length := by
  have outside := (List.findIdx_lt_length (p := fun r : Request α β => (r.put? k).isSome)).not.2
    (live_iff.not.1 new)
  have shorter : (since k h).length ≤ h.length := length_since_le
  have here : List.findIdx (fun r : Request α β => (r.put? k).isSome) [r] = 0 := by
    simp [List.findIdx_cons, put]
  simp only [entered, since_concat, kept, Bool.false_eq_true, if_false, List.findIdx_append,
    if_neg outside, List.length_append, List.length_singleton, Nat.add_sub_add_right, here]
  omega

/-- Live keys that are not taken out stay in the order in which they were entered. -/
theorem ordered_concat {r : Request α β} {keys : List String} (live : ∀ k ∈ keys, Live k h)
    (kept : ∀ k ∈ keys, r.erases k = false)
    (order : keys.Pairwise fun k l => entered k h < entered l h) :
    keys.Pairwise fun k l => entered k (h ++ [r]) < entered l (h ++ [r]) := by
  refine order.imp_of_mem fun {k l} hk hl before => ?_
  rwa [entered_concat (live k hk) (kept k hk), entered_concat (live l hl) (kept l hl)]

/-! ### What a history leaves -/

namespace Shows

variable {es fs : List (α × β)}

theorem once (shown : Shows h es) : (es.map fun e => Keyed.key e.1).Nodup :=
  shown.order.imp fun {k l} before same => by simp [same] at before

/-- Nodes that a history leaves are as many as there are live keys. -/
theorem length (shown : Shows h es) : es.length = {k | Live k h}.ncard := by
  have live : {k | Live k h} = ((es.map fun e => Keyed.key e.1).toFinset : Set String) := by
    ext k
    simp [← shown.live k]
  rw [live, Set.ncard_coe_finset, List.toFinset_card_of_nodup shown.once, List.length_map]

/-- A history leaves one list of nodes and values, no other. -/
theorem unique (shown : Shows h es) (also : Shows h fs) : es = fs := by
  have perm : (es.map fun e => Keyed.key e.1).Perm (fs.map fun e => Keyed.key e.1) :=
    (List.perm_ext_iff_of_nodup shown.once also.once).2 fun k => (shown.live k).trans (also.live k).symm
  have keys : (es.map fun e => Keyed.key e.1) = fs.map fun e => Keyed.key e.1 :=
    perm.eq_of_pairwise (fun _ _ _ _ before after => absurd before after.asymm) shown.order also.order
  -- Both lists are what the history says of their keys.
  have told : ∀ {gs : List (α × β)}, Shows h gs → (gs.map fun g => (some g.1, some g.2))
      = (gs.map fun g => Keyed.key g.1).map fun k => (firstNode? k h, lastValue? k h) := fun sg => by
    rw [List.map_map]
    exact List.map_congr_left fun g hg => (Prod.ext (sg.node g hg) (sg.value g hg)).symm
  have same := (told shown).trans ((congrArg _ keys).trans (told also).symm)
  exact List.map_injective_iff.2 (fun x y equal => by simpa [Prod.ext_iff] using equal) same

theorem iff_eq (shown : Shows h es) : Shows h fs ↔ fs = es :=
  ⟨fun also => also.unique shown, fun same => same ▸ shown⟩

end Shows

/-! ### Maps that reflect a history -/

/-- A map stands as its history says. -/
structure Reflects (m : KeyedMap α β) (h : List (Request α β)) : Prop where
  proper : m.Proper
  shows  : Shows h m.toList

namespace Reflects

variable {m : KeyedMap α β}

theorem empty : (KeyedMap.empty : KeyedMap α β).Reflects [] where
  proper := .empty
  shows  := ⟨by simp [toList, KeyedMap.empty, Live, putsOf, since], .nil, nofun, nofun⟩

theorem mem_keys (R : m.Reflects h) : k ∈ m.keys ↔ Live k h := by
  rw [← R.proper.keys_toList]
  exact R.shows.live k

theorem order (R : m.Reflects h) : m.keys.Pairwise fun k l => entered k h < entered l h := by
  rw [← R.proper.keys_toList]
  exact R.shows.order

/-- A map reflects a history if its keys do, and each of them has its first node and its last value. -/
theorem of_keys (proper : m.Proper) (live : ∀ k, k ∈ m.keys ↔ Live k h)
    (order : m.keys.Pairwise fun k l => entered k h < entered l h)
    (held : ∀ e ∈ m.toList, firstNode? (Keyed.key e.1) h = some e.1 ∧
      lastValue? (Keyed.key e.1) h = some e.2) : m.Reflects h where
  proper := proper
  shows  := {
    live  := by rwa [proper.keys_toList]
    order := by rwa [proper.keys_toList]
    node  := fun e he => (held e he).1
    value := fun e he => (held e he).2 }

/-- A request that changes nothing. -/
theorem asked (R : m.Reflects h) {r : Request α β} (kept : ∀ k, r.erases k = false)
    (unput : ∀ k, r.put? k = none) : m.Reflects (h ++ [r]) := by
  have puts : ∀ k, putsOf k (h ++ [r]) = putsOf k h := fun k => by
    simp [putsOf_concat, kept, unput]
  refine of_keys R.proper (fun k => ?_) ?_ fun e he => ?_
  · rw [R.mem_keys, Live, Live, puts]
  · exact ordered_concat (fun k hk => R.mem_keys.1 hk) (fun k _ => kept k) R.order
  · rw [firstNode?, lastValue?, puts]
    exact ⟨R.shows.node e he, R.shows.value e he⟩

/-- A value is put under a key. -/
theorem set (R : m.Reflects h) (a : α) (v : β) : (m.set a v).Reflects (h ++ [.set a v]) := by
  have kept : ∀ k, (Request.set a v : Request α β).erases k = false := fun _ => rfl
  have own : putsOf (Keyed.key a) (h ++ [.set a v]) = putsOf (Keyed.key a) h ++ [(a, v)] := by
    simp [putsOf_concat, kept, Request.put?]
  have others : ∀ {k}, k ≠ Keyed.key a → putsOf k (h ++ [.set a v]) = putsOf k h := fun {k} other => by
    simp [putsOf_concat, kept, Request.put?, other.symm]
  have live : ∀ k, Live k (h ++ [.set a v]) ↔ k = Keyed.key a ∨ Live k h := fun k => by
    by_cases same : k = Keyed.key a
    · simp [Live, same, own]
    · simp [Live, same, others same]
  refine of_keys (R.proper.set a v) (fun k => ?_) ?_ fun e he => ?_
  · rw [keys_set, live, ← R.mem_keys]
    split
    · rename_i known
      exact ⟨.inr, fun hk => hk.elim (fun same => same ▸ known) id⟩
    · rw [List.mem_append, List.mem_singleton, or_comm]
  · have before := ordered_concat (fun k hk => R.mem_keys.1 hk) (fun k _ => kept k) R.order
    rw [keys_set]
    split
    · exact before
    · -- A new key is entered by this request, and all other keys were entered before it.
      rename_i new
      refine List.pairwise_append.2 ⟨before, List.pairwise_singleton _ _, fun k hk l hl => ?_⟩
      obtain rfl := List.mem_singleton.1 hl
      have hlive := R.mem_keys.1 hk
      rw [entered_concat hlive (kept k),
        entered_new (fun h => new (R.mem_keys.2 h)) (kept _) (by simp [Request.put?])]
      exact entered_lt hlive
  · rcases R.proper.mem_set_iff.1 he with rfl | ⟨he, other⟩
    · cases held : m.entry? (Keyed.key a) with
      | none =>
        have new : ¬Live (Keyed.key a) h := by rw [← R.mem_keys, ← isSome_get?, get?, held]; simp
        simp [firstNode?, lastValue?, own, not_live_iff.1 new]
      | some e =>
        obtain ⟨he, same⟩ := R.proper.entry?_eq_some.1 held
        have first := R.shows.node e he
        rw [same, firstNode?] at first
        obtain ⟨d, hd, hde⟩ := Option.map_eq_some_iff.1 first
        simp [firstNode?, lastValue?, same, own, hd, hde]
    · rw [firstNode?, lastValue?, others other]
      exact ⟨R.shows.node e he, R.shows.value e he⟩

/-- A key is taken out. -/
theorem erase (R : m.Reflects h) (a : α) : (m.erase a).Reflects (h ++ [.erase a]) := by
  have own : (Request.erase a : Request α β).erases (Keyed.key a) = true := beq_self_eq_true _
  have kept : ∀ {k}, k ≠ Keyed.key a → (Request.erase a : Request α β).erases k = false :=
    fun other => beq_false_of_ne other.symm
  have others : ∀ {k}, k ≠ Keyed.key a → putsOf k (h ++ [.erase a]) = putsOf k h := fun {k} other => by
    simp [putsOf_concat, kept other, Request.put?]
  have mem : ∀ k, k ∈ (m.erase a).keys ↔ k ∈ m.keys ∧ k ≠ Keyed.key a := fun k => by
    rw [keys_erase, List.mem_filter]
    exact and_congr_right fun _ => ⟨fun h => Ne.symm (by simpa using h), fun h => by simpa using h.symm⟩
  refine of_keys (R.proper.erase a) (fun k => ?_) ?_ fun e he => ?_
  · rw [mem, R.mem_keys]
    by_cases same : k = Keyed.key a
    · simp [Live, same, putsOf_concat, own]
    · simp [Live, same, others same]
  · refine ordered_concat (fun k hk => R.mem_keys.1 ((mem k).1 hk).1)
      (fun k hk => kept ((mem k).1 hk).2) ?_
    rw [keys_erase]
    exact R.order.sublist List.filter_sublist
  · obtain ⟨he, other⟩ := R.proper.mem_erase_iff.1 he
    rw [firstNode?, lastValue?, others other]
    exact ⟨R.shows.node e he, R.shows.value e he⟩

/-- **One request** is answered as the history says, and the map then stands as the longer history says. -/
theorem serve (R : m.Reflects h) (r : Request α β) :
    (m.serve r).1 = answerOf h r ∧ (m.serve r).2.Reflects (h ++ [r]) := by
  have has : ∀ a, m.has a = decide (Live (Keyed.key a) h) := fun a => by
    rw [Bool.eq_iff_iff, has_iff, R.mem_keys, decide_eq_true_iff]
  cases r with
  | set a v => exact ⟨rfl, R.set a v⟩
  | get a =>
    refine ⟨congrArg Answer.value ?_, R.asked (fun _ => rfl) fun _ => rfl⟩
    cases found : m.get? a with
    | none =>
      have new : ¬Live (Keyed.key a) h := by rw [← R.mem_keys, ← isSome_get?, found]; simp
      simp [lastValue?, not_live_iff.1 new]
    | some v =>
      obtain ⟨e, he, same, rfl⟩ := R.proper.mem_of_get? found
      exact (same ▸ R.shows.value e he).symm
  | has a => exact ⟨congrArg Answer.truth (has a), R.asked (fun _ => rfl) fun _ => rfl⟩
  | erase a => exact ⟨congrArg Answer.truth (has a), R.erase a⟩

/-- **All requests** are answered as the history says, and the map at the end stands as it says. -/
theorem serveAll (R : m.Reflects h) (rs : List (Request α β)) :
    (m.serveAll rs).1 = answersOf h rs ∧ (m.serveAll rs).2.Reflects (h ++ rs) := by
  induction rs generalizing m h with
  | nil => exact ⟨rfl, by rwa [List.append_nil]⟩
  | cons r s ih =>
    obtain ⟨answer, next⟩ := R.serve r
    obtain ⟨answers, last⟩ := ih next
    exact ⟨congrArg₂ List.cons answer answers, by rwa [List.append_cons]⟩

end Reflects

/-- The initial entries of a map are put one after the other. -/
theorem serveAll_sets (es : List (α × β)) (m : KeyedMap α β) :
    (m.serveAll (es.map fun e => .set e.1 e.2)).2 = es.foldl (fun m e => m.set e.1 e.2) m := by
  induction es generalizing m with
  | nil => rfl
  | cons e r ih => exact ih (m.set e.1 e.2)

theorem Reflects.ofList (es : List (α × β)) :
    (KeyedMap.ofList es).Reflects (es.map fun e => .set e.1 e.2) := by
  have started := (Reflects.empty.serveAll (es.map fun e => Request.set e.1 e.2)).2
  rwa [serveAll_sets] at started

end KeyedMap

/-! ### Sets -/

namespace KeyedSet

variable {α : Type} [Keyed α]

/-- What is asked of a set: to take in a node, or whether it holds one. -/
inductive Request (α : Type) where
  | add (a : α)
  | has (a : α)

/-- The answer to a request, and the set afterwards. -/
def serve (s : KeyedSet α) : Request α → KeyedMap.Answer Unit × KeyedSet α
  | .add a => (.done, s.add a)
  | .has a => (.truth (s.has a), s)

/-- The answers to requests one after the other, and the set at the end. -/
def serveAll (s : KeyedSet α) : List (Request α) → List (KeyedMap.Answer Unit) × KeyedSet α
  | []     => ([], s)
  | r :: t =>
    let (answer, next) := s.serve r
    let (answers, last) := next.serveAll t
    (answer :: answers, last)

/-- The request asked of a map without values. -/
def Request.asMap : Request α → KeyedMap.Request α Unit
  | .add a => .set a ()
  | .has a => .has a

/-- A set as a map without values. -/
def asMap (s : KeyedSet α) : KeyedMap α Unit := ⟨s.entries.map fun e => (e.1, e.2, ())⟩

omit [Keyed α] in
theorem toList_asMap (s : KeyedSet α) : s.asMap.toList = s.toList.map fun a => (a, ()) := by
  simp [asMap, KeyedMap.toList, toList]

omit [Keyed α] in
theorem mem_keys_asMap {s : KeyedSet α} {k : String} : k ∈ s.asMap.keys ↔ s.hasKey k = true := by
  simp [asMap, KeyedMap.keys, hasKey_iff]

theorem has_asMap (s : KeyedSet α) (a : α) : s.asMap.has a = s.has a := by
  rw [Bool.eq_iff_iff, KeyedMap.has_iff, mem_keys_asMap]
  rfl

/-- A node is taken in as it is put into a map: where its key is there, nothing changes. -/
theorem asMap_add (s : KeyedSet α) (a : α) : (s.add a).asMap = s.asMap.set a () := by
  unfold add
  split
  · rename_i known
    have found : (s.asMap.entry? (Keyed.key a)).isSome = true := by
      rw [KeyedMap.entry?, KeyedMap.isSome_find?]
      exact mem_keys_asMap.2 known
    obtain ⟨⟨b, ⟨⟩⟩, held⟩ := Option.isSome_iff_exists.1 found
    simp only [KeyedMap.set, held, Option.map_some, Option.getD_some]
    rw [Assoc.put_of_found held]
  · rename_i new
    have unknown : Keyed.key a ∉ s.asMap.keys := fun h => new (mem_keys_asMap.1 h)
    have unheld : s.asMap.entry? (Keyed.key a) = none := by
      rw [← Option.not_isSome_iff_eq_none, KeyedMap.entry?, KeyedMap.isSome_find?]
      exact unknown
    simp only [KeyedMap.set, unheld, Option.map_none, Option.getD_none]
    have unequal : ∀ e ∈ s.asMap.entries, (Keyed.key a == e.1) = false := fun e he =>
      beq_false_of_ne fun same => unknown (List.mem_map.2 ⟨e, he, same.symm⟩)
    rw [Assoc.put_of_new unequal]
    simp [asMap]

/-- **A set answers as a map without values.** -/
theorem serveAll_asMap (rs : List (Request α)) (s : KeyedSet α) :
    s.asMap.serveAll (rs.map Request.asMap) = ((s.serveAll rs).1, (s.serveAll rs).2.asMap) := by
  induction rs generalizing s with
  | nil => rfl
  | cons r t ih =>
    have one : s.asMap.serve r.asMap = ((s.serve r).1, (s.serve r).2.asMap) := by
      cases r with
      | add a => simp [Request.asMap, KeyedMap.serve, serve, asMap_add]
      | has a => simp [Request.asMap, KeyedMap.serve, serve, has_asMap]
    simp [KeyedMap.serveAll, serveAll, one, ih]

/-- The initial nodes of a set are taken in one after the other. -/
theorem serveAll_adds (as : List α) (s : KeyedSet α) :
    (s.serveAll (as.map .add)).2 = as.foldl add s := by
  induction as generalizing s with
  | nil => rfl
  | cons a r ih => exact ih (s.add a)

/-- A set that was made of nodes reflects that they were put into it. -/
theorem reflects_ofList (as : List α) :
    (ofList as).asMap.Reflects ((as.map Request.add).map Request.asMap) := by
  have started := (KeyedMap.Reflects.empty.serveAll ((as.map Request.add).map Request.asMap)).2
  rwa [show (KeyedMap.empty : KeyedMap α Unit) = (empty : KeyedSet α).asMap from rfl,
    serveAll_asMap, serveAll_adds] at started

/-- What is asked of a set further on is answered by its history. -/
theorem reflects_serveAll {s : KeyedSet α} {h : List (KeyedMap.Request α Unit)}
    (R : s.asMap.Reflects h) (rs : List (Request α)) :
    (s.serveAll rs).1 = KeyedMap.answersOf h (rs.map Request.asMap) ∧
      (s.serveAll rs).2.asMap.Reflects (h ++ rs.map Request.asMap) := by
  have served := R.serveAll (rs.map Request.asMap)
  rwa [serveAll_asMap] at served

end KeyedSet

open KeyedMap in
/-- **Maps and sets of nodes do what their histories say**, from any list on and for any requests. Each
request is answered by what was asked before it: looking up a key gives the value that was put last since
the key was last taken out, and a key is there if something was put under it since. In the end just what
the history says is shown: as many nodes as there are live keys, in the order in which the keys were
entered, each as it was first put and with the value put last. One set lies in another one if every live key of it is live there. -/
theorem collections_follow_history {α β : Type} [Keyed α] :
    (∀ (es : List (α × β)) (rs : List (KeyedMap.Request α β)),
      let start := es.map fun e => KeyedMap.Request.set e.1 e.2
      let (answers, m) := (KeyedMap.ofList es).serveAll rs
      answers = answersOf start rs ∧ (∀ shown, Shows (start ++ rs) shown ↔ shown = m.toList) ∧
        m.nodes = m.toList.map (·.1) ∧ m.values = m.toList.map (·.2) ∧
        m.size = {k | Live k (start ++ rs)}.ncard) ∧
    (∀ (as : List α) (rs : List (KeyedSet.Request α)),
      let start := (as.map KeyedSet.Request.add).map KeyedSet.Request.asMap
      let asked := rs.map KeyedSet.Request.asMap
      let (answers, s) := (KeyedSet.ofList as).serveAll rs
      answers = answersOf start asked ∧
        (∀ shown, Shows (start ++ asked) shown ↔ shown = s.toList.map fun a => (a, ())) ∧
        s.size = {k | Live k (start ++ asked)}.ncard) ∧
    ∀ (as bs : List α) (rs qs : List (KeyedSet.Request α)),
      ((KeyedSet.ofList as).serveAll rs).2.subset ((KeyedSet.ofList bs).serveAll qs).2 = true ↔
        ∀ k, Live k ((as.map KeyedSet.Request.add ++ rs).map KeyedSet.Request.asMap) →
          Live k ((bs.map KeyedSet.Request.add ++ qs).map KeyedSet.Request.asMap) := by
  refine ⟨fun es rs => ?_, fun as rs => ?_, fun as bs rs qs => ?_⟩
  · obtain ⟨answers, last⟩ := (Reflects.ofList es).serveAll rs
    have size := last.shows.length
    rw [toList, List.length_map] at size
    exact ⟨answers, fun _ => last.shows.iff_eq, by simp [nodes, toList], by simp [values, toList], size⟩
  · obtain ⟨answers, last⟩ := KeyedSet.reflects_serveAll (KeyedSet.reflects_ofList as) rs
    have shown := last.shows
    rw [KeyedSet.toList_asMap] at shown
    have size := shown.length
    rw [List.length_map, KeyedSet.toList, List.length_map] at size
    exact ⟨answers, fun _ => shown.iff_eq, size⟩
  · have live : ∀ (as : List α) (rs : List (KeyedSet.Request α)) (k : String),
        ((KeyedSet.ofList as).serveAll rs).2.hasKey k = true ↔
          Live k ((as.map KeyedSet.Request.add ++ rs).map KeyedSet.Request.asMap) := fun as rs k => by
      rw [← KeyedSet.mem_keys_asMap, List.map_append]
      exact (KeyedSet.reflects_serveAll (KeyedSet.reflects_ofList as) rs).2.mem_keys
    simp only [KeyedSet.subset_iff, live]

end QueryAlgebra
