import QueryAlgebra.Proofs.Tree.Elements

/-!
# Parts are found by a worklist

The parts of features are collected by a loop over a list of features that wait. It takes the last of
them and drops it if one with its key was found before; otherwise the feature counts as found, and its
direct parts wait in its place. The list grows as long as new keys turn up, and features that are shared
wait once for each place in which they stand.

* `Worklist`, `Worklist.turn?`, `Worklist.after`: the loop, turn by turn.
* `Worklist.turn?_spent`, `Worklist.after_spent`: each turn takes one feature that waits, and what comes
  to wait are the direct parts of what is found.
* `Worklist.turn?_proper`, `Worklist.after_proper`: no key is found twice.
* `Worklist.reaches_collect`, `Worklist.after_turns`: the loop comes to its end, with the parts that
  `partsIn` gives.
* `hasKey_partsIn_iff`: the keys that are found are those of the parts.
* `parts_collected`: the loop finds all parts, each key once, whatever the order of the features.
-/

namespace QueryAlgebra

/-! ### The loop -/

/-- Features that wait to be taken, the next one last, and those that were found. -/
structure Worklist where
  pending : List Feature
  found   : KeyedSet Feature

namespace Worklist

/-- All features wait, and nothing is found. -/
def start (fs : List Feature) : Worklist := ⟨fs, .empty⟩

/-- One turn: the next feature is dropped if its key was found, and otherwise found, its direct parts
waiting in its place. -/
def turn? (w : Worklist) : Option Worklist :=
  w.pending.getLast?.map fun f =>
    if w.found.has f then ⟨w.pending.dropLast, w.found⟩
    else ⟨w.pending.dropLast ++ f.children, w.found.add f⟩

/-- What a number of turns lead to, if there are so many. -/
def after : Nat → Worklist → Option Worklist
  | 0,     w => some w
  | n + 1, w => w.turn?.bind (after n)

/-- The number of features that have come to wait: the direct parts of all that is found. -/
def opened (w : Worklist) : Nat := (w.found.toList.map fun f => f.children.length).sum

variable {v w : Worklist}

theorem turn?_concat (rest : List Feature) (f : Feature) (seen : KeyedSet Feature) :
    turn? ⟨rest ++ [f], seen⟩ =
      some (if seen.has f then ⟨rest, seen⟩ else ⟨rest ++ f.children, seen.add f⟩) := by
  simp [turn?]

theorem turn?_end (seen : KeyedSet Feature) : turn? ⟨[], seen⟩ = none := rfl

/-- A turn that is taken takes the last feature. -/
theorem turn?_eq_some (h : v.turn? = some w) : ∃ rest f, v.pending = rest ++ [f] ∧
    w = if v.found.has f then ⟨rest, v.found⟩ else ⟨rest ++ f.children, v.found.add f⟩ := by
  obtain ⟨pending, seen⟩ := v
  rcases List.eq_nil_or_concat' pending with rfl | ⟨rest, f, rfl⟩
  · cases h
  · rw [turn?_concat] at h
    exact ⟨rest, f, rfl, (Option.some.inj h).symm⟩

/-- **A turn** takes one feature away and puts the direct parts of what it finds. -/
theorem turn?_spent (h : v.turn? = some w) :
    w.pending.length + 1 + v.opened = v.pending.length + w.opened := by
  obtain ⟨rest, f, hv, rfl⟩ := turn?_eq_some h
  split
  · simp [hv, opened]
  · rename_i new
    simp only [opened, hv, KeyedSet.add, new, Bool.false_eq_true, if_false, KeyedSet.toList,
      List.map_append, List.sum_append, List.length_append, List.map_cons, List.map_nil,
      List.sum_singleton, List.length_singleton]
    omega

/-- A turn finds no key a second time. -/
theorem turn?_proper (h : v.turn? = some w) (proper : v.found.Proper) : w.found.Proper := by
  obtain ⟨rest, f, -, rfl⟩ := turn?_eq_some h
  split
  · exact proper
  · exact proper.add f

/-! ### All turns -/

theorem after_add (m n : Nat) (w : Worklist) : after (m + n) w = (after m w).bind (after n) := by
  induction m generalizing w with
  | zero => simp [after]
  | succ m ih =>
    rw [Nat.succ_add_eq_add_succ, Nat.add_succ, after, after, Option.bind_assoc]
    exact Option.bind_congr fun v _ => ih v

/-- **Any number of turns** takes as many features away. -/
theorem after_spent {n : Nat} (h : after n v = some w) :
    w.pending.length + n + v.opened = v.pending.length + w.opened := by
  induction n generalizing v with
  | zero =>
    obtain rfl : v = w := by simpa [after] using h
    rfl
  | succ n ih =>
    obtain ⟨u, turn, rest⟩ := Option.bind_eq_some_iff.1 h
    have spent := turn?_spent turn
    have later := ih rest
    omega

theorem after_proper {n : Nat} (h : after n v = some w) (proper : v.found.Proper) :
    w.found.Proper := by
  induction n generalizing v with
  | zero =>
    obtain rfl : v = w := by simpa [after] using h
    exact proper
  | succ n ih =>
    obtain ⟨u, turn, rest⟩ := Option.bind_eq_some_iff.1 h
    exact ih rest (turn?_proper turn proper)

/-- Some number of turns leads from one state to another. -/
def Reaches (v w : Worklist) : Prop := ∃ n, after n v = some w

theorem Reaches.refl (w : Worklist) : w.Reaches w := ⟨0, rfl⟩

theorem Reaches.trans {u : Worklist} (h : u.Reaches v) (g : v.Reaches w) : u.Reaches w := by
  obtain ⟨m, hm⟩ := h
  obtain ⟨n, hn⟩ := g
  exact ⟨m + n, by rw [after_add, hm, Option.bind_some, hn]⟩

theorem Reaches.of_turn? (h : v.turn? = some w) : v.Reaches w := ⟨1, by rw [after, h]; rfl⟩

/-- Features that wait last are taken first, the last of them before the others, if each one is. -/
theorem reaches_collectAll {fs : List Feature}
    (each : ∀ f ∈ fs, ∀ rest seen, Reaches ⟨rest ++ [f], seen⟩ ⟨rest, f.collect seen⟩) :
    ∀ rest seen, Reaches ⟨rest ++ fs, seen⟩ ⟨rest, collectAll fs seen⟩ := by
  induction fs with
  | nil =>
    intro rest seen
    simpa [collectAll] using Reaches.refl _
  | cons f r ih =>
    intro rest seen
    obtain ⟨hf, hr⟩ := List.forall_mem_cons.1 each
    rw [List.append_cons]
    exact (ih hr (rest ++ [f]) seen).trans (hf rest (collectAll r seen))

/-- **A feature that waits last** is taken with everything inside it before the others. -/
theorem reaches_collect : ∀ (f : Feature) (rest : List Feature) (seen : KeyedSet Feature),
    Reaches ⟨rest ++ [f], seen⟩ ⟨rest, f.collect seen⟩ := by
  refine Feature.childInduction fun f ih rest seen => ?_
  have turn := Reaches.of_turn? (turn?_concat rest f seen)
  rw [f.collect_eq]
  by_cases known : seen.has f = true
  · rw [if_pos known] at turn ⊢
    exact turn
  · rw [if_neg known] at turn ⊢
    exact turn.trans (reaches_collectAll ih rest (seen.add f))

/-- The number of turns of the loop: one for each feature given, and one for each direct part of a feature
that is found. -/
def turns (fs : List Feature) : Nat :=
  fs.length + ((partsIn fs).toList.map fun f => f.children.length).sum

/-- **The loop ends** with the parts of the features, after as many turns as features came to wait. -/
theorem after_turns (fs : List Feature) : after (turns fs) (start fs) = some ⟨[], partsIn fs⟩ := by
  obtain ⟨n, hn⟩ : Reaches (start fs) ⟨[], partsIn fs⟩ :=
    reaches_collectAll (fun f _ => reaches_collect f) [] .empty
  have spent := after_spent hn
  obtain rfl : n = turns fs := by
    simpa [start, opened, KeyedSet.toList, KeyedSet.empty, turns] using spent
  exact hn

/-- The loop takes that many turns and no more. -/
theorem isSome_after_start {n : Nat} {fs : List Feature} :
    (after n (start fs)).isSome = true ↔ n ≤ turns fs := by
  have reached := after_turns fs
  constructor
  · contrapose!
    intro more
    obtain ⟨k, rfl⟩ : ∃ k, n = turns fs + (k + 1) := ⟨n - turns fs - 1, by omega⟩
    rw [after_add, reached, Option.bind_some, after, turn?_end]
    simp
  · intro less
    obtain ⟨k, hk⟩ := Nat.exists_eq_add_of_le less
    rw [hk, after_add] at reached
    obtain ⟨w, hw, -⟩ := Option.bind_eq_some_iff.1 reached
    rw [hw]
    rfl

end Worklist

/-! ### What is found -/

theorem partsIn_proper (fs : List Feature) : (partsIn fs).Proper :=
  Worklist.after_proper (Worklist.after_turns fs) KeyedSet.Proper.empty

/-- **The keys that are found are those of the parts.** -/
theorem hasKey_partsIn_iff {fs : List Feature} (hfs : ∀ f ∈ fs, f.Obeys .distinct) {k : String} :
    (partsIn fs).hasKey k = true ↔ ∃ f ∈ fs, ∃ x : Feature, x.PartOf f ∧ x.key = k := by
  constructor
  · intro h
    obtain ⟨x, hx, rfl, -⟩ := entry_partsIn h
    obtain ⟨f, hf, inside⟩ := partOf_of_mem_partsIn x hx
    exact ⟨f, hf, x, inside, rfl⟩
  · rintro ⟨f, hf, x, inside, rfl⟩
    exact hasKey_of_partOf hfs inside (hfs f hf) ((partsIn_grown fs).2 f hf)

/-- More features, told by their keys, have more parts. -/
theorem partsIn_subset {fs gs : List Feature} (hfs : ∀ f ∈ fs, f.Obeys .distinct)
    (hgs : ∀ g ∈ gs, g.Obeys .distinct) (among : ∀ f ∈ fs, ∃ g ∈ gs, g.key = f.key) :
    (partsIn fs).subset (partsIn gs) = true := by
  refine KeyedSet.subset_iff.2 fun k hk => ?_
  obtain ⟨f, hf, x, inside, rfl⟩ := (hasKey_partsIn_iff hfs).1 hk
  obtain ⟨g, hg, same⟩ := among f hf
  exact hasKey_of_partOf hgs inside (hfs f hf) (same ▸ (partsIn_grown gs).2 g hg)

/-- **The loop finds all parts**, for features that constructors build, without structs. It ends, after
one turn for each feature given and one for each direct part of a feature found, with the given features
and everything inside them, through what aliases name, arguments of expressions, and functions, partitions
and orderings of windows: nothing else, and of each key one feature. Features that are among others up to
keys have no other parts than those, so neither order nor repetition of features makes a difference. -/
theorem parts_collected {fs : List Feature} (built : ∀ f ∈ fs, f.Built ∧ f.Obeys .structFree) :
    (Worklist.after (Worklist.turns fs) (.start fs) = some ⟨[], partsIn fs⟩ ∧
      ∀ n, (Worklist.after n (.start fs)).isSome = true ↔ n ≤ Worklist.turns fs) ∧
    ((∀ x ∈ (partsIn fs).toList, ∃ f ∈ fs, x.PartOf f) ∧
      ∀ f ∈ fs, ∀ x : Feature, x.PartOf f → ∃! y, y ∈ (partsIn fs).toList ∧ y.key = x.key) ∧
    ((partsIn fs).toList.map Feature.key).Nodup ∧
    ∀ gs : List Feature, (∀ g ∈ gs, g.Built ∧ g.Obeys .structFree) →
      ((∀ f ∈ fs, ∃ g ∈ gs, g.key = f.key) →
        (partsIn fs).subset (partsIn gs) = true ∧ (partsIn fs).size ≤ (partsIn gs).size) ∧
      ((∀ k, k ∈ fs.map Feature.key ↔ k ∈ gs.map Feature.key) →
        (∀ k, (partsIn fs).hasKey k = (partsIn gs).hasKey k) ∧
          (partsIn fs).size = (partsIn gs).size) := by
  have distinct : ∀ {hs : List Feature}, (∀ h ∈ hs, h.Built ∧ h.Obeys .structFree) →
      ∀ h ∈ hs, h.Obeys .distinct := fun ok h hh => (ok h hh).1.distinct (ok h hh).2
  have hfs := distinct built
  have once : ((partsIn fs).toList.map Feature.key).Nodup := (partsIn_proper fs).nodup_toList
  refine ⟨⟨Worklist.after_turns fs, fun _ => Worklist.isSome_after_start⟩,
    ⟨partOf_of_mem_partsIn, fun f hf x inside => ?_⟩, once, fun gs hgs => ?_⟩
  · obtain ⟨y, hy, same, -⟩ := entry_partsIn ((hasKey_partsIn_iff hfs).2 ⟨f, hf, x, inside, rfl⟩)
    exact ⟨y, ⟨hy, same⟩, fun z ⟨hz, also⟩ =>
      List.inj_on_of_nodup_map once hz hy (also.trans same.symm)⟩
  · have more : ∀ {hs is : List Feature}, (∀ h ∈ hs, h.Obeys .distinct) →
        (∀ i ∈ is, i.Obeys .distinct) → (∀ h ∈ hs, ∃ i ∈ is, i.key = h.key) →
          (partsIn hs).subset (partsIn is) = true ∧ (partsIn hs).size ≤ (partsIn is).size :=
      fun ok ok' among =>
        have within := partsIn_subset ok ok' among
        ⟨within, (partsIn_proper _).size_le within⟩
    refine ⟨more hfs (distinct hgs), fun same => ?_⟩
    obtain ⟨there, le⟩ := more hfs (distinct hgs) fun f hf =>
      List.mem_map.1 ((same f.key).1 (List.mem_map_of_mem hf))
    obtain ⟨back, ge⟩ := more (distinct hgs) hfs fun g hg =>
      List.mem_map.1 ((same g.key).2 (List.mem_map_of_mem hg))
    exact ⟨fun k => Bool.eq_iff_iff.2
      ⟨KeyedSet.subset_iff.1 there k, KeyedSet.subset_iff.1 back k⟩, le.antisymm ge⟩

/-- A running total, given twice beside the column that it sums and orders by, is found with its four parts in
seven turns, as it is when it is given once behind the column. -/
theorem parts_collected_of_running :
    let scored : Source := .table ⟨"scored", [("school", ⟨.primitive .integer, "school"⟩),
      ("score", ⟨.primitive .integer, "score"⟩)]⟩
    let school : Feature := .element scored "school" (.primitive .integer)
    let score : Feature := .element scored "score" (.primitive .integer)
    let total : Feature := .expression .sum [score] none
    let running : Feature := .window total [school] [.by score .ascending] none
    (∀ f ∈ [running, score, running], f.Built ∧ f.Obeys .structFree) ∧
      Worklist.after 7 (.start [running, score, running])
        = some ⟨[], partsIn [running, score, running]⟩ ∧
      (partsIn [running, score, running]).toList.map Feature.key
        = [running, score, school, total].map Feature.key ∧
      ∀ k, (partsIn [running, score, running]).hasKey k = (partsIn [score, running]).hasKey k := by
  intro scored school score total running
  have table : scored.Built := .of_distinct rfl
  have hschool : school.Built := .element table (show scored.get "school" = .ok _ from rfl)
  have hscore : score.Built := .element table (show scored.get "score" = .ok _ from rfl)
  have htotal : total.Built := built_single hscore rfl
  have hrunning : running.Built :=
    @Feature.Built.window total [.feature school] [.term (.by score .ascending)] none _
      htotal (by simpa using .feature hschool) (by simpa using .term (.by _ hscore)) rfl
  have plain : scored.Obeys .structFree := structFree_table rfl
  have column (name : String) :
      (Feature.element scored name (.primitive .integer)).Obeys .structFree := ⟨trivial, plain⟩
  have free : running.Obeys .structFree :=
    ⟨trivial, ⟨nofun, column _, trivial⟩, ⟨column _, trivial⟩, ⟨column _, trivial⟩⟩
  have once : ∀ f ∈ [score, running], f.Built ∧ f.Obeys .structFree :=
    List.forall_mem_cons.2 ⟨⟨hscore, column _⟩, List.forall_mem_singleton.2 ⟨hrunning, free⟩⟩
  have twice : ∀ f ∈ [running, score, running], f.Built ∧ f.Obeys .structFree :=
    List.forall_mem_cons.2 ⟨⟨hrunning, free⟩, once⟩
  have turns : Worklist.turns [running, score, running] = 7 := by decide +kernel
  have found : (partsIn [running, score, running]).toList.map Feature.key
      = [running, score, school, total].map Feature.key := by decide +kernel
  obtain ⟨⟨ends, -⟩, -, -, others⟩ := parts_collected twice
  have same : ∀ k, k ∈ [running, score, running].map Feature.key ↔ k ∈ [score, running].map Feature.key :=
    fun k => ⟨fun h => (List.mem_cons.1 h).elim
      (fun again => again ▸ List.mem_map_of_mem (List.mem_cons_of_mem _ List.mem_cons_self)) id,
      List.mem_cons_of_mem _⟩
  exact ⟨twice, turns ▸ ends, found, ((others _ once).2 same).1⟩

end QueryAlgebra
