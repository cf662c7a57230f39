import QueryAlgebra.Proofs.Evaluation.Locality

/-!
# Peers of rows in windows

A window without a frame aggregates the rows of a partition up to the last one that ties with the current
row, or the whole partition where it is not ordered. Where the values of the sorting keys are in a total
preorder, these are exactly the rows that do not sort after the current one.

* `arePeers_iff`, `leadingPeers_eq_ok`: peers tie on all sorting keys.
* `frameAt_peers`: the rows of a frame that follows the peers.
* `FollowsPeers`, `peer_rows`: the rows that a window without a frame aggregates in a partition.
* `peers_confused`: rows in partitions by another table's names.
-/

namespace QueryAlgebra

open Evaluation Translation Dataset

namespace Evaluation

theorem arePeers_iff {i j : Nat} : ∀ {keys : List SortKey} {yes : Bool},
    arePeers keys i j = .ok yes → (yes = true ↔ Tied keys i j)
  | [], yes, h => by
    obtain rfl := Except.ok.inj h
    simp [Tied]
  | (values, d) :: r, yes, h => by
    obtain ⟨c, compared, h⟩ := bind_eq_ok.1 h
    have first : Ties (values, d) i j ↔ c = .equal := by simp [Ties, compared]
    rw [Tied, List.forall_mem_cons, first]
    split at h
    · rename_i equal
      rw [arePeers_iff h]
      exact (and_iff_right equal).symm
    · rename_i apart
      obtain rfl := pure_eq_ok.1 h
      simp [apart]

/-- The peers at the head of a list are a part of it at its head, and end where a row does not tie. -/
theorem leadingPeers_eq_ok {keys : List SortKey} {row : Nat} : ∀ {rest peers : List Nat},
    leadingPeers keys row rest = .ok peers → (∀ j ∈ peers, Tied keys row j) ∧
      ∃ after, rest = peers ++ after ∧ ∀ j ∈ after.head?, ¬Tied keys row j
  | [], peers, h => by
    obtain rfl : [] = peers := Except.ok.inj h
    exact ⟨nofun, [], rfl, nofun⟩
  | a :: r, peers, h => by
    obtain ⟨tie, decided, h⟩ := bind_eq_ok.1 h
    have tied := arePeers_iff decided
    split at h
    · rename_i yes
      obtain ⟨others, more, h⟩ := bind_eq_ok.1 h
      obtain rfl := pure_eq_ok.1 h
      obtain ⟨each, after, split, ends⟩ := leadingPeers_eq_ok more
      exact ⟨List.forall_mem_cons.2 ⟨tied.1 yes, each⟩, after, by rw [split, List.cons_append], ends⟩
    · rename_i no
      obtain rfl := pure_eq_ok.1 h
      refine ⟨nofun, a :: r, rfl, ?_⟩
      rintro _ ⟨⟩
      exact fun tie => no (tied.2 tie)

section

variable {known : Nat → Prop} {keys : List SortKey} (ordered : ∀ k ∈ keys, KeyOrdered known k)
include ordered

/-- Behind a row that does not tie with another one no row does. -/
theorem sortsBefore_of_after {row : Nat} (hrow : known row) {after : List Nat}
    (inside : ∀ j ∈ after, known j) (sorted : Arranged keys (row :: after))
    (ends : ∀ j ∈ after.head?, ¬Tied keys row j) : ∀ j ∈ after, SortsBefore keys row j := by
  cases after with
  | nil => nofun
  | cons q r =>
    obtain ⟨first, others⟩ := List.pairwise_cons.1 sorted
    obtain ⟨hq, hr⟩ := List.forall_mem_cons.1 inside
    have next : SortsBefore keys row q :=
      (first q List.mem_cons_self).resolve_right fun h => ends q rfl h.1
    refine List.forall_mem_cons.2 ⟨next, fun j hj => ?_⟩
    exact next.trans hrow hq (hr j hj) ordered (((List.pairwise_cons.1 others).1 j hj).imp_right And.left)

/-- **The frame of a row that follows the peers** is the part of the sorted partition at its head that
holds the rows which do not sort after that row. -/
theorem frameAt_peers {sorted rows : List Nat} (inside : ∀ i ∈ sorted, known i)
    (arranged : Arranged keys sorted) {p row : Nat} (at_p : sorted[p]? = some row)
    (h : frameAt keys none sorted p = .ok rows) :
    rows <+: sorted ∧ ∀ j, j ∈ rows ↔ j ∈ sorted ∧ ¬SortsBefore keys row j := by
  unfold frameAt at h
  dsimp only at h
  split at h
  · rename_i unkeyed
    obtain rfl := List.isEmpty_iff.1 unkeyed
    obtain rfl := Except.ok.inj h
    exact ⟨List.prefix_rfl, fun j => by simp [not_sortsBefore_nil]⟩
  · obtain ⟨bound, rfl⟩ := List.getElem?_eq_some_iff.1 at_p
    unfold peerFrame at h
    rw [List.drop_eq_getElem_cons bound] at h
    obtain ⟨peers, leading, h⟩ := bind_eq_ok.1 h
    obtain rfl := pure_eq_ok.1 h
    obtain ⟨tied, after, rest, ends⟩ := leadingPeers_eq_ok leading
    have split : sorted = sorted.take p ++ sorted[p] :: (peers ++ after) := by
      rw [← rest, ← List.drop_eq_getElem_cons bound, List.take_append_drop]
    have head : sorted.take (p + 1) = sorted.take p ++ [sorted[p]] := by
      rw [List.take_add_one, List.getElem?_eq_getElem bound, Option.toList_some]
    have hrow := inside _ (List.getElem_mem bound)
    generalize sorted[p] = row at *
    generalize sorted.take p = first at *
    subst split
    rw [head]
    obtain ⟨-, others, across⟩ := List.pairwise_append.1 arranged
    have behind : ∀ j ∈ after, SortsBefore keys row j := by
      refine sortsBefore_of_after ordered hrow (fun j hj => inside j (by simp [hj])) ?_ ends
      exact others.sublist (List.Sublist.cons_cons _ (List.sublist_append_right _ _))
    refine ⟨⟨after, by simp⟩, fun j => ⟨fun hj => ⟨?_, fun before => ?_⟩, fun ⟨hj, last⟩ => ?_⟩⟩
    · simp only [List.mem_append, List.mem_cons, List.not_mem_nil, or_false] at hj ⊢
      tauto
    · simp only [List.mem_append, List.mem_cons, List.not_mem_nil, or_false] at hj
      rcases hj with (hj | rfl) | hj
      · rcases across j hj row List.mem_cons_self with earlier | tie
        · exact earlier.asymm (inside j (by simp [hj])) hrow ordered before
        · exact Tied.not_sortsBefore (fun k hk => (tie.1 k hk).symm) before
      · exact before.asymm hrow hrow ordered before
      · exact Tied.not_sortsBefore (tied j hj) before
    · have early : j ∉ after := fun h => last (behind j h)
      simp only [List.mem_append, List.mem_cons, List.not_mem_nil, or_false] at hj ⊢
      tauto

end

/-! ### Windows -/

/-- In a partition a window aggregates for each row the rows that do not sort after it, as they are
sorted. So rows that tie have the same value. -/
structure FollowsPeers (fn : Feature) (d : Dataset) (keys : List SortKey) (members : List Nat)
    (vs : List Value) : Prop where
  framed : ∃ sorted : List Nat, sorted.Perm members ∧ Arranged keys sorted ∧ ∀ i ∈ members,
    ∃ rows, rows <+: sorted ∧ (∀ j, j ∈ rows ↔ j ∈ members ∧ ¬SortsBefore keys i j) ∧
      fn.Aggregates d rows (item vs i)
  tied   : ∀ i ∈ members, ∀ j ∈ members, Tied keys i j → item vs i = item vs j

/-- Heads of a list without repetitions that have the same members are one. -/
theorem prefix_unique {sorted rows rows' : List Nat} (distinct : sorted.Nodup) (h : rows <+: sorted)
    (h' : rows' <+: sorted) (same : ∀ j, j ∈ rows ↔ j ∈ rows') : rows = rows' := by
  have perm : rows.Perm rows' :=
    (List.perm_ext_iff_of_nodup (distinct.sublist h.sublist) (distinct.sublist h'.sublist)).2 same
  rw [List.prefix_iff_eq_take.1 h, List.prefix_iff_eq_take.1 h', perm.length_eq]

/-- **A partition of a window without a frame.** -/
theorem followsPeers_of_partition {fn : Feature} (aggregates : fn.aggregates = true) {y : FeaturePlan}
    (hy : fn.Plans y) {d : Dataset} {keys : List SortKey}
    (ordered : ∀ k ∈ keys, KeyOrdered (· < d.length) k) {members : List Nat}
    (inside : ∀ i ∈ members, i < d.length) (distinct : members.Nodup) {vs : List Value}
    (h : ∃ sorted, arrange members keys = .ok sorted ∧ ∀ p row, sorted[p]? = some row →
      ∃ rows ws, frameAt keys none sorted p = .ok rows ∧ y.values ⟨d, some [rows]⟩ = .ok ws ∧
        item vs row = item ws 0) : FollowsPeers fn d keys members vs := by
  obtain ⟨sorted, arranged, framed⟩ := h
  have perm := arrange_perm arranged
  have inOrder : Arranged keys sorted := arrange_pairwise ordered inside distinct arranged
  have row : ∀ i ∈ members, ∃ rows ws, rows <+: sorted ∧
      (∀ j, j ∈ rows ↔ j ∈ members ∧ ¬SortsBefore keys i j) ∧ y.values ⟨d, some [rows]⟩ = .ok ws ∧
      item vs i = item ws 0 := fun i hi => by
    obtain ⟨p, at_p⟩ := List.getElem?_of_mem (perm.mem_iff.2 hi)
    obtain ⟨rows, ws, frame, value, same⟩ := framed p i at_p
    obtain ⟨head, all⟩ := frameAt_peers ordered (fun j hj => inside j (perm.mem_iff.1 hj)) inOrder at_p frame
    exact ⟨rows, ws, head, fun j => by rw [all, perm.mem_iff], value, same⟩
  refine ⟨⟨sorted, perm, inOrder, fun i hi => ?_⟩, fun i hi j hj tied => ?_⟩
  · obtain ⟨rows, ws, head, all, value, same⟩ := row i hi
    exact ⟨rows, head, all, same ▸ aggregates_of_plans aggregates hy value⟩
  · obtain ⟨rows, ws, head, all, value, same⟩ := row i hi
    obtain ⟨rows', ws', head', all', value', same'⟩ := row j hj
    have back : Tied keys j i := fun k hk => (tied k hk).symm
    obtain rfl : rows = rows' := prefix_unique (perm.nodup_iff.2 distinct) head head' fun l => by
      rw [all, all']
      refine and_congr_right fun hl => not_congr ⟨fun before => ?_, fun before => ?_⟩
      · refine Tied.sortsBefore ?_ ?_ ?_ ordered back before <;> exact inside _ ‹_›
      · refine Tied.sortsBefore ?_ ?_ ?_ ordered tied before <;> exact inside _ ‹_›
    obtain rfl := Except.ok.inj (value.symm.trans value')
    exact same.trans same'.symm

section

variable {sources : KeyedMap Source SourcePlan} {kinds : String → Kind} {labels : String → String}

/-- **A window without a frame follows the peers**, whatever was translated before. Each row has one
value. The rows of the data are in partitions by their keys, and where the values of each sorting key are
in a total preorder, the value of a row is the aggregate of exactly those rows of its partition that do
not sort after it. No other partition has an influence: the rows of one partition have on their own the
values that they have among all. -/
theorem peer_rows {history : List Tree}
    (known : ∀ tree ∈ history, tree.Built ∧
      tree.Obeys (Rules.structFree.and ((Rules.told kinds).and (.labelled labels))))
    {fn : Feature} {ps : List Feature} {os : List OrderTerm}
    (built : (Feature.window fn ps os none).Built)
    (obeys : (Feature.window fn ps os none).Obeys
      (Rules.structFree.and ((Rules.told kinds).and (.labelled labels))))
    {x : FeaturePlan} {t : Translator SourcePlan FeaturePlan}
    (compiled : (translatorAfter sources history).serve
      (.finish (.feature (.window fn ps os none))) = (.ok (some (.feature x)), t))
    {d : Dataset} {vs : List Value} (evaluated : x.values (.ofData d) = .ok vs) :
    ∃ columns names keys, RowKeys ps d columns names ∧
      List.Forall₂ (fun o k => o.feature.Column (.ofData d) k.1 ∧ k.2 = o.direction) os keys ∧
      vs.length = d.length ∧
      ((∀ k ∈ keys, KeyOrdered (· < d.length) k) →
        ∀ key, FollowsPeers fn d keys (positionsOf names key) vs) ∧
      (d.Regular → (∀ c ∈ fn.children ++ ps ++ os.map OrderTerm.feature,
          c.Throughout fun g => g.isCollective = false) →
        ∀ key, x.values (.ofData (d.only (positionsOf names key)))
          = .ok ((positionsOf names key).map (item vs))) := by
  have plan := plans_of_compiled_window
    (fun tree htree => (known tree htree).1.obeys Rules.ensures_faithful (known tree htree).2)
    (Feature.Built.obeys Rules.ensures_faithful _ built obeys) compiled
  have aggregates := built.inv_window.2.1
  cases plan with
  | @window _ _ _ _ fr y _ xs ys hfn hps hos directions frame made =>
    obtain rfl : fr = none := Option.map_eq_none_iff.1 frame
    rw [window_values made] at evaluated ⊢
    obtain ⟨keys, columns, partitions, ordered, parted, grouped, each⟩ := windowValues_eq_ok evaluated
    obtain ⟨names, named, rfl⟩ := groupRows_eq_ok grouped
    refine ⟨columns, names, keys, ⟨forall₂_through hps (mapM_eq_ok parted), named⟩,
      keyed_of_sortKeys hos directions ordered, windowValues_length evaluated, fun order key => ?_,
      fun regular single key => ?_⟩
    · rcases Nat.eq_zero_or_pos (positionsOf names key).length with none | occupied
      · rw [List.eq_nil_of_length_eq_zero none]
        exact ⟨⟨[], .rfl, .nil, nofun⟩, nofun⟩
      · refine followsPeers_of_partition aggregates hfn order (fun i hi => ?_)
          ((positionsOf_ascending names key).imp ne_of_lt) (each _ (positionsOf_mem_keyGroups occupied))
        exact (keyAt_of_keys named (mem_positionsOf.1 hi)).1
    · exact windowValues_only regular hfn hps hos aggregates single evaluated parted named key

end

/-! ### Running totals -/

/-- Small numbers are in a total preorder. -/
theorem scores_ordered {scores : List Nat} (small : ∀ n ∈ scores, n ≤ 2 ^ 53) (direction : Direction) :
    KeyOrdered (· < scores.length) (scores.map fun n => .number (.ofNat n), direction) := by
  refine (Scale.preordered .numbers).mono ?_
  rintro _ ⟨i, hi, rfl⟩
  have denoted := Number.denotes_ofNat (small _ (List.getElem_mem hi))
  have score : item (scores.map fun n => .number (.ofNat n)) i = .number (.ofNat scores[i]) := by
    simp [item, hi]
  rw [score]
  refine ⟨⟨_, .number denoted.position⟩, ?_⟩
  rintro ⟨negative, endless⟩
  rw [Value.number.inj endless] at denoted
  cases denoted

/-- The scores of a school up to those of a row. -/
theorem peer_rows_of_scores :
    let school := scoredField "school"
    let score := scoredField "score"
    let total : Feature := .expression .sum [score] none
    let running : Feature := .window total [school] [.by score .ascending] none
    let d := scoredData [1, 1, 2, 1] [20, 10, 5, 20]
    running.Built ∧ ∃ x t vs, (translatorAfter .empty []).serve (.finish (.feature running))
        = (.ok (some (.feature x)), t) ∧ x.values (.ofData d) = .ok vs ∧
      vs.map Value.plain = ["50", "10", "5", "50"] ∧
      ∃ columns names keys, RowKeys [school] d columns names ∧
        ∀ key, FollowsPeers total d keys (positionsOf names key) vs ∧
          x.values (.ofData (d.only (positionsOf names key)))
            = .ok ((positionsOf names key).map (item vs)) := by
  intro school score total running d
  have hschool : school.Built := .element scored_built (show scored.get "school" = .ok _ from rfl)
  have hscore : score.Built := .element scored_built (show scored.get "score" = .ok _ from rfl)
  have htotal : total.Built := built_single hscore rfl
  have built : running.Built :=
    @Feature.Built.window total [.feature school] [.term (.by score .ascending)] none _
      htotal (by simpa using .feature hschool) (by simpa using .term (.by _ hscore)) rfl
  let rules := Rules.structFree.and
    ((Rules.told fun _ => .primitive .integer).and (.labelled fun _ => "scored"))
  have source : scored.Obeys rules := ⟨structFree_table rfl, told_table rfl, by simp [Rules.labelled]⟩
  have field (name : String) : (scoredField name).Obeys rules := ⟨⟨trivial, rfl, rfl⟩, source⟩
  have untyped : ∀ k ∈ (none : Option Kind), k.StructFree := by simp
  have obeys : running.Obeys rules :=
    ⟨⟨trivial, trivial, trivial⟩, ⟨⟨untyped, trivial, trivial⟩, field _, trivial⟩,
      ⟨field _, trivial⟩, ⟨field _, trivial⟩⟩
  have column : (columnOf ((translatorAfter .empty []).serve (.finish (.feature running))).1
      (.ofData d)).map (fun vs => vs.map Value.plain) = some ["50", "10", "5", "50"] := by
    decide +kernel
  obtain ⟨x, t, vs, compiled, evaluated, texts⟩ := evaluated_of_columnOf column
  obtain ⟨columns, names, keys, given, keyed, -, follows, alone⟩ :=
    peer_rows (by simp) built obeys compiled evaluated
  have row (name : String) : (scoredField name).Throughout fun g => g.isCollective = false :=
    .mk rfl (by simp [scoredField, Feature.children])
  have regular : d.Regular := ⟨rfl, by simp [d, scoredData]⟩
  refine ⟨built, x, t, vs, compiled, evaluated, texts, columns, names, keys, given, fun key =>
    ⟨follows ?_ key, alone regular ?_ key⟩⟩
  · obtain ⟨⟨values, direction⟩, rest, ⟨read, rfl⟩, others, rfl⟩ := List.forall₂_cons_left_iff.1 keyed
    cases others
    obtain rfl := Except.ok.inj read.read
    exact List.forall_mem_singleton.2 (@scores_ordered [20, 10, 5, 20] (by decide) .ascending)
  · simp [total, Feature.children, OrderTerm.feature, school, score, row]

/-- **Rows are in partitions by another table's names**, which have the same key. -/
theorem peers_confused :
    let count : Feature := .expression .count [nameIn "school"] none
    let counted : Feature := .window count [nameIn "twin"] [] none
    let d : Dataset := ⟨[⟨"name", some "school"⟩, ⟨"name", some "twin"⟩],
      [[.text "Alpha", .text "Alpha", .text "Beta"], [.text "Beta", .text "Gamma", .text "Gamma"]], 3⟩
    counted.Built ∧ ∃ x t vs, (translatorAfter .empty []).serve (.finish (.feature counted))
        = (.ok (some (.feature x)), t) ∧ x.values (.ofData d) = .ok vs ∧
      vs.map Value.plain = ["2", "2", "1"] ∧
      ¬∃ columns names, RowKeys [nameIn "twin"] d columns names ∧
        ∀ key, FollowsPeers count d [] (positionsOf names key) vs := by
  intro count counted d
  have hcount : count.Built := built_single (nameIn_built "school") rfl
  have built : counted.Built :=
    @Feature.Built.window count [.feature (nameIn "twin")] [] none _ hcount
      (by simpa using .feature (nameIn_built "twin")) (by simp) rfl
  have column : (columnOf ((translatorAfter .empty []).serve (.finish (.feature counted))).1
      (.ofData d)).map (fun vs => vs.map Value.plain) = some ["2", "2", "1"] := by
    decide +kernel
  obtain ⟨x, t, vs, compiled, evaluated, texts⟩ := evaluated_of_columnOf column
  refine ⟨built, x, t, vs, compiled, evaluated, texts, ?_⟩
  rintro ⟨columns, names, given, follows⟩
  obtain ⟨twins, _, read, others, rfl⟩ := List.forall₂_cons_left_iff.1 given.read
  cases others
  obtain rfl := Except.ok.inj read.read
  -- The first row is alone with its name in the second table, so one name is counted.
  have alone : ((List.range 3).mapM (keyAt [[.text "Beta", .text "Gamma", .text "Gamma"]])).toOption.map
      (fun names => positionsOf names (names.getD 0 "")) = some [0] := by decide +kernel
  have named : (List.range 3).mapM (keyAt [[.text "Beta", .text "Gamma", .text "Gamma"]]) = .ok names :=
    given.keyed
  rw [named] at alone
  replace alone : positionsOf names (names.getD 0 "") = [0] := Option.some.inj alone
  obtain ⟨⟨sorted, perm, -, framed⟩, -⟩ := follows (names.getD 0 "")
  rw [alone] at perm framed
  obtain rfl := List.perm_singleton.1 perm
  obtain ⟨rows, head, all, aggregated⟩ := framed 0 (by simp)
  obtain rfl : rows = [0] := (List.prefix_cons_iff.1 head).elim (fun none => by
    have own := (all 0).2 ⟨by simp, not_sortsBefore_nil _ _⟩
    simp [none] at own) (by simp)
  obtain ⟨op, args, u, column, same, argument, summarized⟩ := aggregated
  obtain ⟨rfl, rfl, -⟩ := Feature.expression.inj same
  cases column with
  | none => cases argument
  | some schools =>
    obtain ⟨schools_read, -⟩ := List.forall₂_cons.1 argument
    obtain rfl := Except.ok.inj schools_read.read
    obtain ⟨v, rest, rfl, two, -⟩ := List.map_eq_cons_iff.1 texts
    obtain rfl : .number (.ofNat 1) = v := Except.ok.inj summarized
    exact absurd two (by decide +kernel)

end Evaluation

end QueryAlgebra
