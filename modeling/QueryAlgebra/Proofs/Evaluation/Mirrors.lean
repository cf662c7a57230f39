import QueryAlgebra.Proofs.Evaluation.Naming
import QueryAlgebra.Proofs.Evaluation.RowWise

/-!
# Joins from the other side

With its sides exchanged, a join goes through the same pairs of rows in another order, under columns that
are laid out in another way. A condition without aggregates and windows notices neither, as long as the
columns have origins and names of their own.

* `JoinType.mirrored`: the join that keeps the other side.
* `matching_swap`, `nestedLoops_swap`: the pairs of a join with exchanged sides.
* `shows_mirrored`: the product of exchanged sides shows the rows of the product.
* `join_mirrored`: joins with exchanged sides have the same rows, with the two blocks of columns exchanged.
-/

namespace QueryAlgebra

open Evaluation Translation Dataset

/-- The join that keeps the rows of the other side. -/
def JoinType.mirrored : JoinType → JoinType
  | .left  => .right
  | .right => .left
  | k      => k

namespace Evaluation

theorem keepsLeft_mirrored (k : JoinType) : keepsLeft k.mirrored = keepsRight k := by
  cases k <;> rfl

theorem keepsRight_mirrored (k : JoinType) : keepsRight k.mirrored = keepsLeft k := by
  cases k <;> rfl

/-! ### Pairs -/

theorem nodup_matching (n m : Nat) (holds : Nat → Nat → Bool) : (matching n m holds).Nodup := by
  refine List.nodup_flatMap.2 ⟨fun i _ => ?_, List.nodup_range.imp fun {i k} other =>
    List.disjoint_left.2 ?_⟩
  · exact (List.nodup_range.filter _).map fun j k same => (Prod.mk.inj same).2
  · intro p hp hq
    obtain ⟨j, -, rfl⟩ := List.mem_map.1 hp
    obtain ⟨j', -, same⟩ := List.mem_map.1 hq
    exact other (Prod.mk.inj same).1.symm

section

variable {n m : Nat} {holds holds' : Nat → Nat → Bool}
  (same : ∀ i < n, ∀ j < m, holds' j i = holds i j)
include same

/-- The pairs that match are those that match from the other side. -/
theorem matching_swap : (matching m n holds').Perm ((matching n m holds).map Prod.swap) := by
  refine (List.perm_ext_iff_of_nodup (nodup_matching m n holds')
    ((nodup_matching n m holds).map Prod.swap_injective)).2 fun ⟨j, i⟩ => ?_
  have swapped : (j, i) ∈ (matching n m holds).map Prod.swap ↔ (i, j) ∈ matching n m holds :=
    List.mem_map_of_injective (a := (i, j)) Prod.swap_injective
  rw [swapped, mem_matching, mem_matching]
  constructor
  · rintro ⟨hj, hi, matched⟩
    exact ⟨hi, hj, same i hi j hj ▸ matched⟩
  · rintro ⟨hi, hj, matched⟩
    exact ⟨hj, hi, (same i hi j hj).trans matched⟩

theorem lonelyRight_swap : lonelyRight m n holds' = lonelyLeft n m holds := by
  refine List.filter_congr fun i hi => congrArg not ?_
  rw [Bool.eq_iff_iff, List.any_eq_true, List.any_eq_true]
  refine exists_congr fun j => and_congr_right fun hj => ?_
  rw [same i (List.mem_range.1 hi) j (List.mem_range.1 hj)]

theorem lonelyLeft_swap : lonelyLeft m n holds' = lonelyRight n m holds := by
  refine List.filter_congr fun j hj => congrArg not ?_
  rw [Bool.eq_iff_iff, List.any_eq_true, List.any_eq_true]
  refine exists_congr fun i => and_congr_right fun hi => ?_
  rw [same i (List.mem_range.1 hi) j (List.mem_range.1 hj)]

/-- **The pairs of a join are those of the mirrored join with exchanged sides.** -/
theorem nestedLoops_swap (kind : JoinType) : (nestedLoops m n holds' kind.mirrored).Perm
    ((nestedLoops n m holds kind).map Prod.swap) := by
  unfold nestedLoops
  rw [keepsLeft_mirrored, keepsRight_mirrored, lonelyLeft_swap same, lonelyRight_swap same]
  have matched : ((matching m n holds').map bothRows).Perm
      (((matching n m holds).map bothRows).map Prod.swap) := by
    have pairs := (matching_swap same).map bothRows
    rwa [List.map_map, show bothRows ∘ Prod.swap = Prod.swap ∘ bothRows from rfl, ← List.map_map]
      at pairs
  have left : ((if keepsLeft kind then (lonelyLeft n m holds).map fun i => (some i, none) else []).map
      Prod.swap : List (Option Nat × Option Nat))
        = if keepsLeft kind then (lonelyLeft n m holds).map fun i => (none, some i) else [] := by
    split <;> simp [Function.comp_def]
  have right : ((if keepsRight kind then (lonelyRight n m holds).map fun j => (none, some j) else []).map
      Prod.swap : List (Option Nat × Option Nat))
        = if keepsRight kind then (lonelyRight n m holds).map fun j => (some j, none) else [] := by
    split <;> simp [Function.comp_def]
  rw [List.map_append, List.map_append, left, right, List.append_assoc, List.append_assoc]
  exact matched.append List.perm_append_comm

end

/-! ### Columns -/

/-- Data all whose columns have origins is read at the very column. -/
theorem column_of_qualified {d : Dataset} (qualified : ∀ c ∈ d.refs, c.qualifier ≠ none) {n q : String}
    {values : List Value} (h : d.column n (some q) = .ok values) :
    ∃ i, d.refs.findIdx? (· = ⟨n, some q⟩) = some i ∧ values = d.columns.getD i [] := by
  have none : d.refs.findIdx? (fun c => c = ⟨n, none⟩) = none :=
    List.findIdx?_eq_none_iff.2 fun c hc => decide_eq_false fun same => qualified c hc (same ▸ rfl)
  obtain ⟨i, found, rfl⟩ := column_eq_ok.1 h
  rw [find?, none, Option.or_none] at found
  exact ⟨i, found, rfl⟩

/-- A column of one of two lists of columns that share none is not found in the other. -/
theorem findIdx?_eq_none_of_disjoint {cs ds : List ColumnId} (disjoint : List.Disjoint cs ds) {c : ColumnId}
    {i : Nat} (h : cs.findIdx? (· = c) = some i) : ds.findIdx? (· = c) = none := by
  refine List.findIdx?_eq_none_iff.2 fun e he => decide_eq_false fun same => ?_
  obtain ⟨bound, found, -⟩ := List.findIdx?_eq_some_iff_getElem.1 h
  have mem : c ∈ cs := of_decide_eq_true found ▸ List.getElem_mem bound
  exact disjoint mem (same ▸ he)

/-- The positions in a product of the pairs of rows that its mirrored product goes through. -/
def mirroredPositions (n m : Nat) : List Nat := (allPairs m n).map fun p => p.2 * m + p.1

theorem mem_allPairs {n m : Nat} {p : Nat × Nat} (h : p ∈ allPairs n m) : p.1 < n ∧ p.2 < m := by
  rw [allPairs_eq] at h
  exact ⟨(mem_matching.1 h).1, (mem_matching.1 h).2.1⟩

/-- The items of a column of a product, in the order of the mirrored product. -/
theorem map_mirroredPositions {n m : Nat} (f : Nat × Nat → Value) :
    (mirroredPositions n m).map (item ((allPairs n m).map f)) = (allPairs m n).map fun p => f p.swap := by
  rw [mirroredPositions, List.map_map]
  refine List.map_congr_left fun p hp => ?_
  obtain ⟨hj, hi⟩ := mem_allPairs hp
  simp [item, allPairs_getElem? hi hj]
  rfl

section

variable {l r all all' : Dataset} (left : l.Regular) (right : r.Regular)
  (hall : product l r = .ok all) (hall' : product r l = .ok all')
include hall

theorem length_product : all.length = l.length * r.length := by
  rw [(sideBySide_rows hall).2.1, List.length_map, length_allPairs]

include left right hall'

/-- **The product of exchanged sides shows the rows of the product**, if all columns have origins and no
two are the same. -/
theorem shows_mirrored (qualified : ∀ c ∈ l.refs ++ r.refs, c.qualifier ≠ none)
    (distinct : (l.refs ++ r.refs).Nodup) :
    (Batch.ofData all').Shows all (mirroredPositions l.length r.length) where
  size := by
    have length : (Batch.ofData all').size = r.length * l.length := length_product hall'
    rw [length, mirroredPositions, List.length_map, length_allPairs]
  inside k hk := by
    obtain ⟨p, hp, rfl⟩ := List.mem_map.1 hk
    obtain ⟨hj, hi⟩ := mem_allPairs hp
    have bound := (List.getElem?_eq_some_iff.1 (allPairs_getElem? hi hj)).1
    rwa [length_allPairs, ← length_product hall] at bound
  elements s n column evaluated := by
    obtain ⟨c, read, made⟩ := bind_eq_ok.1 evaluated
    obtain rfl := pure_eq_ok.1 made
    have refs := (sideBySide_rows hall).1
    obtain ⟨i, found, rfl⟩ := column_of_qualified (fun c hc => qualified c (refs ▸ hc)) read
    have disjoint := List.disjoint_of_nodup_append distinct
    refine bind_eq_ok.2 ⟨_, ?_, rfl⟩
    rw [refs, List.findIdx?_append] at found
    -- A column of one side is found on this side only, wherever the side stands.
    cases hl : l.refs.findIdx? (· = ⟨n, some s.label⟩) with
    | some i' =>
      obtain ⟨there, values⟩ := exact_left hall left hl
      obtain ⟨there', values'⟩ := exact_right hall' right left (findIdx?_eq_none_of_disjoint disjoint hl) hl
      obtain rfl : i' = i := by simpa [hl] using found
      show all'.column n (some s.label) = _
      rw [column_of_exact there', values', values]
      simp only [List.map_map, map_mirroredPositions]
      rfl
    | none =>
      rw [hl, Option.none_or] at found
      obtain ⟨j, hr, rfl⟩ := Option.map_eq_some_iff.1 found
      obtain ⟨there, values⟩ := exact_right hall left right hl hr
      obtain ⟨there', values'⟩ := exact_left hall' right hr
      show all'.column n (some s.label) = _
      rw [column_of_exact there', values', Nat.add_comm, values]
      simp only [List.map_map, map_mirroredPositions]
      rfl

end

/-! ### Joins -/

/-- The row with its first columns behind the others. -/
def exchanged (n : Nat) (row : List Value) : List Value := row.drop n ++ row.take n

theorem length_rowAt (d : Dataset) (p : Option Nat) : (d.rowAt p).length = d.columns.length := by
  rw [rowAt_eq, List.length_map]

theorem joinedRow_swap {l : Dataset} (left : l.Regular) (r : Dataset) (p : Option Nat × Option Nat) :
    joinedRow r l p.swap = exchanged l.refs.length (joinedRow l r p) := by
  have length : (l.rowAt p.1).length = l.refs.length := (length_rowAt l p.1).trans left.width.symm
  rw [exchanged, joinedRow, joinedRow, ← length, List.drop_left, List.take_left]
  rfl

section

variable {left right : SourcePlan} {catalog : Catalog} {l r : Dataset} (hl : left catalog = .ok l)
  (hr : right catalog = .ok r)
include hl hr

/-- A join by a condition that has values on the product. -/
theorem join_of_mask {all : Dataset} (hall : product l r = .ok all) {x : FeaturePlan} {mask : List Value}
    (evaluated : x.values (.ofData all) = .ok mask) (kind : JoinType) :
    ∃ d, SourcePlan.join left right (some x) kind catalog = .ok d ∧ d.refs = l.refs ++ r.refs ∧
      d.rows = (nestedLoops l.length r.length (maskAt r.length mask) kind).map (joinedRow l r) := by
  obtain ⟨d, hd⟩ : ∃ d, joinRows l r mask kind = .ok d := ⟨_, sideBySide_eq ..⟩
  obtain ⟨refs, -, rows⟩ := sideBySide_rows hd
  rw [joinPairs_eq] at rows
  have pairs : joinPositions l r (some x) kind = .ok (joinPairs l.length r.length mask kind) := by
    simp only [joinPositions, bind_eq_ok, pure_eq_ok]
    exact ⟨all, hall, mask, evaluated, rfl⟩
  exact ⟨d, join_eq_ok.2 ⟨l, r, _, hl, hr, pairs, hd⟩, refs, rows⟩

/-- **Joins with exchanged sides agree.** All columns of both sides have origins, and no two are the same.
A translator makes a condition of a feature without aggregates and windows, having nothing translated before
that is taken for it. If the condition has values on the product, then the join and the mirrored join with
exchanged sides are evaluated without a fault and have the same rows, equally often, once the two blocks of
columns are exchanged. -/
theorem join_mirrored {sources : KeyedMap Source SourcePlan} {history : List Tree} {f : Feature}
    (single : f.Throughout fun g => g.isCollective = false) (clear : Untangled history f)
    {x : FeaturePlan} {t : Translator SourcePlan FeaturePlan}
    (made : (translatorAfter sources history).Makes f x t) (regular : l.Regular) (regular' : r.Regular)
    (qualified : ∀ c ∈ l.refs ++ r.refs, c.qualifier ≠ none) (distinct : (l.refs ++ r.refs).Nodup)
    {all : Dataset} (hall : product l r = .ok all) {mask : List Value}
    (evaluated : x.values (.ofData all) = .ok mask) (kind : JoinType) :
    ∃ d d', SourcePlan.join left right (some x) kind catalog = .ok d ∧
      SourcePlan.join right left (some x) kind.mirrored catalog = .ok d' ∧
      d.refs = l.refs ++ r.refs ∧ d'.refs = r.refs ++ l.refs ∧
      d'.rows.Perm (d.rows.map (exchanged l.refs.length)) := by
  obtain ⟨all', hall'⟩ : ∃ all', product r l = .ok all' := ⟨_, sideBySide_eq ..⟩
  have mirrored := (rowWise_of_makes single clear made).values_of_shows
    (shows_mirrored regular regular' hall hall' qualified distinct) mask evaluated
  obtain ⟨d, joined, refs, rows⟩ := join_of_mask hl hr hall evaluated kind
  obtain ⟨d', joined', refs', rows'⟩ := join_of_mask hr hl hall' mirrored kind.mirrored
  refine ⟨d, d', joined, joined', refs, refs', ?_⟩
  have same : ∀ i < l.length, ∀ j < r.length,
      maskAt l.length ((mirroredPositions l.length r.length).map (item mask)) j i
        = maskAt r.length mask i j := fun i hi j hj => by
    simp [maskAt, mirroredPositions, item, allPairs_getElem? hj hi]
  have pairs := (nestedLoops_swap same kind).map (joinedRow r l)
  have blocks : ((nestedLoops l.length r.length (maskAt r.length mask) kind).map Prod.swap).map
      (joinedRow r l) = d.rows.map (exchanged l.refs.length) := by
    rw [rows, List.map_map, List.map_map]
    exact List.map_congr_left fun p _ => joinedRow_swap regular r p
  rw [rows', ← blocks]
  exact pairs

end

/-- A left join of two references, one row of which matches nothing, and the right join with exchanged
sides. -/
theorem join_mirrored_of_references :
    let item : Source := .table ⟨"item", [("id", ⟨.primitive .string, "id"⟩)]⟩
    let id (name : String) : Feature := .element (.reference item name) "id" (.primitive .string)
    let same : Feature := .expression .eq [id "a", id "b"] none
    let a : Dataset := ⟨[⟨"id", some "a"⟩], [[.text "1", .text "2"]], 2⟩
    let b : Dataset := ⟨[⟨"id", some "b"⟩, ⟨"tag", some "b"⟩],
      [[.text "2", .text "2"], [.text "x", .text "y"]], 2⟩
    let sources : KeyedMap Source SourcePlan :=
      (KeyedMap.empty.set (.reference item "a") (.ofData a)).set (.reference item "b") (.ofData b)
    (same.Throughout fun g => g.isCollective = false) ∧ Untangled [] same ∧ a.Regular ∧ b.Regular ∧
      ∃ x t d d', (translatorAfter sources []).Makes same x t ∧
        SourcePlan.join (.ofData a) (.ofData b) (some x) .left [] = .ok d ∧
        SourcePlan.join (.ofData b) (.ofData a) (some x) .right [] = .ok d' ∧
        d.rows = [[.text "2", .text "2", .text "x"],
          [.text "2", .text "2", .text "y"], [.text "1", .null, .null]] ∧
        d'.rows.Perm (d.rows.map (exchanged 1)) := by
  intro item id same a b sources
  have single : same.Throughout fun g => g.isCollective = false := by
    refine .mk rfl fun c hc => ?_
    rcases List.mem_pair.1 hc with rfl | rfl <;> exact .mk rfl nofun
  have clear : Untangled [] same := .inl nofun
  have regular : a.Regular := ⟨rfl, by simp [a]⟩
  have regular' : b.Regular := ⟨rfl, by simp [b]⟩
  let side (name : String) : FeaturePlan := .element (.reference item name) "id"
  let x : FeaturePlan := .rowWise .eq [side "a", side "b"] (.primitive .boolean)
  let t := translatorAfter sources []
  have hx : (t.serve (.finish (.feature same))).1 = .ok (some (.feature x)) := rfl
  let t' := (t.serve (.finish (.feature same))).2
  have made : t.Makes same x t' := .inl (Prod.ext hx (Eq.refl t'))
  have ha : SourcePlan.ofData a [] = .ok a := rfl
  have hb : SourcePlan.ofData b [] = .ok b := rfl
  obtain ⟨all, hall⟩ : ∃ all, product a b = .ok all := ⟨_, sideBySide_eq ..⟩
  obtain ⟨mask, evaluated, pairs⟩ : ∃ mask, x.values (.ofData all) = .ok mask ∧
      nestedLoops a.length b.length (maskAt b.length mask) .left
        = [(some 1, some 0), (some 1, some 1), (some 0, none)] := by
    cases hall
    exact ⟨_, rfl, by decide⟩
  obtain ⟨d, d', joined, mirrored, -, -, rows⟩ := join_mirrored ha hb single clear made regular
    regular' (by simp [a, b]) (by decide) hall evaluated .left
  obtain ⟨e, same, -, shown⟩ := join_of_mask ha hb hall evaluated .left
  obtain rfl : d = e := Except.ok.inj (joined.symm.trans same)
  exact ⟨single, clear, regular, regular', x, _, d, d', made, joined, mirrored,
    by rw [shown, pairs]; rfl, rows⟩

/-- Names of fields stand in the keys of structs as they are, so that the key of a condition can be spelled
by a feature with an aggregate that one side selects. The condition is then taken for that feature, which
sums up the salaries of the rows that are paired, in their order. -/
theorem joins_confused :
    let emp : Source := .reference (.table ⟨"emp", [("id", ⟨.primitive .integer, "id"⟩),
      ("pay", ⟨.primitive .float, "pay"⟩)]⟩) "r"
    let id : Feature := .element emp "id" (.primitive .integer)
    let pay : Feature := .element emp "pay" (.primitive .float)
    let struct (n : String) : Option Kind := some (.struct [(n, .primitive .integer)])
    let one (n : String) : Feature :=
      .expression .abs [.literal (.number (.ofNat 1)) (.primitive .float)] (struct n)
    let spelt (f : Feature) (n m : String) : String := n ++ ":Integer>," ++ f.key ++ ":Struct<" ++ m
    let condition : Feature := .expression .eq [one (spelt (.expression .sum [pay] none) "Y" "v"),
      .expression .abs [pay] (struct "U")] none
    let summed : Feature := .expression .eq [one "Y",
      .expression .sum [pay] (struct (spelt (.expression .abs [pay] none) "v" "U"))] none
    let groups : Source := .query emp [id, summed] none [id] none [] none
    let sums : Source := .reference groups "s"
    let catalog : Catalog := [("emp", ⟨[⟨"id", none⟩, ⟨"pay", none⟩],
      [[.number (.ofNat 1), .number (.ofNat 2), .number (.ofNat 3)],
        [.number (.ofNat 10000000000000000), .number (.ofInt (-10000000000000000)),
          .number (.ofNat 1)]], 3⟩)]
    let refs : List ColumnId := [⟨"id", some "s"⟩, ⟨"_1", some "s"⟩, ⟨"id", some "r"⟩, ⟨"pay", some "r"⟩]
    (Source.join sums emp .inner (some condition)).Built ∧
      (Source.join emp sums .inner (some condition)).Built ∧
      (condition.Throughout fun g => g.isCollective = false) ∧ refs.Nodup ∧
      ∃ plan plan' t t' d d',
        (translatorAfter .empty []).serve (.finish (.source (.join sums emp .inner (some condition))))
          = (.ok (some (.source plan)), t) ∧ plan catalog = .ok d ∧
        (translatorAfter .empty []).serve (.finish (.source (.join emp sums .inner (some condition))))
          = (.ok (some (.source plan')), t') ∧ plan' catalog = .ok d' ∧
        d.refs = refs ∧ d.length = 1 ∧ d'.length = 0 := by
  intro emp id pay struct one spelt condition summed groups sums catalog refs
  have hemp : emp.Built := .ref "r" (.of_distinct rfl)
  have hid : id.Built := .element hemp (show emp.get "id" = .ok _ from rfl)
  have hpay : pay.Built := .element hemp (show emp.get "pay" = .ok _ from rfl)
  have literal : (Feature.literal (.number (.ofNat 1)) (.primitive .float)).Built := by
    have one : (Number.ofNat 1 != .nan) = true := by decide +kernel
    have cast : Feature.literalOf (.number (.ofNat 1)) (some (.primitive .float))
        = .ok (.literal (.number (.ofNat 1)) (.primitive .float)) := by
      simp [Feature.literalOf, Kind.cast, Primitive.cast?, Number.checked, Value.amount, one]
    exact .literal cast
  have hcondition : condition.Built := built_pair (built_single literal rfl) (built_single hpay rfl) rfl
  have hsummed : summed.Built := built_pair (built_single literal rfl) (built_single hpay rfl) rfl
  have single : condition.Throughout fun g => g.isCollective = false := by
    refine .mk rfl fun c hc => ?_
    rcases List.mem_pair.1 hc with rfl | rfl <;>
      exact .mk rfl fun c hc => List.mem_singleton.1 hc ▸ .mk rfl fun _ hc => absurd hc List.not_mem_nil
  let clauses : Clauses := ⟨[.feature id, .feature summed], none, [.feature id], none, [], none⟩
  have made : emp.queryOf clauses = .ok groups := by
    dsimp +zetaDelta only
    rfl
  have hclauses : clauses.Built := by
    constructor <;> simp [clauses, Operand.Built.feature, hid, hsummed]
  have hgroups : groups.Built := .query hemp hclauses made
  have hsums : sums.Built := .ref "s" hgroups
  have length : (dataOf ((translatorAfter .empty []).serve (.finish (.source
      (.join sums emp .inner (some condition))))).1 catalog).map (fun d => (d.refs, d.length))
        = some (refs, 1) := by decide +kernel
  have length' : (dataOf ((translatorAfter .empty []).serve (.finish (.source
      (.join emp sums .inner (some condition))))).1 catalog).map Dataset.length = some 0 := by
    decide +kernel
  obtain ⟨plan, t, d, compiled, evaluated, shown⟩ := evaluated_of_dataOf length
  obtain ⟨plan', t', d', compiled', evaluated', none⟩ := evaluated_of_dataOf length'
  have built : (Source.join sums emp .inner (some condition)).Built :=
    hsums.joining hemp hcondition rfl rfl (by decide +kernel) (by decide +kernel)
  have built' : (Source.join emp sums .inner (some condition)).Built :=
    hemp.joining hsums hcondition rfl rfl (by decide +kernel) (by decide +kernel)
  exact ⟨built, built', single, by decide, plan, plan', t, t', d, d', compiled, evaluated, compiled', evaluated',
    congrArg Prod.fst shown, congrArg Prod.snd shown, none⟩

end Evaluation

end QueryAlgebra
