import QueryAlgebra.Proofs.Evaluation.Naming
import QueryAlgebra.Proofs.Evaluation.Rows

/-!
# Joins of selections

The columns of a statement have names and no origins. So the condition of a join of two statements
reads, for an element, the first column with its name, that of the left statement before that of the
right one, whoever the element belongs to.

* `Source.SelectsColumns`: a statement that selects columns of tables.
* `selected_data`: the data of such a statement.
* `readPair`: what is read in a pair of rows, given the positions of columns on both sides.
* `product_supplies`: on the product of two statements elements are read by name.
* `Source.position`, `Source.Tells`: where a statement has selected an element, and when names tell the
  selected columns apart.
* `selections_joined`: the rows of a join of two statements, by names, and by the sides that have
  selected the columns where names tell these apart.
* `selections_confused`: two sides with columns of one name.
-/

namespace QueryAlgebra

/-! ### Statements that select columns -/

/-- The source is a statement that selects columns of tables, without aliases. -/
structure Source.SelectsColumns (q : Source) : Prop where
  statement : q.type = "Query"
  columns   : ∀ f ∈ q.features, f.table?.isSome = true

namespace Feature

theorem table_cases {f : Feature} (h : f.table?.isSome = true) :
    ∃ t n k, f = .element (.table t) n k := by
  unfold table? at h
  split at h
  · exact ⟨_, _, _, rfl⟩
  · cases h

end Feature

/-- Features that have names are known by them. -/
theorem ownNames_of_named {fs : List Feature} (named : ∀ f ∈ fs, f.name?.isSome = true) (i : Nat) :
    ownNames i fs = fs.map fun f => f.name?.getD "" := by
  induction fs generalizing i with
  | nil => rfl
  | cons f r ih =>
    obtain ⟨first, rest⟩ := List.forall_mem_cons.1 named
    obtain ⟨n, hn⟩ := Option.isSome_iff_exists.1 first
    simp [ownNames, ih rest, hn]

/-- Tests that agree on the items of a list find the same one first. -/
theorem findIdx?_congr {α : Type} {p q : α → Bool} {as : List α} (h : ∀ a ∈ as, p a = q a) :
    as.findIdx? p = as.findIdx? q := by
  induction as with
  | nil => rfl
  | cons a r ih =>
    obtain ⟨first, rest⟩ := List.forall_mem_cons.1 h
    rw [List.findIdx?_cons, List.findIdx?_cons, first, ih rest]

/-- The position at which a statement has selected an element. -/
def Source.position (q : Source) (s : Source) (n : String) : Option Nat :=
  q.features.findIdx? fun f => f.key = (Feature.element s n default).key

/-- Names tell the columns of two statements apart, as far as a feature reads them. -/
def Source.Tells (l r : Source) (p : Feature) : Prop :=
  ∀ e ∈ p.elements, ∀ f ∈ l.features ++ r.features, f.name? = e.name? → f.key = e.key

instance (l r : Source) (p : Feature) : Decidable (l.Tells r p) :=
  inferInstanceAs (Decidable (∀ e ∈ p.elements, ∀ f ∈ l.features ++ r.features,
    f.name? = e.name? → f.key = e.key))

namespace Evaluation

open Translation Dataset

variable {sources : KeyedMap Source SourcePlan}

/-- What is remembered is labelled by the name of its feature. -/
theorem label_of_rooted {p : Rules} {m : List (String × FeaturePlan)}
    (hm : Rooted (backend sources .empty) p m) {f : Feature} {x : FeaturePlan}
    (hx : Remembers m f.key x) : x.label = f.name? := by
  obtain ⟨g, o, -, key, gives⟩ := hm _ _ hx
  rw [label_of_gives gives, Feature.name?_eq_of_key key]

/-- **The data of a statement that selects columns**: these columns, without origins. -/
theorem selected_data {p : Rules} {q : Source} (hq : q.SelectsColumns)
    (unprovided : sources.get? q = none) {x : SourcePlan}
    (composed : Composed (backend sources .empty) (Rooted (backend sources .empty) p) q x)
    {catalog : Catalog} {d : Dataset} (evaluated : x catalog = .ok d) :
    d.Regular ∧ d.refs = q.features.map fun f => ⟨f.name?.getD "", none⟩ := by
  cases composed with
  | query hs hm hsel hpre hgrp hpost hord =>
    have provided : (backend sources .empty).sources.get? _ = none := unprovided
    rw [provided] at evaluated
    obtain ⟨columns, length, made⟩ := query_made evaluated
    refine ⟨regular_of_ofColumns made, ?_⟩
    have labels := hsel.imp fun f x hx => label_of_rooted hm hx
    have names := outputRefs_names labels
    rw [ownNames_of_named fun f hf => by
      obtain ⟨t, n, k, rfl⟩ := Feature.table_cases (hq.columns f hf)
      rfl] at names
    rw [refs_of_ofColumns made]
    have unqualified : ∀ xs : List FeaturePlan, SourcePlan.outputRefs xs
        = ((SourcePlan.outputRefs xs).map ColumnId.name).map fun n => ⟨n, none⟩ := fun xs => by
      simp [SourcePlan.outputRefs, Function.comp_def]
    rw [unqualified, names, List.map_map]
    rfl
  | _ => exact absurd hq.statement (by simp [Source.type])

/-! ### Reading a pair of rows -/

/-- What is read in a pair of rows of two data sets, where columns are looked up by positions, those of
the left side first. -/
def readPair (l r : Dataset) (left right : Source → String → Option Nat) (i j : Nat) (s : Source)
    (n : String) : Value :=
  match left s n with
  | some p => item (l.columns.getD p []) i
  | none   =>
    match right s n with
    | some p => item (r.columns.getD p []) j
    | none   => .absent

/-- The position of the first column of a name without an origin. -/
def byName (d : Dataset) (_ : Source) (n : String) : Option Nat :=
  d.refs.findIdx? (· = ⟨n, none⟩)

/-- Data without origins is read by name. -/
theorem column_of_unqualified {d : Dataset} (unqualified : ∀ c ∈ d.refs, c.qualifier = none)
    {n q : String} {values : List Value} (h : d.column n (some q) = .ok values) :
    ∃ p, d.refs.findIdx? (· = ⟨n, none⟩) = some p ∧ values = d.columns.getD p [] := by
  have none : d.refs.findIdx? (fun c => c = ⟨n, some q⟩) = none := by
    refine List.findIdx?_eq_none_iff.2 fun c hc => decide_eq_false fun same => ?_
    have := unqualified c hc
    rw [same] at this
    cases this
  obtain ⟨p, found, rfl⟩ := column_eq_ok.1 h
  rw [find?, none, Option.none_or] at found
  exact ⟨p, found, rfl⟩

/-- **On the product of two data sets without origins elements are read by name**, on the left side
first. -/
theorem product_supplies {l r all : Dataset} (h : product l r = .ok all) (left : l.Regular)
    (right : r.Regular) (unqualifiedl : ∀ c ∈ l.refs, c.qualifier = none)
    (unqualifiedr : ∀ c ∈ r.refs, c.qualifier = none) (f : Feature) :
    Supplies all
      (fun k => readPair l r (byName l) (byName r) (k / r.length) (k % r.length)) f := by
  intro s n _ _ u _ column given
  obtain ⟨refs, length, -⟩ := sideBySide_rows h
  have unqualified : ∀ c ∈ all.refs, c.qualifier = none := by
    rw [refs]
    exact List.forall_mem_append.2 ⟨unqualifiedl, unqualifiedr⟩
  obtain ⟨p, found, rfl⟩ := column_of_unqualified unqualified given
  -- Row `k` of the product is made of row `k / m` on the left and row `k % m` on the right.
  have size : all.length = l.length * r.length := by
    rw [length, List.length_map, length_allPairs]
  have pair : ∀ k < l.length * r.length, (allPairs l.length r.length)[k]?
      = some (k / r.length, k % r.length) := by
    intro k inside
    have some : 0 < r.length := Nat.pos_of_mul_pos_left (Nat.zero_lt_of_lt inside)
    have found := allPairs_getElem? (Nat.div_lt_of_lt_mul (Nat.mul_comm _ _ ▸ inside))
      (Nat.mod_lt k some)
    rwa [Nat.div_add_mod'] at found
  cases hl : l.refs.findIdx? (· = ⟨n, none⟩) with
  | some i =>
    obtain ⟨there, values⟩ := exact_left h left hl
    obtain rfl : p = i := Option.some.inj (found.symm.trans there)
    rw [values]
    refine ⟨by simp [length], fun k inside => ?_⟩
    simp [readPair, byName, hl, item, pair k (size ▸ inside), bothRows, chosen]
  | none =>
    rw [refs, List.findIdx?_append, hl, Option.none_or] at found
    obtain ⟨j, hr, rfl⟩ := Option.map_eq_some_iff.1 found
    obtain ⟨there, values⟩ := exact_right h left right hl hr
    rw [Nat.add_comm, values]
    refine ⟨by simp [length], fun k inside => ?_⟩
    simp [readPair, byName, hl, hr, item, pair k (size ▸ inside), bothRows, chosen]

/-- **Where names tell the columns apart, a column is found by name where it was selected.** -/
theorem byName_eq_position {q : Source} (hq : q.SelectsColumns) {d : Dataset}
    (refs : d.refs = q.features.map fun f => ⟨f.name?.getD "", none⟩) {s : Source} {n : String}
    (told : ∀ f ∈ q.features, f.name? = some n → f.key = (Feature.element s n default).key) :
    byName d s n = q.position s n := by
  rw [byName, Source.position, refs, List.findIdx?_map]
  refine findIdx?_congr fun f hf => ?_
  obtain ⟨t, m, k, rfl⟩ := Feature.table_cases (hq.columns f hf)
  rw [Function.comp_apply, decide_eq_decide]
  constructor
  · intro same
    obtain rfl : m = n := congrArg ColumnId.name same
    exact told _ hf rfl
  · intro same
    obtain rfl : m = n := Option.some.inj (Feature.name?_eq_of_key same)
    rfl

/-! ### Conditions -/

section

variable {kinds : String → Kind} {literals : String → Value}

/-- Row `i * m + j` is row `j` of part `i`, if parts have `m` rows. -/
theorem div_mod_of_lt {m i j : Nat} (inside : j < m) :
    (i * m + j) / m = i ∧ (i * m + j) % m = j := by
  rw [Nat.mul_comm, Nat.mul_add_div (Nat.zero_lt_of_lt inside), Nat.mul_add_mod,
    Nat.div_eq_of_lt inside, Nat.mod_eq_of_lt inside]
  exact ⟨rfl, rfl⟩

/-- **The condition of a join of data without origins** has, for a pair of rows, its value where its
elements are read by name. -/
theorem condition_by_name {m : List (String × FeaturePlan)}
    (hm : Rooted (backend sources .empty) (.plain kinds (ToldLiteral literals)) m) {p : Feature}
    (hp : p.Obeys (.plain kinds (ToldLiteral literals))) (single : p.hasCollective = false)
    {z : FeaturePlan} (hz : Remembers m p.key z) {l r all : Dataset} (left : l.Regular)
    (right : r.Regular) (unqualifiedl : ∀ c ∈ l.refs, c.qualifier = none)
    (unqualifiedr : ∀ c ∈ r.refs, c.qualifier = none) (hall : product l r = .ok all)
    {mask : List Value} (masked : z.values (.ofData all) = .ok mask) {i j : Nat}
    (hi : i < l.length) (hj : j < r.length) :
    p.valueAt (readPair l r (byName l) (byName r) i j) = .ok (item mask (i * r.length + j)) := by
  have distinct := Feature.Obeys.mono Rules.plain_distinct p hp
  have column := values_tabulate hm p hp (Feature.throughout_of_hasCollective distinct single)
    (product_supplies hall left right unqualifiedl unqualifiedr p) z (made_of_remembered hm hp hz)
    mask masked
  have size : all.length = l.length * r.length := by
    rw [(sideBySide_rows hall).2.1, List.length_map, length_allPairs]
  have inside : i * r.length + j < all.length := by
    rw [size]
    calc i * r.length + j < i * r.length + r.length := Nat.add_lt_add_left hj _
      _ = (i + 1) * r.length := (Nat.succ_mul _ _).symm
      _ ≤ l.length * r.length := Nat.mul_le_mul_right _ hi
  have value := column.item _ inside
  rwa [(div_mod_of_lt hj).1, (div_mod_of_lt hj).2] at value

/-- Where names tell the columns apart, a condition is evaluated alike if its elements are read on the
sides that have selected them. -/
theorem valueAt_by_position {l r : Source} {dl dr : Dataset} (hl : l.SelectsColumns)
    (hr : r.SelectsColumns) (refsl : dl.refs = l.features.map fun f => ⟨f.name?.getD "", none⟩)
    (refsr : dr.refs = r.features.map fun f => ⟨f.name?.getD "", none⟩) {p : Feature}
    (tells : l.Tells r p) (i j : Nat) :
    p.valueAt (readPair dl dr l.position r.position i j)
      = p.valueAt (readPair dl dr (byName dl) (byName dr) i j) := by
  refine Feature.valueAt_congr p fun s n k he => ?_
  have apart := tells _ he
  rw [readPair, readPair, byName_eq_position hl refsl fun f hf => apart f (by simp [hf]),
    byName_eq_position hr refsr fun f hf => apart f (by simp [hf])]

/-! ### Joins of statements -/

/-- The pair of rows matches exactly if the condition of the join is true there, or if there is
none. -/
def PairHolds (c : Option Feature) (read : Source → String → Value) (holds : Bool) : Prop :=
  match c with
  | none   => holds = true
  | some p => ∃ v, p.valueAt read = .ok v ∧ holds = v.isBool true

/-- **A join of two statements that select columns**: the rows of the pairs for which the condition is
true when its elements are read by name, on the left side first. Where names tell the columns apart,
these are the pairs for which it is true when each element is read on the side that has selected it. -/
theorem selections_joined {history : List Tree}
    (known : ∀ tree ∈ history, tree.Obeys (.plain kinds (ToldLiteral literals)))
    {l r : Source} {k : JoinType} {c : Option Feature} (hl : l.SelectsColumns)
    (hr : r.SelectsColumns) (built : (Source.join l r k c).Built)
    (obeys : (Source.join l r k c).Obeys (.plain kinds (ToldLiteral literals)))
    (unprovided : ∀ s ∈ [Source.join l r k c, l, r], sources.get? s = none) {plan : SourcePlan}
    {t : Translator SourcePlan FeaturePlan}
    (compiled : (translatorAfter sources history).serve (.finish (.source (.join l r k c)))
      = (.ok (some (.source plan)), t))
    {catalog : Catalog} {d : Dataset} (evaluated : plan catalog = .ok d) :
    ∃ (x y : SourcePlan) (z : Option FeaturePlan) (dl dr : Dataset) (holds : Nat → Nat → Bool),
      plan = SourcePlan.join x y z k ∧
      Composed (backend sources .empty) (Rooted (backend sources .empty)
        (.plain kinds (ToldLiteral literals))) l x ∧
      Composed (backend sources .empty) (Rooted (backend sources .empty)
        (.plain kinds (ToldLiteral literals))) r y ∧
      x catalog = .ok dl ∧ y catalog = .ok dr ∧
      dl.refs = l.features.map (fun f => ⟨f.name?.getD "", none⟩) ∧
      dr.refs = r.features.map (fun f => ⟨f.name?.getD "", none⟩) ∧
      d.rows = (nestedLoops dl.length dr.length holds k).map (joinedRow dl dr) ∧
      ∀ i < dl.length, ∀ j < dr.length,
        PairHolds c (readPair dl dr (byName dl) (byName dr) i j) (holds i j) ∧
        ((∀ p ∈ c, l.Tells r p) →
          PairHolds c (readPair dl dr l.position r.position i j) (holds i j)) := by
  have composed := (plain_lawful (backend sources .empty)).source_compiled (I := rooted _ _)
    (fun _ _ => nofun) known obeys compiled
  obtain ⟨free, freel, freer⟩ : sources.get? (Source.join l r k c) = none ∧
      sources.get? l = none ∧ sources.get? r = none := by simpa using unprovided
  obtain ⟨-, -, crossed, condition⟩ := built.inv_join
  cases composed with
  | @join _ _ _ _ m x y z left right hm hz =>
  have provided : (backend sources .empty).sources.get? (.join l r k c) = none := free
  rw [provided] at evaluated ⊢
  have joined : SourcePlan.join x y z k catalog = .ok d := evaluated
  obtain ⟨dl, dr, pairs, hx, hy, hpairs, sides⟩ := join_eq_ok.1 joined
  obtain ⟨regularl, refsl⟩ := selected_data hl freel left hx
  obtain ⟨regularr, refsr⟩ := selected_data hr freer right hy
  obtain ⟨-, -, rows⟩ := sideBySide_rows sides
  cases c with
  | none =>
    -- Without a condition it is a cross join, which takes all pairs.
    obtain rfl : k = .cross := crossed.1 rfl
    cases z with
    | some z => cases hz
    | none =>
    obtain rfl := Except.ok.inj hpairs
    refine ⟨x, y, none, dl, dr, fun _ _ => true, rfl, left, right, hx, hy, refsl, refsr, ?_,
      fun i _ j _ => ⟨rfl, fun _ => rfl⟩⟩
    rw [rows, allPairs_eq]
    simp [nestedLoops, keepsLeft, keepsRight]
  | some p =>
    cases z with
    | none => cases hz
    | some z =>
    have hz : Remembers m p.key z := (List.forall₂_cons.1 hz).1
    simp only [joinPositions, bind_eq_ok, pure_eq_ok] at hpairs
    obtain ⟨all, hall, mask, masked, rfl⟩ := hpairs
    have single := Feature.refuseCollective_eq_ok (condition p rfl).checked
    have unqualified : ∀ q : Source, ∀ ref ∈ q.features.map
        (fun f => (⟨f.name?.getD "", none⟩ : ColumnId)), ref.qualifier = none :=
      fun q => List.forall_mem_map.2 fun _ _ => rfl
    refine ⟨x, y, some z, dl, dr, maskAt dr.length mask, rfl, left, right, hx, hy, refsl, refsr, ?_,
      fun i hi j hj => ?_⟩
    · rw [rows, joinPairs_eq]
    · have value := condition_by_name hm (optionObeys_iff.1 obeys.2.2.2 p rfl) single hz regularl
        regularr (refsl ▸ unqualified l) (refsr ▸ unqualified r) hall masked hi hj
      refine ⟨⟨_, value, rfl⟩, fun tells => ⟨_, ?_, rfl⟩⟩
      rw [valueAt_by_position hl hr refsl refsr (tells p rfl), value]

end

/-! ### Two joins -/

/-- Two statements whose columns have different names. -/
theorem selections_joined_of_names :
    let school : Source := .table ⟨"school", [("id", ⟨.primitive .string, "id"⟩),
      ("name", ⟨.primitive .string, "name"⟩)]⟩
    let emp : Source := .table ⟨"emp", [("place", ⟨.primitive .string, "place"⟩)]⟩
    let id : Feature := .element school "id" (.primitive .string)
    let name : Feature := .element school "name" (.primitive .string)
    let place : Feature := .element emp "place" (.primitive .string)
    let l : Source := .query school [id, name] none [] none [] none
    let r : Source := .query emp [place] none [] none [] none
    let condition : Feature := .expression .eq [id, place] none
    let catalog : Catalog := [("school", ⟨[⟨"id", none⟩, ⟨"name", none⟩],
        [[.text "a", .text "b"], [.text "Alpha", .text "Beta"]], 2⟩),
      ("emp", ⟨[⟨"place", none⟩], [[.text "b", .text "c", .text "b"]], 3⟩)]
    ∃ plan t d dl dr holds,
      (translatorAfter .empty []).serve (.finish (.source (.join l r .inner (some condition))))
        = (.ok (some (.source plan)), t) ∧ plan catalog = .ok d ∧
      textsOfRows d = [["b", "Beta", "b"], ["b", "Beta", "b"]] ∧
      d.rows = (nestedLoops dl.length dr.length holds .inner).map (joinedRow dl dr) ∧
      ∀ i < dl.length, ∀ j < dr.length,
        PairHolds (some condition) (readPair dl dr l.position r.position i j) (holds i j) := by
  intro school emp id name place l r condition catalog
  have hschool : school.Built := .of_distinct rfl
  have hemp : emp.Built := .of_distinct rfl
  have hid : id.Built := .element hschool (show school.get "id" = .ok _ from rfl)
  have hname : name.Built := .element hschool (show school.get "name" = .ok _ from rfl)
  have hplace : place.Built := .element hemp (show emp.get "place" = .ok _ from rfl)
  have hl : l.Built := hschool.selecting (by simpa using ⟨hid, hname⟩) (by decide +kernel)
  have hr : r.Built := hemp.selecting (by simpa using hplace) (by decide +kernel)
  have hcondition : condition.Built := built_pair hid hplace rfl
  have built : (Source.join l r .inner (some condition)).Built :=
    hl.joining hr hcondition rfl rfl (by decide +kernel) (by decide +kernel)
  have rows : (dataOf ((translatorAfter .empty []).serve (.finish (.source (.join l r .inner
      (some condition))))).1 catalog).map textsOfRows
        = some [["b", "Beta", "b"], ["b", "Beta", "b"]] := by
    decide +kernel
  obtain ⟨plan, t, d, compiled, evaluated, texts⟩ := evaluated_of_dataOf rows
  -- All kinds are those of texts, and there are no literals.
  let rules := Rules.plain (fun _ => .primitive .string) (ToldLiteral fun _ => .null)
  have oschool : school.Obeys rules := ⟨⟨structFree_table rfl, told_table rfl⟩, trivial⟩
  have oemp : emp.Obeys rules := ⟨⟨structFree_table rfl, told_table rfl⟩, trivial⟩
  have oid : id.Obeys rules := ⟨⟨⟨trivial, rfl⟩, trivial⟩, oschool⟩
  have oname : name.Obeys rules := ⟨⟨⟨trivial, rfl⟩, trivial⟩, oschool⟩
  have oplace : place.Obeys rules := ⟨⟨⟨trivial, rfl⟩, trivial⟩, oemp⟩
  have ol : l.Obeys rules := ⟨⟨⟨nofun, trivial⟩, trivial⟩, oschool, ⟨oid, oname, trivial⟩, trivial,
    trivial, trivial, trivial⟩
  have or : r.Obeys rules := ⟨⟨⟨nofun, trivial⟩, trivial⟩, oemp, ⟨oplace, trivial⟩, trivial, trivial,
    trivial, trivial⟩
  have obeys : (Source.join l r .inner (some condition)).Obeys rules :=
    ⟨⟨⟨trivial, trivial⟩, trivial⟩, ol, or, ⟨⟨nofun, trivial⟩, trivial⟩, oid, oplace, trivial⟩
  obtain ⟨x, y, z, dl, dr, holds, -, -, -, -, -, -, -, rows, pairs⟩ := selections_joined (by simp)
    ⟨rfl, by decide +kernel⟩ ⟨rfl, by decide +kernel⟩ built obeys (fun _ _ => rfl)
    compiled evaluated
  refine ⟨plan, t, d, dl, dr, holds, compiled, evaluated, texts, rows, fun i hi j hj => ?_⟩
  refine (pairs i hi j hj).2 ?_
  rintro p ⟨⟩
  decide +kernel

/-- Two statements that both select a column `id`: the condition compares the left one with itself, so
all pairs of rows match, also those whose ids differ. -/
theorem selections_confused :
    let school : Source := .table ⟨"school", [("id", ⟨.primitive .string, "id"⟩),
      ("name", ⟨.primitive .string, "name"⟩)]⟩
    let emp : Source := .table ⟨"emp", [("id", ⟨.primitive .string, "id"⟩)]⟩
    let id : Feature := .element school "id" (.primitive .string)
    let name : Feature := .element school "name" (.primitive .string)
    let other : Feature := .element emp "id" (.primitive .string)
    let l : Source := .query school [id, name] none [] none [] none
    let r : Source := .query emp [other] none [] none [] none
    let condition : Feature := .expression .eq [id, other] none
    let dl : Dataset := ⟨[⟨"id", none⟩, ⟨"name", none⟩],
      [[.text "a", .text "b"], [.text "Alpha", .text "Beta"]], 2⟩
    let dr : Dataset := ⟨[⟨"id", none⟩], [[.text "b", .text "a"]], 2⟩
    l.SelectsColumns ∧ r.SelectsColumns ∧ (Source.join l r .inner (some condition)).Built ∧
      (∃ plan t d, (translatorAfter .empty []).serve (.finish (.source (.join l r .inner
          (some condition)))) = (.ok (some (.source plan)), t) ∧
        plan [("school", dl), ("emp", dr)] = .ok d ∧
        textsOfRows d = [["a", "Alpha", "b"], ["a", "Alpha", "a"], ["b", "Beta", "b"],
          ["b", "Beta", "a"]]) ∧
      PairHolds (some condition) (readPair dl dr l.position r.position 0 0) false ∧
      PairHolds (some condition) (readPair dl dr (byName dl) (byName dr) 0 0) true := by
  intro school emp id name other l r condition dl dr
  have hschool : school.Built := .of_distinct rfl
  have hemp : emp.Built := .of_distinct rfl
  have hid : id.Built := .element hschool (show school.get "id" = .ok _ from rfl)
  have hname : name.Built := .element hschool (show school.get "name" = .ok _ from rfl)
  have hother : other.Built := .element hemp (show emp.get "id" = .ok _ from rfl)
  have hl : l.Built := hschool.selecting (by simpa using ⟨hid, hname⟩) (by decide +kernel)
  have hr : r.Built := hemp.selecting (by simpa using hother) (by decide +kernel)
  have hcondition : condition.Built := built_pair hid hother rfl
  refine ⟨⟨rfl, by decide +kernel⟩, ⟨rfl, by decide +kernel⟩,
    hl.joining hr hcondition rfl rfl (by decide +kernel) (by decide +kernel),
    evaluated_of_dataOf (by decide +kernel), ⟨.bool false, rfl, rfl⟩, ⟨.bool true, rfl, rfl⟩⟩

end Evaluation

end QueryAlgebra
