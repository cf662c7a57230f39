import QueryAlgebra.Proofs.Text.Json
import QueryAlgebra.Proofs.Translation.References

/-!
# Registrations in any order

The columns and the factors of a table are sets, in the order of their registration. What a scan of the
table is handed is put in order: columns by their names, which tell the columns of one table, and factors by
their texts, which need not tell factors.

* `ordered_keys_eq`: a set of items that names tell as keys do has one order.
* `Registration`, `Readings.registered`: what is registered, one after the other.
* `Readings.columns_registered`, `Readings.factors_registered`: the columns and factors of a table then.
* `registered_in_any_order`: the columns are handed in one sequence, whatever the order of registration, and
  the factors in one predicate if texts tell them.
* `predicate_of_alike`, `order_shows`: of two factors that have one text, the one that is registered first
  stays first.
-/

namespace QueryAlgebra

/-! ### Sets in order -/

/-- **A set of items that names tell as keys do has one order.** -/
theorem ordered_keys_eq {α : Type} {key name : α → String} {as bs : List α}
    (told : ∀ a ∈ as ++ bs, ∀ b ∈ as ++ bs, key a = key b ↔ name a = name b)
    (once : (as.map key).Nodup) (once' : (bs.map key).Nodup)
    (same : ∀ k, k ∈ as.map key ↔ k ∈ bs.map key) :
    (ordered (fun a b => Text.before (name a) (name b)) as).map key
      = (ordered (fun a b => Text.before (name a) (name b)) bs).map key := by
  have distinct : ∀ l : List α, l ⊆ as ++ bs → (l.map key).Nodup → (l.map name).Nodup := by
    intro l inside h
    rw [List.Nodup, List.pairwise_map] at h ⊢
    exact h.imp_of_mem fun ha hb differ alike => differ ((told _ (inside ha) _ (inside hb)).2 alike)
  have named : ∀ n, n ∈ as.map name ↔ n ∈ bs.map name := by
    have pass : ∀ l m : List α, l ⊆ as ++ bs → m ⊆ as ++ bs → (∀ k ∈ l.map key, k ∈ m.map key) →
        ∀ n ∈ l.map name, n ∈ m.map name := by
      intro l m hl hm keys n hn
      obtain ⟨a, ha, rfl⟩ := List.mem_map.1 hn
      obtain ⟨b, hb, hab⟩ := List.mem_map.1 (keys _ (List.mem_map_of_mem ha))
      exact List.mem_map.2 ⟨b, hb, (told b (hm hb) a (hl ha)).1 hab⟩
    exact fun n => ⟨pass as bs (by simp) (by simp) (fun k => (same k).1) n,
      pass bs as (by simp) (by simp) (fun k => (same k).2) n⟩
  have oncea := distinct as (by simp) once
  have onceb := distinct bs (by simp) once'
  have perm := (List.perm_ext_iff_of_nodup oncea onceb).2 named
  have putas := @ordered_perm α (fun a b => Text.before (name a) (name b)) as
  have putbs := @ordered_perm α (fun a b => Text.before (name a) (name b)) bs
  have sorted : ∀ l : List α, (l.map name).Nodup →
      ((ordered (fun a b => Text.before (name a) (name b)) l).map name).Pairwise
        fun m n => Text.before m n = true := fun l h => List.pairwise_map.2 (ordered_ascending h)
  have sortedas := sorted as oncea
  have sortedbs := sorted bs onceb
  generalize ordered (fun a b => Text.before (name a) (name b)) as = cs at *
  generalize ordered (fun a b => Text.before (name a) (name b)) bs = ds at *
  have names : cs.map name = ds.map name :=
    ((putas.map name).trans (perm.trans (putbs.map name).symm)).eq_of_pairwise
      (fun m n _ _ hmn hnm => absurd hnm (by simp [Text.before_asymm hmn])) sortedas sortedbs
  refine List.ext_getElem (by simpa using congrArg List.length names) fun i hi hi' => ?_
  simp only [List.length_map] at hi hi'
  rw [List.getElem_map, List.getElem_map, told]
  · have each := List.getElem_of_eq names (by simpa using hi)
    rwa [List.getElem_map, List.getElem_map] at each
  · exact List.mem_append_left _ (putas.mem_iff.1 (List.getElem_mem hi))
  · exact List.mem_append_right _ (putbs.mem_iff.1 (List.getElem_mem hi'))

namespace Translation

/-! ### Registrations -/

/-- What is registered at a time: features that are read, or a row filter. -/
inductive Registration where
  | select (fs : List Feature)
  | filter (p : Feature)

namespace Registration

/-- The columns that are registered. -/
def columns : Registration → List Feature
  | .select fs => columnsIn fs
  | .filter p  => columnsIn [p]

/-- The factor that is registered for a table. -/
def factor? (t : Schema) : Registration → Option Feature
  | .select _ => none
  | .filter p => p.factors.get? t

end Registration

namespace Readings

/-- Registers features that are read, or a row filter. -/
def register (ts : Readings) : Registration → Readings
  | .select fs => ts.select fs
  | .filter p  => ts.filter p

/-- What is read after registrations, one after the other. -/
def registered (rs : List Registration) : Readings := rs.foldl register .empty

theorem columns_addColumn (ts : Readings) (c : Feature) (t : Schema) :
    ((ts.addColumn c).reading t).columns
      = if c.tableKey? = some t.key then (ts.reading t).columns.add c else (ts.reading t).columns := by
  unfold addColumn
  cases table : c.table? with
  | none => simp [Feature.tableKey?, table]
  | some u =>
    simp only [reading_set, Feature.tableKey?, table, Option.map_some, Option.some.injEq]
    split
    · rename_i hk
      rw [← reading_congr ts hk]
    · rfl

theorem columns_addFactor (ts : Readings) (u : Schema) (q : Feature) (t : Schema) :
    ((ts.addFactor u q).reading t).columns = (ts.reading t).columns := by
  rw [addFactor, reading_set]
  split
  · rename_i hk
    rw [← reading_congr ts hk]
  · rfl

/-- The columns of the table among the columns inside features. -/
def ownColumns (t : Schema) (cs : List Feature) : List Feature :=
  cs.filter fun c => c.tableKey? == some t.key

theorem columns_select (ts : Readings) (fs : List Feature) (t : Schema) :
    ((ts.select fs).reading t).columns
      = (ownColumns t (columnsIn fs)).foldl KeyedSet.add (ts.reading t).columns := by
  unfold select ownColumns
  induction columnsIn fs generalizing ts with
  | nil => rfl
  | cons c r ih =>
    rw [List.foldl_cons, ih, columns_addColumn, List.filter_cons]
    by_cases own : c.tableKey? = some t.key <;> simp [own]

theorem columns_filter (ts : Readings) (p : Feature) (t : Schema) :
    ((ts.filter p).reading t).columns
      = (ownColumns t (columnsIn [p])).foldl KeyedSet.add (ts.reading t).columns := by
  rw [← columns_select]
  unfold filter
  generalize ts.select [p] = us
  induction p.factors.toList generalizing us with
  | nil => rfl
  | cons e r ih => exact (ih _).trans (columns_addFactor us e.1 e.2 t)

/-- One registration adds its columns of the table. -/
theorem columns_register (ts : Readings) (r : Registration) (t : Schema) :
    ((ts.register r).reading t).columns
      = (ownColumns t r.columns).foldl KeyedSet.add (ts.reading t).columns := by
  cases r with
  | select fs => exact columns_select ts fs t
  | filter p => exact columns_filter ts p t

/-- One registration adds its factor for the table, if it has one. -/
theorem factors_register (ts : Readings) (r : Registration) (t : Schema) :
    ((ts.register r).reading t).factors
      = (r.factor? t).toList.foldl KeyedSet.add (ts.reading t).factors := by
  cases r with
  | select fs => exact factors_select ts fs t
  | filter p =>
    rw [register, factors_filter, Registration.factor?]
    cases p.factors.get? t <;> rfl

/-- **The columns of a table after registrations** are all that were registered for it. -/
theorem columns_registered (rs : List Registration) (t : Schema) :
    ((registered rs).reading t).columns = .ofList (ownColumns t (rs.flatMap Registration.columns)) := by
  have run : ∀ ts : Readings, ((rs.foldl register ts).reading t).columns
      = (ownColumns t (rs.flatMap Registration.columns)).foldl KeyedSet.add (ts.reading t).columns := by
    induction rs with
    | nil => exact fun ts => rfl
    | cons r rs ih =>
      intro ts
      rw [List.foldl_cons, ih, columns_register, List.flatMap_cons, ownColumns, ownColumns, ownColumns,
        List.filter_append, List.foldl_append]
  exact run .empty

/-- **The factors of a table after registrations** are all that were registered for it. -/
theorem factors_registered (rs : List Registration) (t : Schema) :
    ((registered rs).reading t).factors = .ofList (rs.filterMap (Registration.factor? t)) := by
  have run : ∀ ts : Readings, ((rs.foldl register ts).reading t).factors
      = (rs.filterMap (Registration.factor? t)).foldl KeyedSet.add (ts.reading t).factors := by
    induction rs with
    | nil => exact fun ts => rfl
    | cons r rs ih =>
      intro ts
      rw [List.foldl_cons, ih, factors_register, List.filterMap_cons]
      cases r.factor? t <;> rfl
  exact run .empty

end Readings

/-! ### What is handed -/

/-- The name of a column tells its key among the columns of one table. -/
theorem column_told {t : Schema} {c d : Feature} (hc : c.tableKey? = some t.key)
    (hd : d.tableKey? = some t.key) :
    c.key = d.key ↔ c.name?.getD "" = d.name?.getD "" := by
  obtain ⟨u, hu, hk⟩ := Option.map_eq_some_iff.1 hc
  obtain ⟨v, hv, hl⟩ := Option.map_eq_some_iff.1 hd
  obtain ⟨n, _, rfl⟩ := Feature.table?_eq_some hu
  obtain ⟨m, _, rfl⟩ := Feature.table?_eq_some hv
  have keys : u.key = v.key := hk.trans hl.symm
  simp only [Feature.key, Source.key, Feature.name?, Option.getD_some, keys]
  refine ⟨fun same => ?_, fun same => by rw [same]⟩
  have texts := congrArg String.toList same
  simp only [String.toList_append, List.append_assoc, List.append_cancel_left_eq] at texts
  exact (Text.json_append_inj texts).1

/-- Predicates in one order, key by key, have disjunctions with one key. -/
theorem key_anyOf {ps qs : List Feature}
    (same : (orderedByText ps).map Feature.key = (orderedByText qs).map Feature.key) :
    (anyOf ps).map Feature.key = (anyOf qs).map Feature.key := by
  have fold : ∀ (ps qs : List Feature) (p q : Feature), p.key = q.key →
      ps.map Feature.key = qs.map Feature.key →
      (ps.foldl (fun acc f => Feature.expression .or [acc, f] none) p).key
        = (qs.foldl (fun acc f => Feature.expression .or [acc, f] none) q).key := by
    intro ps
    induction ps with
    | nil =>
      intro qs p q first rest
      obtain rfl : qs = [] := by simpa using rest.symm
      exact first
    | cons f ps ih =>
      intro qs p q first rest
      obtain ⟨g, qs, rfl⟩ : ∃ g r, qs = g :: r := List.exists_cons_of_ne_nil (by rintro rfl; simp at rest)
      obtain ⟨hfg, rest⟩ := List.cons.inj rest
      refine ih qs _ _ ?_ rest
      simp only [Feature.key, featureKeys, first, hfg]
  unfold anyOf
  generalize orderedByText ps = ps at same
  generalize orderedByText qs = qs at same
  cases ps with
  | nil =>
    obtain rfl : qs = [] := by simpa using same.symm
    rfl
  | cons p ps =>
    obtain ⟨q, qs, rfl⟩ : ∃ q r, qs = q :: r := List.exists_cons_of_ne_nil (by rintro rfl; simp at same)
    obtain ⟨first, rest⟩ := List.cons.inj same
    exact congrArg some (fold ps qs p q first rest)

/-- **Sets that hold the same keys have one order** by names that tell their nodes as keys do. -/
theorem ordered_keys_of_perm {name : Feature → String} {as bs : List Feature} (perm : as.Perm bs)
    (told : ∀ a ∈ as, ∀ b ∈ as, a.key = b.key ↔ name a = name b) :
    (ordered (fun a b => Text.before (name a) (name b)) (KeyedSet.ofList as).toList).map Feature.key
      = (ordered (fun a b => Text.before (name a) (name b)) (KeyedSet.ofList bs).toList).map
        Feature.key := by
  have known : ∀ c ∈ (KeyedSet.ofList as).toList ++ (KeyedSet.ofList bs).toList, c ∈ as := fun c hc =>
    (List.mem_append.1 hc).elim KeyedSet.mem_toList_ofList fun h =>
      perm.mem_iff.2 (KeyedSet.mem_toList_ofList h)
  have keys : ∀ (l : List Feature) (k : String), k ∈ (KeyedSet.ofList l).toList.map Feature.key ↔
      ∃ c ∈ l, c.key = k := fun l k => by
    rw [List.mem_map]
    exact (KeyedSet.Proper.ofList l).hasKey.symm.trans KeyedSet.hasKey_ofList
  refine ordered_keys_eq (fun a ha b hb => told a (known a ha) b (known b hb))
    (KeyedSet.Proper.ofList as).nodup_toList (KeyedSet.Proper.ofList bs).nodup_toList fun k => ?_
  rw [keys, keys]
  exact exists_congr fun c => and_congr_left fun _ => perm.mem_iff

/-- **What is handed to a scan does not depend on the order of registration.** The columns of a table are the
same in the same sequence, and its factors are the same. They make the same predicate if, among the factors
that row filters have for the table, the same texts belong to the same factors. -/
theorem registered_in_any_order {rs rs' : List Registration} (perm : rs.Perm rs') (t : Schema) :
    let r := (Readings.registered rs).reading t
    let r' := (Readings.registered rs').reading t
    r.fields.map Feature.key = r'.fields.map Feature.key ∧
    (∀ k, r.factors.hasKey k = r'.factors.hasKey k) ∧
    ((∀ p q f g, .filter p ∈ rs → .filter q ∈ rs → p.factors.get? t = some f →
        q.factors.get? t = some g → (f.key = g.key ↔ f.text = g.text)) →
      r.predicate.map Feature.key = r'.predicate.map Feature.key) := by
  have factors := perm.filterMap (Registration.factor? t)
  refine ⟨?_, fun k => ?_, fun told => ?_⟩
  · rw [Reading.fields, Reading.fields, Readings.columns_registered, Readings.columns_registered]
    refine @ordered_keys_of_perm (fun c => c.name?.getD "") _ _ ((perm.flatMap_right _).filter _)
      fun c hc d hd => ?_
    exact column_told (beq_iff_eq.1 (List.mem_filter.1 hc).2) (beq_iff_eq.1 (List.mem_filter.1 hd).2)
  · rw [Readings.factors_registered, Readings.factors_registered, Bool.eq_iff_iff, KeyedSet.hasKey_ofList,
      KeyedSet.hasKey_ofList]
    exact exists_congr fun f => and_congr_left fun _ => factors.mem_iff
  · rw [Reading.predicate, Reading.predicate, Readings.factors_registered, Readings.factors_registered]
    refine key_anyOf (ordered_keys_of_perm factors fun f hf g hg => ?_)
    have filters : ∀ f ∈ rs.filterMap (Registration.factor? t), ∃ p, .filter p ∈ rs ∧
        p.factors.get? t = some f := by
      intro f hf
      obtain ⟨r, hr, found⟩ := List.mem_filterMap.1 hf
      cases r with
      | select fs => cases found
      | filter p => exact ⟨p, hr, found⟩
    obtain ⟨p, hp, hpf⟩ := filters f hf
    obtain ⟨q, hq, hqg⟩ := filters g hg
    exact told p q f g hp hq hpf hqg

/-- A column that is read and two row filters, in another order. -/
theorem registered_in_any_order_of_filters :
    let student : Schema := ⟨"student", [("score", ⟨.primitive .float, "score"⟩),
      ("level", ⟨.primitive .integer, "class"⟩)]⟩
    let score : Feature := .element (.table student) "score" (.primitive .float)
    let level : Feature := .element (.table student) "class" (.primitive .integer)
    let cheap : Feature := .expression .lt [score, .literal (.number (.ofInt 2)) (.primitive .integer)] none
    let first : Feature := .expression .eq [level, .literal (.number (.ofInt 1)) (.primitive .integer)] none
    let r := (Readings.registered [.select [level], .filter cheap, .filter first]).reading student
    let r' := (Readings.registered [.filter first, .filter cheap, .select [level]]).reading student
    r.fields.map Feature.key = r'.fields.map Feature.key ∧
      r.predicate.map Feature.key = r'.predicate.map Feature.key := by
  intro student score level cheap first r r'
  have perm : [Registration.select [level], .filter cheap, .filter first].Perm
      [.filter first, .filter cheap, .select [level]] := List.reverse_perm _ |>.symm
  obtain ⟨columns, -, predicates⟩ := registered_in_any_order perm student
  have either : ∀ {p : Feature}, .filter p ∈ [Registration.select [level], .filter cheap, .filter first] →
      p = cheap ∨ p = first := by simp
  have whole : ∀ p, p = cheap ∨ p = first → ∀ f, p.factors.get? student = some f →
      f.key = p.key ∧ f.text = p.text := by
    have look : ∀ p, p = cheap ∨ p = first →
        (p.factors.get? student).map (fun f => (f.key, f.text)) = some (p.key, p.text) := by
      rintro p (rfl | rfl) <;> decide +kernel
    intro p hp f hf
    have := look p hp
    rw [hf] at this
    exact Prod.mk.inj (Option.some.inj this)
  refine ⟨columns, predicates fun p q f g hp hq hf hg => ?_⟩
  obtain ⟨fkey, ftext⟩ := whole p (either hp) f hf
  obtain ⟨gkey, gtext⟩ := whole q (either hq) g hg
  rw [fkey, gkey, ftext, gtext]
  rcases either hp with rfl | rfl <;> rcases either hq with rfl | rfl
  · exact iff_of_true rfl rfl
  · decide +kernel
  · decide +kernel
  · exact iff_of_true rfl rfl

/-- **Of two factors with one text the one that is registered first stays first.** -/
theorem predicate_of_alike {p q f g : Feature} {t : Schema} (hf : p.factors.get? t = some f)
    (hg : q.factors.get? t = some g) (alike : f.text = g.text) (differ : f.key ≠ g.key) :
    ((Readings.registered [.filter p, .filter q]).reading t).predicate
      = some (.expression .or [f, g] none) := by
  have both : (KeyedSet.ofList [f, g]).toList = [f, g] := by
    have new : (KeyedSet.add .empty f).has g = false := by
      rw [KeyedSet.has, KeyedSet.hasKey_add]
      simpa using ⟨Ne.symm differ, rfl⟩
    show (KeyedSet.add (KeyedSet.add .empty f) g).toList = [f, g]
    rw [KeyedSet.add, new]
    rfl
  have same : Text.before g.text f.text = false := by
    by_contra h
    have before := Text.before_asymm (eq_true_of_ne_false h)
    rw [alike] at h before
    exact h before
  rw [Reading.predicate, Readings.factors_registered]
  simp only [Registration.factor?, List.filterMap_cons, hf, hg, List.filterMap_nil, both]
  simp [anyOf, orderedByText, ordered, insertOrdered, same]

/-- **So the order of two row filters shows** wherever they have such factors for a table. -/
theorem order_shows {p q f g : Feature} {t : Schema} (hp : p.Obeys .distinct) (hq : q.Obeys .distinct)
    (hf : p.factors.get? t = some f) (hg : q.factors.get? t = some g) (alike : f.text = g.text)
    (differ : f.key ≠ g.key) :
    ((Readings.registered [.filter p, .filter q]).reading t).predicate.map Feature.key
      ≠ ((Readings.registered [.filter q, .filter p]).reading t).predicate.map Feature.key := by
  rw [predicate_of_alike hf hg alike differ, predicate_of_alike hg hf alike.symm (Ne.symm differ)]
  intro same
  have told : ∀ {a b : Feature}, a.Obeys .distinct → b.Obeys .distinct →
      (Feature.expression .or [a, b] none).Obeys .distinct := fun ha hb => ⟨nofun, ha, hb, trivial⟩
  have hf := factor_distinct hp hf
  have hg := factor_distinct hq hg
  have canonical := Feature.canonical_eq_of_key (told hf hg) (told hg hf) (Option.some.inj same)
  obtain ⟨-, args, -⟩ := Feature.expression.inj canonical
  have first : f.canonical = g.canonical := (List.cons.inj args).1
  exact differ (by rw [← f.key_canonical, first, g.key_canonical])

/-- A Boolean column that is called like a comparison of another one has the same text: two row filters, in
either order, leave predicates that differ. -/
theorem alike_out_of_order :
    let odd : Schema := ⟨"odd", [("score", ⟨.primitive .float, "score"⟩),
      ("score < 2", ⟨.primitive .boolean, "score < 2"⟩)]⟩
    let marked : Feature := .element (.table odd) "score < 2" (.primitive .boolean)
    let cheap : Feature := .expression .lt [.element (.table odd) "score" (.primitive .float),
      .literal (.number (.ofInt 2)) (.primitive .integer)] none
    [Registration.filter marked, .filter cheap].Perm [.filter cheap, .filter marked] ∧
      marked.text = cheap.text ∧ marked.key ≠ cheap.key ∧
      ((Readings.registered [.filter marked, .filter cheap]).reading odd).predicate.map Feature.key
        ≠ ((Readings.registered [.filter cheap, .filter marked]).reading odd).predicate.map Feature.key := by
  intro odd marked cheap
  exact ⟨.swap _ _ _, by decide +kernel, by decide +kernel, by decide +kernel⟩

end Translation

end QueryAlgebra
