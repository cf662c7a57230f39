import QueryAlgebra.Proofs.Sql.Titles

/-!
# Labels of elements

* `Titles.label`: elements of references go by the names of the references, columns by their titles.
* `ownShape_of_run`: the skeleton of a source has the shape of the source with these labels.
* `Rules.namedApart`: tables with the same fields have the same name.
* `ownShape_of_apart`: then all elements go by the names of their own sources.
-/

namespace QueryAlgebra

/-- What elements go by under titles. -/
def Titles.label (a : Titles) : Source → String → String
  | .table t, n       => (a.given (Feature.element (.table t) n default).key).getD ""
  | .reference _ l, _ => l
  | _, _              => ""

namespace Sql

open Translation

/-- The titles and the memo behind a translation. -/
theorem entitled_of_run {s x : Source} (hs : s.Obeys .distinct)
    (h : (eval (directSource skeleton s) Bench.fresh).1 = .ok x) :
    let w := (eval (directSource skeleton s) Bench.fresh).2
    Entitled w (s.titles .none) ∧ tracing.memo w.memo ∧ Shaped s x w := by
  intro w
  have traced := shape_outcome s hs tracing_fresh
  have fresh : closed.Holds Bench.fresh := ⟨fun _ _ ⟨_, hx⟩ => (nomatch hx), trivial, Readings.All.empty⟩
  exact ⟨(source_entitled hs fresh .fresh (Prod.ext h rfl)).2, traced.holds.memo, traced.ok x h⟩

/-- Labels of elements of references, and of columns that have titles. -/
theorem labels_of_titles {w : Bench Source Feature} {a : Titles} (h : Entitled w a)
    (hm : tracing.memo w.memo) {label : Source → String → String}
    (tables : ∀ t n k l, (Feature.element (.table t) n k).Obeys .distinct →
      a.given (Feature.element (.table t) n k).key = some l → label (.table t) n = l)
    (references : ∀ s l n, label (.reference s l) n = l) : Labels label w.memo := by
  intro s n k x hd hx
  obtain ⟨y, rfl, ⟨t, rfl⟩ | ⟨r, l, rfl, hy⟩⟩ := element_of_remembered hm hd hx
  · have title := h.given _ hd rfl
    rw [show Assoc.find? _ w.memo = some _ from hx] at title
    exact ⟨y, rfl, (tables t n k _ hd title.symm).symm⟩
  · exact ⟨y, rfl, hy.trans (references r l n).symm⟩

/-- **The skeleton of a source has its shape**, with columns labelled by their titles. -/
theorem ownShape_of_run {s x : Source} (hs : s.Obeys .distinct)
    (h : (eval (directSource skeleton s) Bench.fresh).1 = .ok x) :
    x.ownShape = s.shape (s.titles .none).label Source.features := by
  obtain ⟨entitled, memo, shaped⟩ := entitled_of_run hs h
  refine shaped _ _ (.refl _) memo (labels_of_titles entitled memo (fun t n k l _ title => ?_)
    fun _ _ _ => rfl)
  have title : (s.titles .none).given (Feature.element (.table t) n default).key = some l := title
  rw [Titles.label, title]
  rfl

end Sql

/-! ### Tables told apart by names -/

/-- Tables that have the same fields have the same name. -/
def Rules.namedApart (names : String → String) : Rules where
  feature _ := True
  source
    | .table t => t.name = names t.key
    | _        => True

theorem Rules.namedApart_offered (names : String → String) : (Rules.namedApart names).Offered :=
  offered_of_element fun _ _ _ => trivial

/-- The names that elements go by where tables with the same fields have the same name. -/
def Source.handleBy (names : String → String) : Source → String
  | .table t       => names t.key
  | .reference _ n => n
  | _              => ""

theorem Source.handleBy_canonical (names : String → String) (s : Source) :
    s.canonical.handleBy names = s.handleBy names := by
  cases s with
  | table t => exact congrArg names t.key_canonical
  | _ => rfl

section

variable {names : String → String}

theorem Source.Obeys.handle_eq {s : Source} (h : s.Obeys (.namedApart names)) :
    s.handle = s.handleBy names := by
  cases s with
  | table t => exact h
  | _ => rfl

/-- Elements that have one key go by one name. -/
theorem Feature.handle_eq_of_key {e f : Feature} (he : e.Obeys .distinct) (hf : f.Obeys .distinct)
    (ae : e.Obeys (.namedApart names)) (af : f.Obeys (.namedApart names)) (h : e.key = f.key) :
    e.handle = f.handle := by
  have same := canonical_eq_of_key he hf h
  cases e with
  | element s n k =>
    cases f with
    | element t m l =>
      have origins : s.canonical = t.canonical := (Feature.element.inj same).1
      show s.handle = t.handle
      rw [ae.2.handle_eq, af.2.handle_eq, ← s.handleBy_canonical, origins, t.handleBy_canonical]
    | _ => simp [canonical] at same
  | _ => cases f <;> first | rfl | simp [canonical] at same

namespace Titles

/-- All tables that were visited, and all titles, have the names that go with the fields. -/
structure Apart (names : String → String) (a : Titles) : Prop where
  read    : ∀ c ∈ a.read, c.Obeys .distinct ∧ c.Obeys (.namedApart names)
  visited : ∀ k n, a.visited k = some n → n = names k
  given   : ∀ c : Feature, c.Obeys .distinct → ∀ t, c.tableKey? = some t →
    ∀ n, a.given c.key = some n → n = names t

namespace Apart

variable {a : Titles}

theorem none : Apart names .none := ⟨nofun, nofun, nofun⟩

theorem give (h : a.Apart names) {cs : List Feature}
    (hcs : ∀ c ∈ cs, c.Obeys .distinct ∧ c.Obeys (.namedApart names)) : (a.give cs).Apart names where
  read := h.read
  visited := h.visited
  given c hc t table n title := by
    rcases Option.or_eq_some_iff.1 title with title | ⟨-, title⟩
    · exact h.given c hc t table n title
    · obtain ⟨d, found, rfl⟩ := Option.map_eq_some_iff.1 title
      obtain ⟨hd, apart⟩ := hcs d (List.mem_of_find?_eq_some found)
      have same : d.key = c.key := by simpa using List.find?_some found
      rw [← Feature.tableKey?_eq_of_key hd hc same] at table
      obtain ⟨u, hu, rfl⟩ := Option.map_eq_some_iff.1 table
      cases visited : a.visited u.key with
      | some l =>
        simp only [of, hu, Option.map_some, visited, Option.getD_some]
        exact h.visited _ _ visited
      | none =>
        simp only [of, hu, Option.map_some, visited, Option.getD_none, Option.getD_some]
        cases d with
        | element s n k =>
          cases s with
          | table v =>
            cases hu
            exact apart.2
          | _ => simp [Feature.table?] at hu
        | _ => simp [Feature.table?] at hu

theorem visit (h : a.Apart names) {t : Schema} (ht : t.name = names t.key) :
    (a.visit t).Apart names := by
  have visited : ∀ k n, Function.update a.visited t.key (some t.name) k = some n → n = names k := by
    intro k n hn
    by_cases hk : k = t.key
    · subst hk
      rw [Function.update_self] at hn
      exact Option.some.inj hn ▸ ht
    · rw [Function.update_of_ne hk] at hn
      exact h.visited k n hn
  have begun : Apart names { a with visited := Function.update a.visited t.key (some t.name) } :=
    ⟨h.read, visited, h.given⟩
  exact begun.give fun c hc => h.read c (List.mem_filter.1 hc).1

theorem columns {fs : List Feature} (hfs : ∀ f ∈ fs, f.Obeys .distinct)
    (afs : ∀ f ∈ fs, f.Obeys (.namedApart names)) :
    ∀ c ∈ columnsOf fs, c.Obeys .distinct ∧ c.Obeys (.namedApart names) := by
  intro c hc
  obtain ⟨f, hf, hcf⟩ := mem_columnsOf.1 hc
  exact ⟨(hfs f hf).columns c hcf, (afs f hf).columns c hcf⟩

end Apart

end Titles

/-- The clauses of a statement keep the rules that it keeps. -/
theorem clauseFeatures_obey {p : Rules} (offered : p.Offered) {s : Source} {sel : List Feature}
    {pre : Option Feature} {grp : List Feature} {post : Option Feature} {ord : List OrderTerm}
    {rows : Option RowRange} (h : (Source.query s sel pre grp post ord rows).Obeys p) :
    ∀ f ∈ clauseFeatures s sel pre grp post ord, f.Obeys p := by
  have outputs := Source.Obeys.features offered _ h
  have clauses := h.statement
  simp only [clauseFeatures, List.forall_mem_append]
  refine ⟨⟨⟨⟨?_, ?_⟩, clauses.grouping⟩, ?_⟩, List.forall_mem_map.2 clauses.ordering⟩
  · simpa only [Source.features] using outputs
  · simpa using clauses.prefilter
  · simpa using clauses.postfilter

/-- **Titles stay apart** where tables with the same fields have the same name. -/
theorem Source.titles_apart : ∀ {s : Source}, s.Obeys .distinct → s.Obeys (.namedApart names) →
    ∀ {a : Titles}, a.Apart names → (s.titles a).Apart names
  | .table t, _, as, a, h => h.visit as
  | .reference s _, hs, as, a, h => titles_apart hs.2 as.2 h
  | .join l r _ c, hs, as, a, h => by
    obtain ⟨_, hl, hr, hc⟩ := hs
    obtain ⟨_, al, ar, ac⟩ := as
    have condition := Titles.Apart.columns
      (show ∀ f ∈ c.toList, f.Obeys .distinct by simpa using optionObeys_iff.1 hc)
      (by simpa using optionObeys_iff.1 ac)
    have registered : (a.register c.toList).Apart names :=
      ⟨List.forall_mem_append.2 ⟨h.read, condition⟩, h.visited, h.given⟩
    exact (titles_apart hr ar (titles_apart hl al registered)).give condition
  | .set l r _, hs, as, a, h => titles_apart hs.2.2 as.2.2 (titles_apart hs.2.1 as.2.1 h)
  | .query s sel pre grp post ord _, hs, as, a, h => by
    have clauses := Titles.Apart.columns (clauseFeatures_obey Rules.distinct_offered hs)
      (clauseFeatures_obey (Rules.namedApart_offered names) as)
    have begun : (a.inner (clauseFeatures s sel pre grp post ord)).Apart names :=
      ⟨by simpa [Titles.inner, Titles.register, Titles.none] using clauses, nofun, h.given⟩
    exact ⟨h.read, h.visited, ((titles_apart hs.2.1 as.2.1 begun).give clauses).given⟩

end

namespace Sql

open Translation

/-- **Where tables with the same fields have the same name**, the skeleton of a source has its shape,
with all elements under the names of their own sources. -/
theorem ownShape_of_apart {names : String → String} {s x : Source} (hs : s.Obeys .distinct)
    (apart : s.Obeys (.namedApart names))
    (h : (eval (directSource skeleton s) Bench.fresh).1 = .ok x) :
    x.ownShape = s.shape (fun t _ => t.handleBy names) Source.features := by
  obtain ⟨entitled, memo, shaped⟩ := entitled_of_run hs h
  have titles := Source.titles_apart hs apart .none
  exact shaped _ _ (.refl _) memo (labels_of_titles entitled memo
    (fun t n k l hd title => (titles.given _ hd t.key rfl l title).symm) fun _ _ _ => rfl)

end Sql

end QueryAlgebra
