import QueryAlgebra.Proofs.Translation.Readings
import QueryAlgebra.Proofs.Translation.Direct

/-!
# Trees whose names are in sight

A translation asks for the sources of elements. Those of tables can always be addressed, those of
references once the reference was visited in the scope; and an element that was asked for once is
remembered. The predicate of a scan is asked for before the rest of its scope is visited.

* `Feature.Found`: the source of an element can be addressed.
* `Source.visits`, `Source.registers`, `Source.asks`: the references that a source visits in its
  scope, what it reads there, and the elements that it asks for.
* `Source.Ready`: every predicate that is pushed down to a scan asks for elements that are found.
* `Source.offers`: the features that a source offers are found behind it.
* `Source.Obeys.ready`: a source is ready when no predicate mixes columns of tables with elements of
  references.
-/

namespace QueryAlgebra

open Translation

/-! ### What is in sight -/

/-- The source of an element can be addressed: it is a table or was visited, or the element was asked
for before. Sources and elements are given by their keys. -/
def Feature.Found (visited asked : List String) : Feature → Prop
  | .element (.table _) _ _ => True
  | .element s n k          => s.key ∈ visited ∨ (Feature.element s n k).key ∈ asked
  | _                       => True

instance (visited asked : List String) : ∀ f : Feature, Decidable (f.Found visited asked)
  | .element (.table _) _ _ => .isTrue trivial
  | .element (.reference ..) _ _ | .element (.join ..) _ _ | .element (.set ..) _ _
  | .element (.query ..) _ _ => inferInstanceAs (Decidable (_ ∈ _ ∨ _ ∈ _))
  | .aliased .. | .literal .. | .expression .. | .window .. => .isTrue trivial

/-- The keys of elements. -/
def keysOf (es : List Feature) : List String := es.map Feature.key

/-- What a statement reads from the tables of its own scope. -/
def registered (s : Source) (sel : List Feature) (pre : Option Feature) (grp : List Feature)
    (post : Option Feature) (ord : List OrderTerm) : Readings :=
  registerClauses (Source.query s sel pre grp post ord none).features pre grp post ord .empty

/-- The elements that the clauses of a statement ask for. -/
def clauseElements (s : Source) (sel : List Feature) (pre : Option Feature) (grp : List Feature)
    (post : Option Feature) (ord : List OrderTerm) : List Feature :=
  elementsOf (Source.query s sel pre grp post ord none).features ++ elementsOfOption pre ++
    elementsOf grp ++ elementsOfOption post ++ elementsOfTerms ord

namespace Source

/-- The keys of the references that a source visits in its scope. -/
def visits : Source → List String
  | .reference s n => (Source.reference s n).key :: s.visits
  | .join l r _ _  => l.visits ++ r.visits
  | .set l r _     => l.visits ++ r.visits
  | _              => []

/-- What is read from the tables of a scope after a source was visited in it. -/
def registers : Source → Readings → Readings
  | .table t, ts       => ts.touch t
  | .reference s _, ts => s.registers ts
  | .join l r _ c, ts  => r.registers (l.registers (ts.filterBy c))
  | .set l r _, ts     => r.registers (l.registers ts)
  | .query .., ts      => ts

/-- The elements that a source asks for in a scope that reads from its tables what is given. -/
def asks : Source → Readings → List Feature
  | .table t, ts       =>
    elementsOf ((ts.touch t).reading t).fields ++ elementsOfOption ((ts.touch t).reading t).predicate
  | .reference s _, ts => s.asks ts
  | .join l r _ c, ts  =>
    l.asks (ts.filterBy c) ++ r.asks (l.registers (ts.filterBy c)) ++ elementsOfOption c
  | .set l r _, ts     => l.asks ts ++ r.asks (l.registers ts)
  | .query s sel pre grp post ord _, _ =>
    s.asks (registered s sel pre grp post ord) ++ clauseElements s sel pre grp post ord

/-- Every predicate that is pushed down to a scan asks for elements that are found, given what the
scope reads from its tables, the references visited in it and the elements asked for before. The
sources in `given` are in sight in every scope. -/
def Ready (given : List String) : Source → Readings → List String → List String → Prop
  | .table t, ts, visited, asked       =>
    ∀ e ∈ elementsOfOption ((ts.touch t).reading t).predicate, e.Found visited asked
  | .reference s _, ts, visited, asked => s.Ready given ts visited asked
  | .join l r _ c, ts, visited, asked  =>
    l.Ready given (ts.filterBy c) visited asked ∧
      r.Ready given (l.registers (ts.filterBy c)) (visited ++ l.visits)
        (asked ++ keysOf (l.asks (ts.filterBy c)))
  | .set l r _, ts, visited, asked     =>
    l.Ready given ts visited asked ∧
      r.Ready given (l.registers ts) (visited ++ l.visits) (asked ++ keysOf (l.asks ts))
  | .query s sel pre grp post ord _, _, _, asked =>
    s.Ready given (registered s sel pre grp post ord) given asked

instance decidableReady (given : List String) : ∀ (s : Source) (ts : Readings)
    (visited asked : List String), Decidable (s.Ready given ts visited asked)
  | .table t, ts, visited, asked =>
    inferInstanceAs (Decidable (∀ e ∈ elementsOfOption ((ts.touch t).reading t).predicate,
      e.Found visited asked))
  | .reference s _, ts, visited, asked => decidableReady given s ts visited asked
  | .join l r _ _, _, visited, asked   =>
    @instDecidableAnd _ _ (decidableReady given l _ visited asked) (decidableReady given r _ _ _)
  | .set l r _, _, visited, asked      =>
    @instDecidableAnd _ _ (decidableReady given l _ visited asked) (decidableReady given r _ _ _)
  | .query s .., _, _, asked           => decidableReady given s _ given asked

/-- All that the source scans lies in the scopes of statements inside. -/
def IsStatement : Source → Prop
  | .query ..  => True
  | .set l r _ => l.IsStatement ∧ r.IsStatement
  | _          => False

end Source

/-! ### Elements and their keys -/

theorem mem_keysOf {es : List Feature} {k : String} : k ∈ keysOf es ↔ ∃ e ∈ es, e.key = k :=
  List.mem_map

namespace Feature

theorem Found.mono {visited visited' asked asked' : List String} (hv : visited ⊆ visited')
    (ha : asked ⊆ asked') {e : Feature} (h : e.Found visited asked) : e.Found visited' asked' := by
  cases e with
  | element s n k =>
    cases s with
    | table t => trivial
    | _ => exact Or.imp (fun hs => hv hs) (fun he => ha he) h
  | _ => trivial

theorem found_of_asked {visited asked : List String} {e : Feature} (h : e.key ∈ asked) :
    e.Found visited asked := by
  cases e with
  | element s n k =>
    cases s with
    | table t => trivial
    | _ => exact .inr h
  | _ => trivial

/-- Elements without structs that have one key belong to sources of one key. -/
theorem Found.of_key {visited asked : List String} {e f : Feature} (he : e.Obeys .distinct)
    (hf : f.Obeys .distinct) (h : e.key = f.key) (hfound : e.Found visited asked) :
    f.Found visited asked := by
  have hcanonical := canonical_eq_of_key he hf h
  cases e with
  | element s n k =>
    cases f with
    | element t m l =>
      simp only [canonical, Feature.element.injEq] at hcanonical
      have hkey : s.key = t.key := by
        rw [← s.key_canonical, hcanonical.1, t.key_canonical]
      cases t with
      | table => trivial
      | _ =>
        cases s with
        | table => simp [Source.canonical] at hcanonical
        | _ => exact Or.imp (fun hs => hkey ▸ hs) (fun ha => h ▸ ha) hfound
    | _ => trivial
  | _ =>
    cases f with
    | element t m l => simp [canonical] at hcanonical
    | _ => trivial

theorem Found.of_append {visited asked keys : List String} {f : Feature}
    (h : f.Found visited (asked ++ keys)) : f.Found visited asked ∨ f.key ∈ keys := by
  cases f with
  | element s n k =>
    cases s with
    | table t => exact .inl trivial
    | _ =>
      rcases h with hs | hf
      · exact .inl (.inl hs)
      · exact (List.mem_append.1 hf).imp_left .inr
  | _ => exact .inl trivial

/-- Asking for elements that are found brings nothing else in sight. -/
theorem found_append_iff {visited asked : List String} {es : List Feature}
    (hes : ∀ e ∈ es, e.Obeys .distinct) (hfound : ∀ e ∈ es, e.Found visited asked) {f : Feature}
    (hf : f.Obeys .distinct) :
    f.Found visited (asked ++ keysOf es) ↔ f.Found visited asked := by
  constructor
  · intro h
    rcases h.of_append with h | h
    · exact h
    · obtain ⟨e, he, hkey⟩ := mem_keysOf.1 h
      exact (hfound e he).of_key (hes e he) hf hkey
  · exact Found.mono (fun _ h => h) (List.subset_append_left _ _)

/-- Elements asked for in turn are found exactly when all are found at first. -/
theorem forall_found_append {visited asked : List String} {es fs : List Feature}
    (hes : ∀ e ∈ es, e.Obeys .distinct) (hfs : ∀ f ∈ fs, f.Obeys .distinct) :
    ((∀ e ∈ es, e.Found visited asked) ∧ ∀ f ∈ fs, f.Found visited (asked ++ keysOf es)) ↔
      ∀ e ∈ es ++ fs, e.Found visited asked := by
  rw [List.forall_mem_append]
  exact and_congr_right fun hfound =>
    forall₂_congr fun f hf => found_append_iff hes hfound (hfs f hf)

end Feature

theorem elementsOf_obey {p : Rules} {fs : List Feature} (h : ∀ f ∈ fs, f.Obeys p) :
    ∀ e ∈ elementsOf fs, e.Obeys p := by
  intro e he
  obtain ⟨f, hf, he⟩ := mem_elementsOf.1 he
  exact (h f hf).elements e he

theorem elementsOfTerms_obey {p : Rules} {os : List OrderTerm} (h : ∀ o ∈ os, o.feature.Obeys p) :
    ∀ e ∈ elementsOfTerms os, e.Obeys p := by
  intro e he
  obtain ⟨o, ho, he⟩ := mem_elementsOfTerms.1 he
  exact (h o ho).elements e he

theorem elementsOfOption_obey {p : Rules} {o : Option Feature} (h : ∀ f ∈ o, f.Obeys p) :
    ∀ e ∈ elementsOfOption o, e.Obeys p := by
  intro e he
  obtain ⟨f, hf, he⟩ := mem_elementsOfOption.1 he
  exact (h f hf).elements e he

theorem keysOf_append (es fs : List Feature) : keysOf (es ++ fs) = keysOf es ++ keysOf fs :=
  List.map_append

theorem keysOf_elementsOf (fs : List Feature) :
    keysOf (elementsOf fs) = fs.flatMap Feature.elementKeys := by
  rw [elementsOf_eq_flatMap, keysOf, List.map_flatMap]
  rfl

theorem keysOf_elementsOfTerms (os : List OrderTerm) :
    keysOf (elementsOfTerms os) = (os.map OrderTerm.feature).flatMap Feature.elementKeys := by
  rw [elementsOfTerms_eq_flatMap, keysOf, List.map_flatMap]
  rfl

namespace Source

/-! ### What sources offer -/

/-- **The features that a source offers are found behind it.** -/
theorem offers : ∀ (s : Source) (ts : Readings), ∀ f ∈ s.features, ∀ e ∈ f.elements,
    e.Found s.visits (keysOf (s.asks ts))
  | .table t, ts => by
    intro f hf e he
    obtain ⟨g, _, rfl⟩ := List.mem_map.1 (by simpa only [Source.features] using hf)
    obtain rfl : e = _ := by simpa [Feature.elements] using he
    trivial
  | .reference s n, ts => by
    intro f hf e he
    obtain ⟨g, _, rfl⟩ := List.mem_map.1 (by simpa only [Source.features] using hf)
    obtain rfl : e = _ := by simpa [Feature.elements] using he
    exact .inl (by simp [visits])
  | .join l r k c, ts => by
    intro f hf e he
    rcases List.mem_append.1 (by simpa only [Source.features] using hf) with hf | hf
    · refine (offers l (ts.filterBy c) f hf e he).mono (by simp [visits]) ?_
      simp [asks, keysOf]
    · refine (offers r (l.registers (ts.filterBy c)) f hf e he).mono (by simp [visits]) ?_
      simp [asks, keysOf]
  | .set l r k, ts => by
    intro f hf e he
    refine (offers l ts f (by simpa only [Source.features] using hf) e he).mono (by simp [visits]) ?_
    simp [asks, keysOf]
  | .query s sel pre grp post ord rows, ts => by
    intro f hf e he
    have hclause : e ∈ clauseElements s sel pre grp post ord := by
      have houtput : e ∈ elementsOf (Source.query s sel pre grp post ord none).features :=
        mem_elementsOf.2 ⟨f, by simpa only [Source.features] using hf, he⟩
      simp [clauseElements, houtput]
    exact Feature.found_of_asked (mem_keysOf.2 ⟨e, List.mem_append_right _ hclause, rfl⟩)

end Source

/-- The elements inside a feature that stays within others are found where those are. -/
theorem Feature.Within.found {f : Feature} {gs : List Feature} (h : f.Within (elementsIn gs))
    (hf : f.Obeys .distinct) (hgs : ∀ g ∈ gs, g.Obeys .distinct) {visited asked : List String}
    (hfound : ∀ g ∈ gs, ∀ e ∈ g.elements, e.Found visited asked) :
    ∀ e ∈ f.elements, e.Found visited asked := by
  intro e he
  obtain ⟨g, hg, hk⟩ := h.elementKeys hf hgs e.key (List.mem_map_of_mem he)
  obtain ⟨e', he', hkey⟩ := List.mem_map.1 hk
  exact (hfound g hg e' he').of_key ((hgs g hg).elements e' he') (hf.elements e he) hkey

/-- **The elements that the clauses of a built statement ask for are found behind its source.** -/
theorem Source.Statement.found {s : Source} {sel : List Feature} {pre : Option Feature}
    {grp : List Feature} {post : Option Feature} {ord : List OrderTerm} {rows : Option RowRange}
    (h : s.Statement sel pre grp post ord rows)
    (hd : (Source.query s sel pre grp post ord rows).Obeys .distinct) (ts : Readings) :
    ∀ e ∈ clauseElements s sel pre grp post ord, e.Found s.visits (keysOf (s.asks ts)) := by
  have clauses := hd.statement
  have offered := s.offers ts
  have clause : ∀ f : Feature, f.Within (elementsIn s.features) → f.Obeys .distinct →
      ∀ e ∈ f.elements, e.Found s.visits (keysOf (s.asks ts)) :=
    fun f hw hf => hw.found hf (Source.Obeys.features Rules.distinct_offered s clauses.source) offered
  intro e he
  simp only [clauseElements, List.mem_append, mem_elementsOf, mem_elementsOfOption,
    mem_elementsOfTerms] at he
  rcases he with (((⟨f, hf, he⟩ | ⟨f, hf, he⟩) | ⟨f, hf, he⟩) | ⟨f, hf, he⟩) | ⟨o, ho, he⟩
  · simp only [Source.features] at hf
    split at hf
    · exact offered f hf e he
    · exact clause f (h.selection f hf).2 (clauses.selection f hf) e he
  · exact clause f (h.prefilter f hf).within (clauses.prefilter f hf) e he
  · exact clause f (h.grouping f hf).2.2.2 (clauses.grouping f hf) e he
  · exact clause f (h.postfilter f hf).within (clauses.postfilter f hf) e he
  · exact clause o.feature (h.ordering o ho).2 (clauses.ordering o ho) e he

/-! ### Predicates that keep to tables -/

namespace Feature

/-- All elements inside the feature are columns of tables. -/
def Tabular (f : Feature) : Prop := ∀ e ∈ f.elements, e.table?.isSome = true

/-- Every part of the predicate that is pushed down to a table keeps to columns of tables. -/
def Separate (p : Feature) : Prop := ∀ e ∈ p.factors.toList, e.2.Tabular

theorem Tabular.pair {op : Operator} {a b : Feature} (ha : a.Tabular) (hb : b.Tabular) :
    (Feature.expression op [a, b] none).Tabular := by
  intro e he
  obtain ⟨f, hf, hin⟩ := mem_elementsOf.1 (show e ∈ elementsOf [a, b] from he)
  rcases List.mem_pair.1 hf with rfl | rfl
  · exact ha e hin
  · exact hb e hin

theorem found_of_table {visited asked : List String} {e : Feature}
    (h : e.table?.isSome = true) : e.Found visited asked := by
  cases e with
  | element s n k =>
    cases s with
    | table t => trivial
    | _ => simp [table?] at h
  | _ => trivial

end Feature

/-- Conditions of joins and row filters push down only what keeps to tables. -/
def Rules.separate : Rules where
  feature _ := True
  source
    | .join _ _ _ c           => ∀ p ∈ c, p.Separate
    | .query _ _ pre _ _ _ _ => ∀ p ∈ pre, p.Separate
    | _                       => True

theorem reads_trivial (fs : List Feature) : Reads (fun _ => True) fs := fun _ _ _ _ _ => trivial

/-- The factors that are registered keep to columns of tables. -/
abbrev Translation.Readings.Tabular (ts : Readings) : Prop :=
  ts.All (fun _ => True) Feature.Tabular

namespace Source

theorem registers_tabular : ∀ (s : Source) {ts : Readings}, s.Obeys .separate → ts.Tabular →
    (s.registers ts).Tabular
  | .table t, _, _, h => h.touch t
  | .reference s _, _, hs, h => registers_tabular s hs.2 h
  | .join l r _ _, _, ⟨hc, hl, hr, _⟩, h =>
    registers_tabular r hr (registers_tabular l hl (h.filterBy (reads_trivial _) hc))
  | .set l r _, _, ⟨_, hl, hr⟩, h => registers_tabular r hr (registers_tabular l hl h)
  | .query .., _, _, h => h

/-- **A source is ready when its conditions and row filters push down only what keeps to tables.** -/
theorem Obeys.ready {given : List String} : ∀ (s : Source) {ts : Readings}
    {visited asked : List String}, s.Obeys .separate → ts.Tabular → s.Ready given ts visited asked
  | .table t, ts, _, _, _, h => by
    intro e he
    obtain ⟨q, hq, he⟩ := mem_elementsOfOption.1 he
    exact Feature.found_of_table
      ((h.touch t).predicate (fun _ _ _ _ ha hb => ha.pair hb) t q hq e he)
  | .reference s _, _, _, _, hs, h => Obeys.ready s hs.2 h
  | .join l r _ _, _, _, _, ⟨hc, hl, hr, _⟩, h =>
    have filtered := h.filterBy (reads_trivial _) hc
    ⟨Obeys.ready l hl filtered, Obeys.ready r hr (registers_tabular l hl filtered)⟩
  | .set l r _, _, _, _, ⟨_, hl, hr⟩, h =>
    ⟨Obeys.ready l hl h, Obeys.ready r hr (registers_tabular l hl h)⟩
  | .query s _ _ _ _ _ _, _, _, _, ⟨hpre, hs, _⟩, _ =>
    Obeys.ready s hs (Readings.All.empty.registerClauses (reads_trivial _) (reads_trivial _)
      (reads_trivial _) (reads_trivial _) (reads_trivial _) hpre)

end Source

end QueryAlgebra
