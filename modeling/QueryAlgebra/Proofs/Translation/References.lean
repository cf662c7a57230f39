import QueryAlgebra.Proofs.Translation.Scans

/-!
# What scans under references are handed

A reference gives the fields of a table to a scope anew, as its own elements. The scope registers only
elements of tables themselves, and by table alone. So a scan under a reference is handed what is read
from the table itself, and the predicates about the table itself, instead of what belongs to the
reference.

* `Occurrence`, `Source.occurrences`: the scanned tables with the references around them and the row
  filters that are registered by then.
* `Readings.Filtered`: the factors that are registered are those of given filters.
* `Sifted`, `source_sifts`: the predicate of a scan is that one of these factors holds.
* `Served`: a scan is handed all that is read through its occurrence of the table, and no predicate
  about another one alone.
* `references_served`: so it is where all that is read through the occurrence is read from the table
  itself as well, and filters that speak of the table speak of the occurrence.
* `reference_unserved`: otherwise it may miss a field, and have the predicate of another occurrence.
-/

namespace QueryAlgebra

/-! ### Occurrences of tables -/

/-- A table that is scanned, maybe under a reference with a name, and the row filters that its scope
has registered when it is met. -/
structure Occurrence extends Site where
  reference : Option String
  filters   : List Feature

namespace Occurrence

/-- What gives the fields of the table to the scope: the reference around it, or the table itself. -/
def source (v : Occurrence) : Source :=
  match v.reference with
  | none   => .table v.table
  | some n => .reference (.table v.table) n

/-- A field is read through the occurrence by the feature. -/
def ReadBy (v : Occurrence) (n : String) (k : Kind) (f : Feature) : Prop :=
  Feature.element v.source n k ∈ f.elements

/-- All that the scope reads through the occurrence it has read from the table itself when the table is
met, and no filter speaks of the table without the occurrence. -/
structure Doubled (v : Occurrence) : Prop where
  fields  : ∀ f ∈ v.scope, ∀ n k, v.ReadBy n k f →
    ∃ c ∈ columnsOf v.before, c.key = (Feature.element (.table v.table) n k).key
  factors : ∀ p ∈ v.filters, ∀ q, p.factors.get? v.table = some q → ∃ n k, v.ReadBy n k q

end Occurrence

namespace Source

/-- The occurrences of tables that a source scans, in the order in which they are met, given the
reference around it, what its scope has registered before, which of it are row filters, and what it
registers in all. -/
def occurrencesIn : Source → Option String → List Feature → List Feature → List Feature →
    List Occurrence
  | .table t, around, before, filters, scope    => [⟨⟨t, before, scope⟩, around, filters⟩]
  | .reference s n, _, before, filters, scope   => s.occurrencesIn (some n) before filters scope
  | .join l r _ c, _, before, filters, scope    =>
    l.occurrencesIn none (before ++ c.toList) (filters ++ c.toList) scope ++
      r.occurrencesIn none (before ++ c.toList ++ l.conditions) (filters ++ c.toList ++ l.conditions)
        scope
  | .set l r _, _, before, filters, scope       =>
    l.occurrencesIn none before filters scope ++
      r.occurrencesIn none (before ++ l.conditions) (filters ++ l.conditions) scope
  | .query s sel pre grp post ord rows, _, _, _, _ =>
    let clauses := (query s sel pre grp post ord rows).features
      ++ (query s sel pre grp post ord rows).spoken
    s.occurrencesIn none clauses pre.toList (clauses ++ s.conditions)

/-- The occurrences of tables that a statement scans, in the order in which they are met. -/
def occurrences (q : Source) : List Occurrence := q.occurrencesIn none [] [] []

/-- They stand at the sites of the scans. -/
theorem map_occurrencesIn : ∀ (s : Source) (around : Option String)
    (before filters scope : List Feature),
    (s.occurrencesIn around before filters scope).map Occurrence.toSite = s.sitesIn before scope
  | .table _, _, _, _, _ => rfl
  | .reference s n, _, before, filters, scope => s.map_occurrencesIn (some n) before filters scope
  | .join l r _ _, _, _, _, _ => by
    simp only [occurrencesIn, sitesIn, List.map_append, map_occurrencesIn l, map_occurrencesIn r]
  | .set l r _, _, _, _, _ => by
    simp only [occurrencesIn, sitesIn, List.map_append, map_occurrencesIn l, map_occurrencesIn r]
  | .query s .., _, _, _, _ => s.map_occurrencesIn none _ _ _

theorem map_occurrences (q : Source) : q.occurrences.map Occurrence.toSite = q.sites :=
  q.map_occurrencesIn none [] [] []

/-- The conditions of joins keep the rules of the source. -/
theorem Obeys.conditions {p : Rules} : ∀ {s : Source}, s.Obeys p → ∀ f ∈ s.conditions, f.Obeys p
  | .table _, _, _, hf => nomatch hf
  | .reference .., hs, f, hf => hs.2.conditions f hf
  | .join .., hs, f, hf => by
    simp only [Source.conditions, List.mem_append] at hf
    rcases hf with (hf | hf) | hf
    · exact optionObeys_iff.1 hs.2.2.2 f (Option.mem_toList.1 hf)
    · exact hs.2.1.conditions f hf
    · exact hs.2.2.1.conditions f hf
  | .set .., hs, f, hf => by
    rcases List.mem_append.1 hf with hf | hf
    · exact hs.2.1.conditions f hf
    · exact hs.2.2.conditions f hf
  | .query .., _, _, hf => nomatch hf

/-- So do the tables that are scanned, and what is registered when they are met. -/
theorem Obeys.sitesIn {p : Rules} (hp : p.Offered) : ∀ {s : Source}, s.Obeys p →
    ∀ {before : List Feature} (scope : List Feature), (∀ f ∈ before, f.Obeys p) →
    ∀ site ∈ s.sitesIn before scope, (Source.table site.table).Obeys p ∧ ∀ f ∈ site.before, f.Obeys p
  | .table _, hs, _, _, known, site, h => by
    obtain rfl := List.mem_singleton.1 h
    exact ⟨hs, known⟩
  | .reference .., hs, _, scope, known, site, h => hs.2.sitesIn hp scope known site h
  | .join l r k c, hs, _, scope, known, site, h => by
    have registered := List.forall_mem_append.2
      ⟨known, fun f hf => optionObeys_iff.1 hs.2.2.2 f (Option.mem_toList.1 hf)⟩
    rcases List.mem_append.1 h with h | h
    · exact hs.2.1.sitesIn hp scope registered site h
    · exact hs.2.2.1.sitesIn hp scope (List.forall_mem_append.2 ⟨registered, hs.2.1.conditions⟩) site h
  | .set .., hs, _, scope, known, site, h => by
    rcases List.mem_append.1 h with h | h
    · exact hs.2.1.sitesIn hp scope known site h
    · exact hs.2.2.sitesIn hp scope (List.forall_mem_append.2 ⟨known, hs.2.1.conditions⟩) site h
  | .query s sel pre grp post ord rows, hs, _, _, _, site, h => by
    refine hs.2.1.sitesIn hp _ (fun f hf => ?_) site h
    have clauses := hs.statement
    rw [mem_clauses] at hf
    simp only [List.mem_append, List.mem_map, Option.mem_toList] at hf
    rcases hf with (((hf | hf) | hf) | hf) | ⟨o, ho, rfl⟩
    · exact Source.Obeys.features hp _ hs f hf
    · exact clauses.prefilter f hf
    · exact clauses.postfilter f hf
    · exact clauses.grouping f hf
    · exact clauses.ordering o ho

end Source

namespace Translation

variable {S F α β : Type}

/-! ### Filters that are registered -/

namespace Readings

theorem factors_touch (ts : Readings) (t u : Schema) :
    ((ts.touch t).reading u).factors = (ts.reading u).factors := by
  unfold touch
  split
  · rfl
  · rename_i new
    rw [reading_set]
    split
    · rename_i hk
      rw [← reading_congr ts hk, reading, new]
      rfl
    · rfl

theorem factors_addColumn (ts : Readings) (c : Feature) (t : Schema) :
    ((ts.addColumn c).reading t).factors = (ts.reading t).factors := by
  unfold addColumn
  split
  · rfl
  · rw [reading_set]
    split
    · rename_i hk
      rw [← reading_congr ts hk]
    · rfl

/-- Features that are read register no factors. -/
theorem factors_select (ts : Readings) (fs : List Feature) (t : Schema) :
    ((ts.select fs).reading t).factors = (ts.reading t).factors := by
  unfold select
  induction columnsIn fs generalizing ts with
  | nil => rfl
  | cons c r ih => exact (ih (ts.addColumn c)).trans (factors_addColumn ts c t)

theorem factors_addFactor (ts : Readings) (u : Schema) (q : Feature) (t : Schema) :
    ((ts.addFactor u q).reading t).factors
      = if u.key = t.key then (ts.reading t).factors.add q else (ts.reading t).factors := by
  rw [addFactor, reading_set]
  split
  · rename_i hk
    rw [← reading_congr ts hk]
  · rfl

/-- **A row filter registers its factor for a table**, if it has one. -/
theorem factors_filter (ts : Readings) (p : Feature) (t : Schema) :
    ((ts.filter p).reading t).factors
      = (p.factors.get? t).elim (ts.reading t).factors (ts.reading t).factors.add := by
  have others : ∀ (es : List (Schema × Feature)), (∀ e ∈ es, e.1.key ≠ t.key) → ∀ us : Readings,
      ((es.foldl (fun acc e => acc.addFactor e.1 e.2) us).reading t).factors
        = (us.reading t).factors := by
    intro es
    induction es with
    | nil => exact fun _ _ => rfl
    | cons e r ih =>
      intro none us
      obtain ⟨first, rest⟩ := List.forall_mem_cons.1 none
      exact (ih rest _).trans (by rw [factors_addFactor, if_neg first])
  -- Only one entry has the key of the table, as the factors are a proper map.
  have own : ∀ (es : List (Schema × Feature)), (es.map fun e => Keyed.key e.1).Nodup →
      ∀ e ∈ es, e.1.key = t.key → ∀ us : Readings,
      ((es.foldl (fun acc e => acc.addFactor e.1 e.2) us).reading t).factors
        = (us.reading t).factors.add e.2 := by
    intro es
    induction es with
    | nil => exact fun _ _ he => nomatch he
    | cons d r ih =>
      intro once e he key us
      obtain ⟨new, once⟩ := List.nodup_cons.1 once
      rcases List.mem_cons.1 he with rfl | he
      · have rest : ∀ d ∈ r, d.1.key ≠ t.key := fun d hd same =>
          new (List.mem_map.2 ⟨d, hd, same.trans key.symm⟩)
        exact (others r rest _).trans (by rw [factors_addFactor, if_pos key])
      · have first : d.1.key ≠ t.key := fun same =>
          new (List.mem_map.2 ⟨e, he, key.trans same.symm⟩)
        exact (ih once e he key _).trans (by rw [factors_addFactor, if_neg first])
  have proper := p.factors_proper
  unfold filter
  cases found : p.factors.get? t with
  | none =>
    refine (others _ (fun e he same => ?_) _).trans (factors_select ts [p] t)
    have held := proper.get?_of_mem he
    rw [p.factors.get?_congr (b := t) same, found] at held
    cases held
  | some q =>
    obtain ⟨x, hx, rfl⟩ := Option.map_eq_some_iff.1 found
    have mem := KeyedMap.mem_of_find? hx
    refine (own _ proper.nodup_toList x (List.mem_map_of_mem mem) (proper.keyed _ mem) _).trans ?_
    rw [factors_select]
    rfl

/-- The factors that are registered for tables are those of the filters. -/
structure Filtered (ts : Readings) (ps : List Feature) : Prop where
  proper : ∀ t, (ts.reading t).factors.Proper
  sound  : ∀ t, ∀ q ∈ (ts.reading t).factors.toList, ∃ p ∈ ps, p.factors.get? t = some q
  whole  : ∀ t, ∀ p ∈ ps, ∀ q, p.factors.get? t = some q → (ts.reading t).factors.hasKey q.key = true

namespace Filtered

variable {ts us : Readings} {ps : List Feature}

theorem empty : Filtered .empty [] where
  proper _ := .empty
  sound _ _ hq := nomatch hq
  whole _ _ hp := nomatch hp

theorem of_factors (h : ts.Filtered ps)
    (same : ∀ t, (us.reading t).factors = (ts.reading t).factors) : us.Filtered ps :=
  ⟨fun t => same t ▸ h.proper t, fun t => same t ▸ h.sound t, fun t => same t ▸ h.whole t⟩

theorem touch (h : ts.Filtered ps) (t : Schema) : (ts.touch t).Filtered ps :=
  h.of_factors (ts.factors_touch t)

theorem select (h : ts.Filtered ps) (fs : List Feature) : (ts.select fs).Filtered ps :=
  h.of_factors (ts.factors_select fs)

theorem filter (h : ts.Filtered ps) (p : Feature) : (ts.filter p).Filtered (ps ++ [p]) := by
  have before : ∀ t q, (∃ p ∈ ps, p.factors.get? t = some q) →
      ∃ r ∈ ps ++ [p], r.factors.get? t = some q :=
    fun t q ⟨r, hr, hq⟩ => ⟨r, List.mem_append_left _ hr, hq⟩
  refine ⟨fun t => ?_, fun t q hq => ?_, fun t r hr q hq => ?_⟩
  · rw [factors_filter]
    cases p.factors.get? t with
    | none => exact h.proper t
    | some q => exact (h.proper t).add q
  · rw [factors_filter] at hq
    cases found : p.factors.get? t with
    | none =>
      rw [found] at hq
      exact before t q (h.sound t q hq)
    | some r =>
      rw [found] at hq
      rcases KeyedSet.mem_toList_add hq with rfl | hq
      · exact ⟨p, List.mem_append_right _ (List.mem_singleton_self p), found⟩
      · exact before t q (h.sound t q hq)
  · rw [factors_filter]
    rcases List.mem_append.1 hr with hr | hr
    · have known := h.whole t r hr q hq
      cases p.factors.get? t with
      | none => exact known
      | some x =>
        show ((ts.reading t).factors.add x).hasKey q.key = true
        rw [KeyedSet.hasKey_add, known, Bool.or_true]
    · obtain rfl := List.mem_singleton.1 hr
      rw [hq]
      show ((ts.reading t).factors.add q).hasKey q.key = true
      rw [KeyedSet.hasKey_add, beq_iff_eq.2 (show q.key = Keyed.key q from rfl), Bool.true_or]

theorem filterBy (h : ts.Filtered ps) (c : Option Feature) :
    (ts.filterBy c).Filtered (ps ++ c.toList) := by
  cases c with
  | none => simpa [Readings.filterBy] using h
  | some p => exact h.filter p

/-- The only row filter among the clauses of a statement is its prefilter. -/
theorem registerClauses (outputs : List Feature) (pre : Option Feature) (grp : List Feature)
    (post : Option Feature) (ord : List OrderTerm) :
    (Translation.registerClauses outputs pre grp post ord .empty).Filtered pre.toList := by
  have filtered := (empty.select outputs).filterBy pre
  unfold Translation.registerClauses
  cases pre <;> cases post with
  | none => exact (filtered.select grp).select _
  | some p => exact ((filtered.select [p]).select grp).select _

end Filtered

end Readings

/-! ### Predicates of scans -/

/-- The predicate of a scan is that one of the factors holds that filters have for the table. It has
the symbol that is remembered for this. -/
def Sifted (m : List (String × F)) (v : Occurrence) (scan : Scan S F) : Prop :=
  ∃ qs : List Feature,
    (∀ q ∈ qs, ∃ p ∈ v.filters, p.factors.get? v.table = some q) ∧
    (∀ p ∈ v.filters, ∀ q, p.factors.get? v.table = some q → ∃ r ∈ qs, r.key = q.key) ∧
    Remembered m (anyOf qs).toList scan.predicate.toList

/-- The scans that a computation asks for have, in turn, the predicates that are registered at the
occurrences of tables. A fault may end it early; otherwise it goes through all occurrences, and `post`
holds of what it reaches. -/
def Sifts (vs : List Occurrence) (w : Bench S F) (post : Bench S F → Prop)
    (p : Except Fault α × Bench S F) : Prop :=
  w.Extends p.2 ∧ ∃ done scans, p.2.scans = w.scans ++ scans ∧
    List.Forall₂ (Sifted p.2.memo) done scans ∧ done <+: vs ∧ ∀ x, p.1 = .ok x → done = vs ∧ post p.2

/-- A scan has its predicate also where more is remembered. -/
theorem Sifted.mono {w w' : Bench S F} (stays : w.Extends w') {v : Occurrence} {scan : Scan S F}
    (h : Sifted w.memo v scan) : Sifted w'.memo v scan := by
  obtain ⟨qs, sound, whole, remembered⟩ := h
  exact ⟨qs, sound, whole, stays.remembered remembered⟩

namespace Sifts

variable {vs vs' : List Occurrence} {w : Bench S F} {post post' : Bench S F → Prop}
  {p : Except Fault α × Bench S F}

/-- Of two computations in turn, the second goes on with the occurrences behind those of the first. -/
theorem andThen {k : α → Bench S F → Except Fault β × Bench S F} (h : Sifts vs w post p)
    (hk : ∀ x w', post w' → Sifts vs' w' post' (k x w')) :
    Sifts (vs ++ vs') w post' (Translation.andThen p k) := by
  obtain ⟨stays, done, scans, logged, sifted, upto, ok⟩ := h
  obtain ⟨_ | x, w'⟩ := p
  · exact ⟨stays, done, scans, logged, sifted, upto.trans (List.prefix_append _ _), nofun⟩
  · obtain ⟨rfl, hx⟩ := ok x rfl
    obtain ⟨stays', done', scans', logged', sifted', upto', ok'⟩ := hk x w' hx
    have first : List.Forall₂ (Sifted (k x w').2.memo) done scans :=
      sifted.imp fun _ _ h => h.mono stays'
    refine ⟨stays.trans stays', done ++ done', scans ++ scans', ?_, List.rel_append first sifted',
      (List.prefix_append_right_inj _).2 upto', fun y hy => ?_⟩
    · rw [show (Translation.andThen (.ok x, w') k).2.scans = (k x w').2.scans from rfl, logged',
        show w'.scans = w.scans ++ scans from logged, List.append_assoc]
    · obtain ⟨rfl, hy⟩ := ok' y hy
      exact ⟨rfl, hy⟩

theorem imp (h : Sifts vs w post p) (hp : ∀ w', post w' → post' w') : Sifts vs w post' p := by
  obtain ⟨stays, done, scans, logged, sifted, upto, ok⟩ := h
  exact ⟨stays, done, scans, logged, sifted, upto, fun x hx => (ok x hx).imp_right (hp _)⟩

/-- The second computation may go through no occurrences. -/
theorem andThenNone {k : α → Bench S F → Except Fault β × Bench S F} (h : Sifts vs w post p)
    (hk : ∀ x w', post w' → Sifts [] w' post' (k x w')) :
    Sifts vs w post' (Translation.andThen p k) :=
  List.append_nil vs ▸ h.andThen hk

/-- What only records goes through no occurrences. -/
theorem of_records {d : Direct S F α} (records : Records d) (keeps : Keeps d) (w : Bench S F) :
    Sifts [] w (fun w' => w'.tables = w.tables) (eval d w) := by
  obtain ⟨memo, notes, ran⟩ := records w
  refine ⟨keeps w, [], [], ?_, .nil, List.nil_prefix, fun _ _ => ⟨rfl, ?_⟩⟩ <;> rw [ran]
  exact (List.append_nil _).symm

end Sifts

/-- What is recalled is remembered. -/
theorem remembers_recall {key : String} {d : Direct S F F} {w : Bench S F} {x : F}
    (h : (eval (Direct.recall key d) w).1 = .ok x) :
    Remembers (eval (Direct.recall key d) w).2.memo key x := by
  unfold Direct.recall at h ⊢
  simp only [eval_bind, eval_get, andThen_ok] at h ⊢
  cases known : Assoc.find? (key == ·) w.memo with
  | some y =>
    rw [known] at h
    obtain rfl := Except.ok.inj h
    exact known
  | none =>
    rw [known] at h
    simp only [eval_bind] at h ⊢
    rcases heval : eval d w with ⟨_ | y, v⟩ <;> rw [heval] at h
    · cases h
    · obtain rfl := Except.ok.inj h
      exact remembers_put v.memo key _

theorem remembered_option {b : Backend S F} {c : Option Feature} {w : Bench S F} {y : Option F}
    (h : (eval (directOption b c) w).1 = .ok y) :
    Remembered (eval (directOption b c) w).2.memo c.toList y.toList := by
  cases c with
  | none =>
    obtain rfl := Except.ok.inj h
    exact .nil
  | some f =>
    simp only [directOption, eval_bind] at h ⊢
    have recalled := @remembers_recall _ _ f.key (directFeature b f) w
    rcases heval : eval (Direct.recall f.key (directFeature b f)) w with ⟨_ | x, v⟩ <;>
      rw [heval] at h recalled
    · cases h
    · obtain rfl := Except.ok.inj h
      exact .cons (recalled rfl) .nil

/-- The factors that a scope has registered for a table make up the predicate of its scan. -/
theorem sifted_of_filtered {v : Occurrence} {w : Bench S F} (h : w.tables.Filtered v.filters)
    {m : List (String × F)} {scan : Scan S F}
    (hscan : Remembered m (w.tables.reading v.table).predicate.toList scan.predicate.toList) :
    Sifted m v scan := by
  refine ⟨(w.tables.reading v.table).factors.toList, h.sound v.table, fun p hp q hq => ?_, hscan⟩
  exact (h.proper v.table).hasKey.1 (h.whole v.table p hp q hq)

section

variable (b : Backend S F) {w : Bench S F} {filters : List Feature}

theorem features_sift (fs : List Feature) (w : Bench S F) :
    Sifts [] w (fun w' => w'.tables = w.tables) (eval (directFeatures b fs) w) :=
  .of_records (directFeatures_records b fs) (directFeatures_keeps b fs) w

theorem option_sifts (c : Option Feature) (w : Bench S F) :
    Sifts [] w (fun w' => w'.tables = w.tables) (eval (directOption b c) w) :=
  .of_records (directOption_records b c) (directOption_keeps b c) w

theorem terms_sift (os : List OrderTerm) (w : Bench S F) :
    Sifts [] w (fun w' => w'.tables = w.tables) (eval (directTerms b os) w) :=
  .of_records (directTerms_records b os) (directTerms_keeps b os) w

theorem replaced_sifts (s : Source) (x : S) (w : Bench S F) :
    Sifts [] w (fun w' => w'.tables = w.tables) (eval (directReplacedSource b s x) w) :=
  .of_records (.replacedSource b s x) (.replacedSource b s x) w

/-- The scan of a table has the predicate that is registered when the table is met. -/
theorem table_sifts (t : Schema) (around : Option String) (before scope : List Feature)
    (h : w.tables.Filtered filters) :
    Sifts [⟨⟨t, before, scope⟩, around, filters⟩] w (fun w' => w'.tables.Filtered filters)
      (eval (directTable b t) w) := by
  simp only [directTable, eval_bind]
  cases b.table t (b.sources.get? (.table t)) with
  | error e =>
    exact ⟨.refl w, [], [], (List.append_nil _).symm, .nil, List.nil_prefix, fun _ refused => by
      cases refused⟩
  | ok origin =>
    let w₁ : Bench S F :=
      { w with origins := w.origins.set (.table t) origin, tables := w.tables.touch t }
    show Sifts ([] ++ [⟨⟨t, before, scope⟩, around, filters⟩]) w₁
      (fun w' => w'.tables.Filtered filters)
      (andThen (eval (directFeatures b (w₁.tables.reading t).fields) w₁) fun xs w₂ =>
        andThen (eval (directOption b (w₁.tables.reading t).predicate) w₂) fun y w₃ =>
          (.ok (b.scan origin xs y), { w₃ with scans := w₃.scans ++ [⟨origin, xs, y⟩] }))
    refine (features_sift b _ w₁).andThen fun xs w₂ same => ?_
    have begun : w₂.tables.Filtered filters := same ▸ h.touch t
    rw [show (w₁.tables.reading t).predicate = (w₂.tables.reading t).predicate by rw [same]]
    obtain ⟨memo, notes, ran⟩ := directOption_records b (w₂.tables.reading t).predicate w₂
    have stays := directOption_keeps b (w₂.tables.reading t).predicate w₂
    have remembered := @remembered_option _ _ b (w₂.tables.reading t).predicate w₂
    rcases heval : eval (directOption b (w₂.tables.reading t).predicate) w₂ with ⟨e | y, w₃⟩ <;>
      rw [heval] at ran stays remembered <;> obtain rfl : w₃ = _ := ran
    · exact ⟨stays, [], [], (List.append_nil _).symm, .nil, List.nil_prefix, fun _ refused => by
        cases refused⟩
    · have sifted : Sifted memo ⟨⟨t, before, scope⟩, around, filters⟩ ⟨origin, xs, y⟩ :=
        sifted_of_filtered begun (remembered rfl)
      exact ⟨stays, [_], [_], rfl, .cons sifted .nil, List.prefix_rfl, fun _ _ => ⟨rfl, begun⟩⟩

/-- A scope of its own leaves the scope around as it is. -/
theorem scope_sifts {d : Direct S F α} {vs : List Occurrence}
    (inner : Sifts vs w.inner (fun _ => True) (eval d w.inner)) :
    Sifts vs w (fun w' => w'.tables = w.tables) (eval d.scope w) := by
  obtain ⟨stays, done, scans, logged, sifted, upto, ok⟩ := inner
  exact ⟨stays, done, scans, logged, sifted, upto, fun x hx => ⟨(ok x hx).1, rfl⟩⟩

/-- The scans of a statement have the predicates that are registered in its scope, if those of its
source have. -/
theorem query_sifts {s : Source} {sel : List Feature} {pre : Option Feature} {grp : List Feature}
    {post : Option Feature} {ord : List OrderTerm} {rows : Option RowRange}
    (inner : ∀ {w : Bench S F} (before scope : List Feature), w.tables.Filtered pre.toList →
      Sifts (s.occurrencesIn none before pre.toList scope) w
        (fun w' => w'.tables.Filtered (pre.toList ++ s.conditions)) (eval (directSource b s) w)) :
    Sifts (Source.query s sel pre grp post ord rows).occurrences w (fun w' => w'.tables = w.tables)
      (eval (directSource b (.query s sel pre grp post ord rows)) w) := by
  have begun : Readings.Filtered (registerClauses (Source.query s sel pre grp post ord rows).features
      pre grp post ord .empty) pre.toList := .registerClauses _ pre grp post ord
  simp only [directSource, eval_bind]
  refine (scope_sifts ?_).andThenNone fun x w₁ same =>
    (replaced_sifts b _ x w₁).imp fun _ h => h.trans same
  simp only [eval_bind, Direct.modifyTables, eval_modify, andThen_ok]
  exact (inner (w := { w.inner with tables := _ }) _ _ begun).andThenNone fun x w₁ _ =>
    (features_sift b _ w₁).andThen fun xs w₂ _ =>
    (option_sifts b pre w₂).andThen fun y w₃ _ =>
    (features_sift b grp w₃).andThen fun ys w₄ _ =>
    (option_sifts b post w₄).andThen fun z w₅ _ =>
    (terms_sift b ord w₅).andThen fun zs w₆ _ =>
    (Sifts.of_records (.pure _) (.pure _) w₆).imp fun _ _ => trivial

/-- **The scans of a source have the predicates that are registered when their tables are met.** -/
theorem source_sifts : ∀ (s : Source) (around : Option String) {w : Bench S F}
    {filters : List Feature} (before scope : List Feature), w.tables.Filtered filters →
    Sifts (s.occurrencesIn around before filters scope) w
      (fun w' => w'.tables.Filtered (filters ++ s.conditions)) (eval (directSource b s) w)
  | .table t, around, w, filters, before, scope, h => by
    simp only [directSource, Source.conditions, List.append_nil]
    exact table_sifts b t around before scope h
  | .reference s n, around, w, filters, before, scope, h => by
    rw [directSource, eval_bind]
    exact (source_sifts s (some n) before scope h).andThenNone fun x w₁ h₁ =>
      ⟨.of_memo rfl, [], [], (List.append_nil _).symm, .nil, List.nil_prefix, fun _ _ => ⟨rfl, h₁⟩⟩
  | .join l r k c, around, w, filters, before, scope, h => by
    rw [eval_directSource_join]
    simp only [eval_bind]
    have served := (source_sifts l none (w := { w with tables := _ }) (before ++ c.toList) scope
      (h.filterBy c)).andThen fun x w₁ h₁ =>
      (source_sifts r none (before ++ c.toList ++ l.conditions) scope h₁).andThenNone fun y w₂ h₂ =>
      (option_sifts b c w₂).andThen fun z w₃ h₃ =>
      (replaced_sifts b (.join l r k c) (b.join x y z k) w₃).imp fun w' h₄ => (h₄.trans h₃) ▸ h₂
    have conditions : filters ++ (Source.join l r k c).conditions
        = filters ++ c.toList ++ l.conditions ++ r.conditions := by
      simp only [Source.conditions, List.append_assoc]
    rw [conditions]
    exact served
  | .set l r k, around, w, filters, before, scope, h => by
    simp only [directSource, eval_bind]
    have served := (source_sifts l none before scope h).andThen fun x w₁ h₁ =>
      (source_sifts r none (before ++ l.conditions) scope h₁).andThenNone fun y w₂ h₂ =>
      (replaced_sifts b (.set l r k) (b.set x y k) w₂).imp fun w' h₃ => h₃ ▸ h₂
    rw [show filters ++ (Source.set l r k).conditions = filters ++ l.conditions ++ r.conditions from
      (List.append_assoc _ _ _).symm]
    exact served
  | .query s sel pre grp post ord rows, around, w, filters, before, scope, h => by
    simp only [Source.conditions, List.append_nil]
    exact (query_sifts b (source_sifts s none)).imp fun w' same => same ▸ h

end

/-! ### What scans are handed -/

/-- A scan is handed all fields that its scope reads through an occurrence of its table, and no
predicate but about this occurrence. -/
structure Served (b : Backend S F) (m : List (String × F)) (v : Occurrence) (scan : Scan S F) :
    Prop where
  fields    : ∀ f ∈ v.scope, ∀ n k, v.ReadBy n k f →
    ∃ x ∈ scan.fields, plainFeature b.hooks (.element (.table v.table) n k) = .ok x
  predicate : ∃ qs : List Feature, (∀ q ∈ qs, ∃ n k, v.ReadBy n k q) ∧
    Remembered m (anyOf qs).toList scan.predicate.toList

/-- For the scans of a statement, in turn, something holds of what is remembered in the end, of the
occurrence of the table and of the scan, up to the fault in which the translation may end. -/
def Asked (R : List (String × F) → Occurrence → Scan S F → Prop) (q : Source)
    (run : Except Fault (Option (Symbol S F)) × Translator S F) : Prop :=
  ∃ done, List.Forall₂ (R run.2.state.memo) done run.2.state.scans ∧ done <+: q.occurrences ∧
    ∀ x, run.1 = .ok x → done = q.occurrences

/-- The scans of a statement under references are handed all that is read through the references, and
no predicates about other occurrences alone. -/
def ReferencesServed (b : Backend S F) (q : Source)
    (run : Except Fault (Option (Symbol S F)) × Translator S F) : Prop :=
  Asked (fun m v scan => v.reference.isSome = true → Served b m v scan) q run

/-- What is known at the sites of scans and at their occurrences is known together. -/
theorem forall₂_occurrences {q : Source} {P : Site → Scan S F → Prop}
    {R : Occurrence → Scan S F → Prop} {sites : List Site} {done : List Occurrence}
    {scans : List (Scan S F)} (handed : List.Forall₂ P sites scans) (reached : sites <+: q.sites)
    (sifted : List.Forall₂ R done scans) (upto : done <+: q.occurrences) :
    List.Forall₂ (fun v scan => P v.toSite scan ∧ R v scan) done scans := by
  have within : done.map Occurrence.toSite <+: q.sites := by
    rw [← q.map_occurrences]
    exact upto.map Occurrence.toSite
  have length : sites.length = (done.map Occurrence.toSite).length := by
    rw [List.length_map, handed.length_eq, sifted.length_eq]
  obtain rfl : sites = done.map Occurrence.toSite :=
    (List.prefix_of_prefix_length_le reached within length.le).eq_of_length length
  have handed := List.forall₂_map_left_iff.1 handed
  refine List.forall₂_iff_get.2 ⟨sifted.length_eq, fun i hi hj => ?_⟩
  exact ⟨handed.get hi hj, sifted.get hi hj⟩

theorem Asked.imp {R R' : List (String × F) → Occurrence → Scan S F → Prop} {q : Source}
    {run : Except Fault (Option (Symbol S F)) × Translator S F} (h : Asked R q run)
    (hR : ∀ v ∈ q.occurrences, ∀ m scan, R m v scan → R' m v scan) : Asked R' q run := by
  obtain ⟨done, asked, upto, ok⟩ := h
  have inside := (List.forall₂_and_left _ _).2 ⟨fun v hv => upto.subset hv, asked⟩
  exact ⟨done, inside.imp fun v scan h => hR v h.1 _ scan h.2, upto, ok⟩

/-- What holds of the scan at a position. -/
theorem Asked.get {R : List (String × F) → Occurrence → Scan S F → Prop} {q : Source}
    {run : Except Fault (Option (Symbol S F)) × Translator S F} (h : Asked R q run) {i : Nat}
    {v : Occurrence} {scan : Scan S F} (met : q.occurrences[i]? = some v)
    (asked : run.2.state.scans[i]? = some scan) : R run.2.state.memo v scan := by
  obtain ⟨done, all, ⟨later, split⟩, -⟩ := h
  obtain ⟨within, rfl⟩ := List.getElem?_eq_some_iff.1 asked
  have reached : i < done.length := all.length_eq ▸ within
  rw [← split, List.getElem?_append_left reached, List.getElem?_eq_getElem reached] at met
  obtain rfl := Option.some.inj met
  exact all.get reached within

/-- The memo and the scans of a translator behind a whole translation of a source. -/
theorem Translator.reached_source {t : Translator S F} (clean : t.state.Clean) (s : Source) :
    ∃ notes, (t.serve (.finish (.source s))).2.state.bench
      = { (eval (directSource t.backend s) t.cleared.state.bench).2 with notes := notes } := by
  obtain ⟨notes, finished⟩ := eval_directFinish_source t.backend s t.cleared.state.bench
  exact ⟨notes, by rw [t.serve_finish clean, finished]; rfl⟩

section

variable {γ : Type} {view : Schema → γ} {looks : String → γ} {b : Backend S F}
  (sees : b.hooks.Sees view)
include sees

/-- Where what is read through an occurrence is read from the table itself as well, the scan is served
with that. -/
theorem served_of_doubled {v : Occurrence} {m : List (String × F)} {scan : Scan S F}
    (table : (Source.table v.table).Obeys (Rules.distinct.and (.seen view looks)))
    (known : ∀ f ∈ v.before, f.Obeys (Rules.distinct.and (.seen view looks)))
    (handed : Handed b v.table v.before scan) (sifted : Sifted m v scan) (doubled : v.Doubled) :
    Served b m v scan := by
  have distinct : ∀ {f : Feature}, f.Obeys (Rules.distinct.and (.seen view looks)) →
      f.Obeys .distinct := fun h => Feature.Obeys.mono (Rules.and_left _ _) _ h
  have columns_obey : ∀ c ∈ columnsOf v.before, c.table?.isSome = true ∧
      c.Obeys (Rules.distinct.and (.seen view looks)) := by
    intro c hc
    obtain ⟨f, hf, hcf⟩ := mem_columnsOf.1 hc
    exact ⟨(Feature.mem_columns.1 hcf).2, (known f hf).columns c hcf⟩
  obtain ⟨columns, inside, whole, -, symbols⟩ := handed.fields
  obtain ⟨qs, sound, -, remembered⟩ := sifted
  refine ⟨fun f hf n k read => ?_, qs, fun q hq => ?_, remembered⟩
  · have own : (Feature.element (.table v.table) n k).Obeys (Rules.distinct.and (.seen view looks)) :=
      ⟨⟨trivial, trivial⟩, table⟩
    obtain ⟨c, hc, key⟩ := doubled.fields f hf n k read
    have belongs : c.tableKey? = some v.table.key :=
      Feature.tableKey?_eq_of_key (distinct (columns_obey c hc).2) (distinct own) key
    obtain ⟨d, hd, same⟩ := whole c hc belongs
    obtain ⟨x, hx, symbol⟩ : ∃ x ∈ scan.fields, plainFeature b.hooks d = .ok x := by
      obtain ⟨i, within, rfl⟩ := List.getElem_of_mem hd
      have reached : i < scan.fields.length := symbols.length_eq ▸ within
      exact ⟨scan.fields[i], List.getElem_mem reached, symbols.get within reached⟩
    obtain ⟨column, obeys⟩ := columns_obey d (inside d hd).1
    obtain ⟨u, l, j, rfl, -⟩ := column_cases obeys column
    exact ⟨x, hx, (plain_column sees own obeys (same.trans key).symm).trans symbol⟩
  · obtain ⟨p, hp, factor⟩ := sound q hq
    exact doubled.factors p hp q factor

/-- A translator that has worked before knows the symbols of the columns that it remembers. -/
theorem handing_after {history : List Tree}
    (known : ∀ tree ∈ history, tree.Built ∧ tree.Obeys (Rules.structFree.and (.seen view looks))) :
    ((Translator.ofBackend b).after history).backend = b ∧
      ((Translator.ofBackend b).after history).state.Clean ∧
      (handing b view looks).Holds ((Translator.ofBackend b).after history).cleared.state.bench := by
  have tidy : ∀ tree ∈ history, tree.Obeys (handing b view looks).rules := fun tree htree =>
    (known tree htree).1.obeys (Rules.structFree_and_ensures _) (known tree htree).2
  have fresh : (handing b view looks).Holds (Translator.ofBackend b).state.bench :=
    ⟨nofun, nofun, Readings.All.empty⟩
  obtain ⟨backend, clean, holds⟩ :=
    (handing_lawful sees).after_holds tidy rfl State.clean_fresh fresh
  exact ⟨backend, clean, holds.memo, holds.origins, holds.tables⟩

/-- **Scans are handed the columns and the predicates of their tables**, whatever the references around
them, by a translator that has worked before. So a scan under a reference is handed all that is read
through the reference, and no predicate about another occurrence of the table alone, where all that is
read through the reference is read from the table itself as well, and the filters that speak of the
table speak of the reference. -/
theorem references_served {history : List Tree}
    (known : ∀ tree ∈ history, tree.Built ∧ tree.Obeys (Rules.structFree.and (.seen view looks)))
    {s : Source} {sel : List Feature} {pre : Option Feature} {grp : List Feature}
    {post : Option Feature} {ord : List OrderTerm} {rows : Option RowRange}
    (built : (Source.query s sel pre grp post ord rows).Built)
    (obeys : (Source.query s sel pre grp post ord rows).Obeys
      (Rules.structFree.and (.seen view looks))) :
    Asked (fun m v scan => Handed b v.table v.before scan ∧ Sifted m v scan ∧
        (v.Doubled → Served b m v scan))
      (.query s sel pre grp post ord rows) (((Translator.ofBackend b).after history).serve
        (.finish (.source (.query s sel pre grp post ord rows)))) := by
  obtain ⟨backend, clean, begun⟩ := handing_after sees known
  have hq := Source.Built.obeys (Rules.structFree_and_ensures _) _ built obeys
  obtain ⟨sites, scans, logged, handed, sitesUpto, -⟩ :=
    query_serves sees hq (fun scope h => source_serves sees hq.2.1 scope h) begun
  have sifts : Sifts (Source.query s sel pre grp post ord rows).occurrences _ _
      (eval (directSource b (.query s sel pre grp post ord rows))
        ((Translator.ofBackend b).after history).cleared.state.bench) :=
    query_sifts b (source_sifts b s none)
  obtain ⟨-, done, scans', logged', sifted, upto, ok⟩ := sifts
  obtain rfl : scans = scans' := logged.symm.trans logged'
  obtain ⟨given, -⟩ := Translator.served_source clean (.query s sel pre grp post ord rows)
  obtain ⟨notes, reached⟩ := Translator.reached_source clean (.query s sel pre grp post ord rows)
  rw [backend] at given reached
  have memo := congrArg Bench.memo reached
  have asked : (((Translator.ofBackend b).after history).serve (.finish (.source
      (.query s sel pre grp post ord rows)))).2.state.scans = scans :=
    (congrArg Bench.scans reached).trans logged
  refine ⟨done, ?_, upto, fun x hx => ?_⟩
  · rw [asked]
    have obeyed : ∀ site ∈ (Source.query s sel pre grp post ord rows).sites, _ :=
      Source.Obeys.sitesIn (seen_offered view looks) hq []
        (show ∀ f ∈ ([] : List Feature), _ from nofun)
    have both := forall₂_occurrences handed sitesUpto sifted upto
    have inside := (List.forall₂_and_left _ _).2 ⟨fun v hv => upto.subset hv, both⟩
    refine inside.imp fun v scan ⟨hv, handed, sifted⟩ => ?_
    have sifted : Sifted _ v scan := memo ▸ sifted
    obtain ⟨table, before⟩ := obeyed v.toSite
      ((Source.query s sel pre grp post ord rows).map_occurrences ▸ List.mem_map_of_mem hv)
    exact ⟨handed, sifted, served_of_doubled sees table before handed sifted⟩
  · obtain ⟨y, hy, -⟩ := map_eq_ok.1 (given.symm.trans hx)
    exact (ok y hy).1

end

/-- The scans of a statement: their origins, fields and predicates. -/
def scansAsked (q : Source) : List (String × List String × Option String) :=
  ((Translator.ofBackend spelling).serve (.finish (.source q))).2.state.scans.map
    fun scan => (scan.origin, scan.fields, scan.predicate)

/-! ### Students and their peers -/

namespace Students

/-- The table of students, under a reference. -/
def peer : Source := .reference student "peer"

def peerSurname : Feature := .element peer "surname" (.primitive .string)

def peerAttended : Feature := .element peer "school" (.primitive .integer)

/-- Students with their peers. -/
def pairs : Source := .join student peer .cross none

theorem peer_built : peer.Built := student_built.ref "peer"

theorem peerSurname_built : peerSurname.Built :=
  .element peer_built (show peer.get "surname" = .ok _ from rfl)

/-- Peers are called like schools. -/
def called : Feature := .expression .eq [peerSurname, title "school"] none

theorem pairs_built : pairs.Built :=
  .joined (c := none) (k := none) student_built peer_built nofun rfl

/-- Where only the surnames of peers are read, and those of students as well. -/
theorem peers_doubled {v : Occurrence} (source : v.source = peer) (table : .table v.table = student)
    (before : surname ∈ v.before) (scope : ∀ f ∈ v.scope, f ∈ [peerSurname, surname, called])
    (filters : ∀ p ∈ v.filters, p = called) : v.Doubled where
  fields f hf n k inside := by
    have elements : ∀ f ∈ [peerSurname, surname, called], ∀ e ∈ f.elements,
        e ∈ [peerSurname, surname, title "school"] := by
      simp [peerSurname, surname, called, title, Feature.elements, elementsOf]
    have element : Feature.element peer n k ∈ [peerSurname, surname, title "school"] :=
      elements f (scope f hf) _ (source ▸ inside)
    obtain ⟨rfl, rfl⟩ : n = "surname" ∧ k = .primitive .string := by
      simpa [peerSurname, surname, title, peer, student, school] using element
    refine ⟨surname, mem_columnsOf.2 ⟨surname, before, List.mem_singleton_self _⟩, ?_⟩
    rw [table]
    rfl
  factors p hp q hq := by
    obtain rfl := filters p hp
    rw [Source.table.inj table] at hq
    exact absurd (Option.isSome_of_eq_some hq) (by decide +kernel)

end Students

open Students in
/-- Students with their peers who are called like a school: the surnames of both are read. -/
theorem references_served_of_peers :
    let both : Source := .join pairs (school "school") .inner (some called)
    let q : Source := .query both [peerSurname, surname] none [] none [] none
    q.Built ∧ scansAsked q = [("student", ["student.surname"], none),
      ("student", ["student.surname"], none),
      ("school", ["school.name"], some "eq peer.surname school.name")] ∧
    ReferencesServed spelling q ((Translator.ofBackend spelling).serve (.finish (.source q))) := by
  intro both q
  have hboth : both.Built := pairs_built.joining (.of_distinct rfl)
    (equal_built peerSurname_built (title_built _) rfl) rfl rfl
    (by decide +kernel) (by decide +kernel)
  have built : q.Built := hboth.selecting (by simpa using ⟨peerSurname_built, surname_built⟩)
    (by decide +kernel)
  have sees : spelling.hooks.Sees Schema.name :=
    Backend.sees_names (fun t u x h => congrArg Except.ok h) fun x t u n h => rfl
  let looks (k : String) : String :=
    if k = Schema.key ⟨"student", [("surname", ⟨.primitive .string, "surname"⟩),
      ("school", ⟨.primitive .integer, "school"⟩)]⟩ then "student" else "school"
  let rules := Rules.structFree.and (.seen Schema.name looks)
  have ostudent : student.Obeys rules := ⟨structFree_table rfl, (if_pos rfl).symm⟩
  have oschool : (school "school").Obeys rules :=
    ⟨structFree_table rfl, (if_neg (by decide +kernel)).symm⟩
  have opeer : peer.Obeys rules := ⟨⟨trivial, trivial⟩, ostudent⟩
  have element : ∀ {s : Source} (n : String) (k : Kind), s.Obeys rules →
      (Feature.element s n k).Obeys rules := fun _ _ hs => ⟨⟨trivial, trivial⟩, hs⟩
  have obeys : q.Obeys rules := ⟨⟨trivial, trivial⟩, ⟨⟨trivial, trivial⟩,
    ⟨⟨trivial, trivial⟩, ostudent, opeer, trivial⟩, oschool,
    ⟨⟨nofun, trivial⟩, element _ _ opeer, element _ _ oschool, trivial⟩⟩,
    ⟨element _ _ opeer, element _ _ ostudent, trivial⟩, trivial, trivial, trivial, trivial⟩
  have fresh : ∀ tree ∈ ([] : List Tree), tree.Built ∧ tree.Obeys rules := nofun
  refine ⟨built, by decide +kernel, ?_⟩
  refine (references_served sees fresh built obeys).imp fun v hv m scan h under => h.2.2 ?_
  rcases List.mem_cons.1 hv with rfl | hv
  · cases under
  rcases List.mem_cons.1 hv with rfl | hv
  · refine peers_doubled rfl rfl ?_ ?_ ?_
    · show surname ∈ [peerSurname, surname, peerSurname, surname, called]
      simp
    · show ∀ f ∈ [peerSurname, surname, peerSurname, surname, called], _
      simp
    · show ∀ f ∈ [called], _
      simp
  · obtain rfl := List.mem_singleton.1 hv
    cases under

open Students in
/-- **A scan under a reference is handed what belongs to another occurrence of the table**: the school
of peers is read, but their scan is handed the surname and the predicate about students. -/
theorem reference_unserved :
    let smith : Feature := .expression .eq [surname, .literal (.text "Smith") (.primitive .string)] none
    let both : Source := .join pairs (school "school") .inner (some smith)
    let q : Source := .query both [peerAttended] none [] none [] none
    q.Built ∧ scansAsked q = [("student", ["student.surname"], some "eq student.surname literal"),
      ("student", ["student.surname"], some "eq student.surname literal"), ("school", [], none)] ∧
    ¬ReferencesServed spelling q ((Translator.ofBackend spelling).serve (.finish (.source q))) := by
  intro smith both q
  have literal : (Feature.literal (.text "Smith") (.primitive .string)).Built :=
    .literal (show Feature.literalOf (.text "Smith") none = _ from rfl)
  have hboth : both.Built := pairs_built.joining (.of_distinct rfl)
    (equal_built surname_built literal rfl) rfl rfl (by decide +kernel) (by decide +kernel)
  have attended_built : peerAttended.Built :=
    .element peer_built (show peer.get "school" = .ok _ from rfl)
  have recorded : scansAsked q = [("student", ["student.surname"], some "eq student.surname literal"),
      ("student", ["student.surname"], some "eq student.surname literal"), ("school", [], none)] := by
    decide +kernel
  refine ⟨hboth.selecting (by simpa using attended_built) (by decide +kernel), recorded, fun h => ?_⟩
  obtain ⟨scan, asked, handed⟩ := Option.map_eq_some_iff.1
    ((List.getElem?_map ..).symm.trans (congrArg (·[1]?) recorded))
  have served := h.get (i := 1) rfl asked rfl
  obtain ⟨x, hx, symbol⟩ := served.fields peerAttended (by exact List.mem_cons_self) "school"
    (.primitive .integer) (List.mem_singleton_self _)
  rw [(Prod.mk.inj (Prod.mk.inj handed).2).1, List.mem_singleton] at hx
  subst hx
  exact absurd (Except.ok.inj symbol) (by decide +kernel)

end Translation

end QueryAlgebra
