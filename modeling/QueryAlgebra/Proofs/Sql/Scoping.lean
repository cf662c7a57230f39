import QueryAlgebra.Proofs.Sql.Labels
import QueryAlgebra.Proofs.Sql.Likeness

/-!
# Scopes of statements

A column stands behind the name of its table or reference. The source of a statement exposes the
names in its join tree; what stands in a nested statement is exposed only under a reference. Features
of nested statements are offered as they are, however, so that clauses can speak of what is not
exposed.

* `Source.exposed`, `Source.buried`: the names that a source exposes, and those in nested statements.
* `Source.handles_of_features`: elements that a source offers go by one of these names.
* `Scoped`: a text with the names before dots in all clauses of all statements in it.
* `compiled_scoped`: texts of sources are scoped.
* `Resolves.exposed`: where nothing is buried, all names before dots are exposed.
-/

namespace QueryAlgebra

/-! ### Names in sources -/

/-- The names of tables and references in the join tree of a source. -/
def Source.exposed : Source → List String
  | .table t       => [t.name]
  | .reference _ n => [n]
  | .join l r _ _  => l.exposed ++ r.exposed
  | _              => []

/-- The names in statements inside of a source that are not under a reference. -/
def Source.buried : Source → List String
  | .join l r _ _ => l.buried ++ r.buried
  | .set l r _    => l.buried ++ r.buried
  | .query s ..   => s.exposed ++ s.buried
  | _             => []

/-- The names in a source that is not under a reference. -/
def Source.origins (s : Source) : List String := s.exposed ++ s.buried

theorem Source.mem_origins_join {l r : Source} {k : JoinType} {c : Option Feature} {q : String} :
    q ∈ (join l r k c).origins ↔ q ∈ l.origins ∨ q ∈ r.origins := by
  simp only [origins, exposed, buried, List.mem_append]
  tauto

section

variable {names : String → String}

/-- The elements inside a feature that stays within others go by names of elements inside those. -/
theorem Feature.Within.handles {f : Feature} {gs : List Feature} (h : f.Within (elementsIn gs))
    (hf : f.Obeys .distinct) (hgs : ∀ g ∈ gs, g.Obeys .distinct) (af : f.Obeys (.namedApart names))
    (ags : ∀ g ∈ gs, g.Obeys (.namedApart names)) : ∀ q ∈ f.handles, ∃ g ∈ gs, q ∈ g.handles := by
  intro q hq
  obtain ⟨e, he, rfl⟩ := List.mem_map.1 hq
  obtain ⟨g, hg, known⟩ := h.elementKeys hf hgs e.key (List.mem_map_of_mem he)
  obtain ⟨d, hd, same⟩ := List.mem_map.1 known
  have handles := Feature.handle_eq_of_key ((hgs g hg).elements d hd) (hf.elements e he)
    ((ags g hg).elements d hd) (af.elements e he) same
  exact ⟨g, hg, handles ▸ List.mem_map_of_mem hd⟩

/-- What stays within what a source offers goes by names in the source, if all that does. -/
theorem Feature.Within.origins {f : Feature} {s : Source} (h : f.Within (elementsIn s.features))
    (offered : ∀ g ∈ s.features, ∀ q ∈ g.handles, q ∈ s.origins) (hs : s.Obeys .distinct)
    (as : s.Obeys (.namedApart names)) (hf : f.Obeys .distinct) (af : f.Obeys (.namedApart names)) :
    ∀ q ∈ f.handles, q ∈ s.origins := by
  intro q hq
  obtain ⟨g, hg, known⟩ := h.handles hf (Source.Obeys.features Rules.distinct_offered s hs) af
    (Source.Obeys.features (Rules.namedApart_offered names) s as) q hq
  exact offered g hg q known

/-- **What a source offers** goes by names in the source. -/
theorem Source.handles_of_features : ∀ {s : Source}, s.Built → s.Obeys .distinct →
    s.Obeys (.namedApart names) → ∀ f ∈ s.features, ∀ q ∈ f.handles, q ∈ s.origins
  | .table t, _, _, _, f, hf, q, hq => by
    obtain ⟨c, -, rfl⟩ := List.mem_map.1 hf
    simpa [Feature.handles, Feature.elements, Feature.handle, handle, origins, exposed, buried]
      using hq
  | .reference s n, _, _, _, f, hf, q, hq => by
    obtain ⟨c, -, rfl⟩ := List.mem_map.1 hf
    simpa [Feature.handles, Feature.elements, Feature.handle, handle, origins, exposed, buried]
      using hq
  | .join l r _ _, hb, hs, as, f, hf, q, hq => by
    obtain ⟨hl, hr, -⟩ := hb.inv_join
    rcases List.mem_append.1 hf with hf | hf
    · exact mem_origins_join.2 (.inl (handles_of_features hl hs.2.1 as.2.1 f hf q hq))
    · exact mem_origins_join.2 (.inr (handles_of_features hr hs.2.2.1 as.2.2.1 f hf q hq))
  | .set l r _, hb, hs, as, f, hf, q, hq => by
    have inner := handles_of_features hb.inv_set.1 hs.2.1 as.2.1 f hf q hq
    have statement := hb.inv_set_queries.1
    have none : l.exposed = [] := by
      cases l with
      | query => rfl
      | _ => simp [type] at statement
    simp_all [origins, exposed, buried]
  | .query s sel _ _ _ _ _, hb, hs, as, f, hf, q, hq => by
    have statement := hb.inv_query
    have offered := handles_of_features statement.source hs.2.1 as.2.1
    show q ∈ s.origins
    simp only [features] at hf
    split at hf
    · exact offered f hf q hq
    · exact (statement.selection f hf).2.origins offered hs.2.1 as.2.1
        (featuresObey_iff.1 hs.2.2.1 f hf) (featuresObey_iff.1 as.2.2.1 f hf) q hq

end

namespace Sql

open Translation

/-! ### Names in texts -/

/-- The names before dots in the text of a feature are those that its elements go by, each of them
exposed by the source or buried in it. -/
def Resolves (s : Source) (f : Feature) (text : String) : Prop :=
  ∃ ls, lexemes text = some ls ∧ qualifiers ls = f.handles ∧
    ∀ q ∈ qualifiers ls, q ∈ s.exposed ∨ q ∈ s.buried

/-- **Where nothing is buried**, all names before dots are exposed. -/
theorem Resolves.exposed {s : Source} {f : Feature} {text : String} (h : Resolves s f text)
    (none : s.buried = []) : ∃ ls, lexemes text = some ls ∧ ∀ q ∈ qualifiers ls, q ∈ s.exposed := by
  obtain ⟨ls, read, -, known⟩ := h
  exact ⟨ls, read, fun q hq => (known q hq).resolve_right (by simp [none])⟩

/-- The text is written for the source, with clauses that resolve in the source of their own
statement, and conditions that resolve in their own join. -/
inductive Scoped (d : Dialect) : Source → String → Prop
  | table (t : Schema) : Scoped d (.table t) (d.quoted t.name)
  | reference {s : Source} {u : String} (n : String) (inner : Scoped d s u) :
    Scoped d (.reference s n) (d.operand u ++ " AS " ++ d.quoted n)
  | join {l r : Source} {u v : String} {k : JoinType} {c : Option Feature} {w : Option String}
    (left : Scoped d l u) (right : Scoped d r v)
    (condition : List.Forall₂ (Resolves (.join l r k c)) c.toList w.toList) :
    Scoped d (.join l r k c) (d.joinText u v w k)
  | set {l r : Source} {u v : String} (k : SetOp) (left : Scoped d l u) (right : Scoped d r v) :
    Scoped d (.set l r k) (Dialect.setText u v k)
  | query {s : Source} {u : String} {sel : List Feature} {pre : Option Feature}
    {grp : List Feature} {post : Option Feature} {ord : List OrderTerm} {rows : Option RowRange}
    {features grouping : List String} {filter having : Option String}
    {ordering : List (OrderSymbol String)} (source : Scoped d s u)
    (selected : List.Forall₂ (Resolves s) (Source.query s sel pre grp post ord rows).features features)
    (filtered : List.Forall₂ (Resolves s) pre.toList filter.toList)
    (grouped : List.Forall₂ (Resolves s) grp grouping)
    (kept : List.Forall₂ (Resolves s) post.toList having.toList)
    (ordered : List.Forall₂ (fun o y => Resolves s o.feature y.1 ∧ y.2 = o.direction) ord ordering) :
    Scoped d (.query s sel pre grp post ord rows)
      (Dialect.queryText u features filter grouping having ordering rows)

section

variable {d : Dialect} (hd : d.quote = '"') {names : String → String}
include hd

/-- The text of a skeleton resolves like the feature whose shape it has. -/
theorem resolves_of_shape {s : Source} {f x : Feature} (written : x.Obeys .written)
    (apart : f.Obeys (.namedApart names)) (known : ∀ q ∈ f.handles, q ∈ s.origins)
    (same : f.shape (fun t _ => t.handleBy names) = x.ownShape) :
    Resolves s f (d.spellFeature x) := by
  have handles : x.handles = f.handles := by
    rw [← @Feature.handles_shape (fun t _ => t.handle) x fun _ _ _ _ => rfl,
      show x.shape _ = _ from same.symm]
    exact Feature.handles_shape f fun t n k he => (apart.elements _ he).2.handle_eq.symm
  -- A skeleton is written like itself, which tells the names before dots in its text.
  obtain ⟨ls, -, scans, -, -, qualified, -⟩ := Dialect.alike_feature hd x x written written rfl
  refine ⟨ls, scans.lexemes, qualified.trans handles, fun q hq => ?_⟩
  exact List.mem_append.1 (known q (handles ▸ qualified ▸ hq))

theorem resolves_all {s : Source} {fs xs : List Feature} (written : ∀ x ∈ xs, x.Obeys .written)
    (apart : ∀ f ∈ fs, f.Obeys (.namedApart names)) (known : ∀ f ∈ fs, ∀ q ∈ f.handles, q ∈ s.origins)
    (same : fs.map (Feature.shape fun t _ => t.handleBy names) = xs.map Feature.ownShape) :
    List.Forall₂ (Resolves s) fs (xs.map d.spellFeature) :=
  List.forall₂_map_right_iff.2 (forall₂_of_map_eq same fun f hf x hx =>
    resolves_of_shape hd (written x hx) (apart f hf) (known f hf))

theorem resolves_option {s : Source} {o y : Option Feature} (written : ∀ x ∈ y, x.Obeys .written)
    (apart : ∀ f ∈ o, f.Obeys (.namedApart names)) (known : ∀ f ∈ o, ∀ q ∈ f.handles, q ∈ s.origins)
    (same : o.map (Feature.shape fun t _ => t.handleBy names) = y.map Feature.ownShape) :
    List.Forall₂ (Resolves s) o.toList (y.map d.spellFeature).toList := by
  rw [Option.toList_map]
  refine resolves_all hd (by simpa using written) (by simpa using apart) (by simpa using known) ?_
  rw [← Option.toList_map, ← Option.toList_map, same]

theorem resolves_terms {s : Source} {os us : List OrderTerm}
    (written : ∀ u ∈ us, u.feature.Obeys .written)
    (apart : ∀ o ∈ os, o.feature.Obeys (.namedApart names))
    (known : ∀ o ∈ os, ∀ q ∈ o.feature.handles, q ∈ s.origins)
    (same : os.map (OrderTerm.shape fun t _ => t.handleBy names)
      = us.map (OrderTerm.shape fun t _ => t.handle)) :
    List.Forall₂ (fun o y => Resolves s o.feature y.1 ∧ y.2 = o.direction) os
      (us.map fun o => (d.spellFeature o.feature, o.direction)) := by
  refine List.forall₂_map_right_iff.2 (forall₂_of_map_eq same fun o ho u hu shapes => ?_)
  have resolves := resolves_of_shape hd (s := s) (f := o.feature) (x := u.feature) (written u hu)
    (apart o ho) (known o ho)
  cases o with
  | «by» f k =>
    cases u with
    | «by» x k' =>
      obtain ⟨feature, rfl⟩ := OrderTerm.by.inj shapes
      exact ⟨resolves feature, rfl⟩

/-- The text of the skeleton of a statement is scoped, if that of its source is. -/
theorem scoped_query {s x : Source} {sel sel' : List Feature} {pre pre' : Option Feature}
    {grp grp' : List Feature} {post post' : Option Feature} {ord ord' : List OrderTerm}
    {rows rows' : Option RowRange} (hb : (Source.query s sel pre grp post ord rows).Built)
    (hs : (Source.query s sel pre grp post ord rows).Obeys .distinct)
    (as : (Source.query s sel pre grp post ord rows).Obeys (.namedApart names))
    (hx : (Source.query x sel' pre' grp' post' ord' rows').Obeys .written)
    (same : (Source.query s sel pre grp post ord rows).shape (fun t _ => t.handleBy names)
      Source.features = (Source.query x sel' pre' grp' post' ord' rows').ownShape)
    (inner : Scoped d s (d.spellSource x)) :
    Scoped d (.query s sel pre grp post ord rows)
      (d.spellSource (.query x sel' pre' grp' post' ord' rows')) := by
  obtain ⟨-, selection, filter, grouping, groupFilter, ordering, rfl⟩ := Source.query.inj same
  have statement := hb.inv_query
  have outputs := Source.Obeys.features (Rules.namedApart_offered names) _ as
  have outputsKnown := Source.handles_of_features hb hs as
  have distinct := hs.statement
  have apart := as.statement
  have written := hx.statement
  -- Whatever a clause speaks of is offered by the source.
  have known := fun {f : Feature} (within : f.Within (elementsIn s.features)) =>
    within.origins (Source.handles_of_features statement.source distinct.source apart.source)
      distinct.source apart.source
  rw [Dialect.spellSource_query]
  exact .query inner (resolves_all hd written.selection outputs outputsKnown selection)
    (resolves_option hd written.prefilter apart.prefilter (fun p hp => known (statement.prefilter p hp).within
      (distinct.prefilter p hp) (apart.prefilter p hp)) filter)
    (resolves_all hd written.grouping apart.grouping (fun f hf =>
      known (statement.grouping f hf).2.2.2 (distinct.grouping f hf) (apart.grouping f hf)) grouping)
    (resolves_option hd written.postfilter apart.postfilter (fun p hp =>
      known (statement.postfilter p hp).within (distinct.postfilter p hp) (apart.postfilter p hp))
      groupFilter)
    (resolves_terms hd written.ordering apart.ordering (fun o ho =>
      known (statement.ordering o ho).2 (distinct.ordering o ho) (apart.ordering o ho)) ordering)

/-- **Texts of skeletons are scoped** like the sources whose shapes they have. -/
theorem scoped_of_shape : ∀ {s x : Source}, s.Built → s.Obeys .distinct →
    s.Obeys (.namedApart names) → x.Obeys .written →
      s.shape (fun t _ => t.handleBy names) Source.features = x.ownShape → Scoped d s (d.spellSource x)
  | .table t, x, _, _, _, _, same => by
    cases x with
    | table t' =>
      have name : t.name = t'.name := congrArg Source.handle same
      show Scoped d _ (d.quoted t'.name)
      exact name ▸ .table t
    | _ => cases same
  | .reference s n, x, hb, hs, as, hx, same => by
    cases x with
    | reference x n' =>
      obtain ⟨inner, rfl⟩ := Source.reference.inj same
      exact .reference n (scoped_of_shape hb.inv_reference.1 hs.2 as.2 hx.2 inner)
    | _ => cases same
  | .join l r k c, x, hb, hs, as, hx, same => by
    cases x with
    | join x y k' c' =>
      obtain ⟨left, right, rfl, conditions⟩ := Source.join.inj same
      obtain ⟨hl, hr, -, hc⟩ := hb.inv_join
      rw [Dialect.spellSource_join]
      refine .join (scoped_of_shape hl hs.2.1 as.2.1 hx.2.1 left)
        (scoped_of_shape hr hs.2.2.1 as.2.2.1 hx.2.2.1 right)
        (resolves_option hd (optionObeys_iff.1 hx.2.2.2) (optionObeys_iff.1 as.2.2.2) (fun p hp => ?_)
          conditions)
      exact (hc p hp).within.origins (s := .join l r k c) (Source.handles_of_features hb hs as) hs as
        (optionObeys_iff.1 hs.2.2.2 p hp) (optionObeys_iff.1 as.2.2.2 p hp)
    | _ => cases same
  | .set l r k, x, hb, hs, as, hx, same => by
    cases x with
    | set x y k' =>
      obtain ⟨left, right, rfl⟩ := Source.set.inj same
      exact .set k (scoped_of_shape hb.inv_set.1 hs.2.1 as.2.1 hx.2.1 left)
        (scoped_of_shape hb.inv_set.2.1 hs.2.2 as.2.2 hx.2.2 right)
    | _ => cases same
  | .query s sel pre grp post ord rows, x, hb, hs, as, hx, same => by
    cases x with
    | query x sel' pre' grp' post' ord' rows' =>
      have source := (Source.query.inj same).1
      exact scoped_query hd hb hs as hx same
        (scoped_of_shape hb.inv_query.source hs.2.1 as.2.1 hx.2.1 source)
    | _ => cases same

/-- **Compiled texts are scoped**: before the dots in the clauses of a statement stand names that its
source exposes, or that are buried in a nested statement of the source. -/
theorem compiled_scoped {s : Source} (built : s.Built) (free : s.Obeys .structFree)
    (apart : s.Obeys (.namedApart names)) {text : String}
    (compiled : d.compiled s = .ok (some (.source text))) : Scoped d s text := by
  obtain ⟨x, hx, written, -, rfl⟩ := Dialect.compiled_spelling built compiled
  have distinct := built.distinct free
  exact scoped_of_shape hd built distinct apart written (ownShape_of_apart distinct apart hx).symm

end

/-- A column of a statement under a reference. -/
theorem compiled_scoped_of_reference :
    let student : Source := .table ⟨"student", [("surname", ⟨.primitive .string, "surname"⟩)]⟩
    let all : Source :=
      .query student [.element student "surname" (.primitive .string)] none [] none [] none
    let foo : Source := .reference all "foo"
    let outer : Source := .query foo [.element foo "surname" (.primitive .string)] none [] none [] none
    ∃ text, Dialect.standard.compiled outer = .ok (some (.source text)) ∧
      Scoped .standard outer text := by
  intro student all foo outer
  have table : student.Built := .of_distinct rfl
  have one : ∀ {s : Source} {f : Feature}, s.Built → f.Built → f.Within (elementsIn s.features) →
      (Source.query s [f] none [] none [] none).Built := fun hs hf within =>
    hs.selecting (by simpa using hf) (by simpa using within)
  have hall : all.Built := one table (.element table (show student.get "surname" = .ok _ from rfl))
    (by decide +kernel)
  have hfoo : foo.Built := .ref "foo" hall
  have built : outer.Built := one hfoo (.element hfoo (show foo.get "surname" = .ok _ from rfl))
    (by decide +kernel)
  have fields : student.Obeys .structFree := structFree_table rfl
  have free : all.Obeys .structFree := ⟨trivial, fields, ⟨⟨trivial, fields⟩, trivial⟩, trivial, trivial,
    trivial, trivial⟩
  have freeFoo : foo.Obeys .structFree := ⟨trivial, free⟩
  have apart : ∀ {s : Source}, s.Obeys (.namedApart fun _ => "student") →
      (Source.query s [.element s "surname" (.primitive .string)] none [] none [] none).Obeys
        (.namedApart fun _ => "student") := fun h =>
    ⟨trivial, h, ⟨⟨trivial, h⟩, trivial⟩, trivial, trivial, trivial, trivial⟩
  have compiled := eq_of_textOf (show textOf (Dialect.standard.compiled outer) = some
    "SELECT \"foo\".\"surname\" FROM (SELECT \"student\".\"surname\" FROM \"student\") AS \"foo\""
    by decide +kernel)
  exact ⟨_, compiled, compiled_scoped rfl built
    ⟨trivial, freeFoo, ⟨⟨trivial, freeFoo⟩, trivial⟩, trivial, trivial, trivial, trivial⟩
    (apart (s := foo) ⟨trivial, apart (s := student) rfl⟩) compiled⟩

/-- Around a statement that is under no reference, the name of its table stands before the dot, though
nothing is exposed. -/
theorem buried_name_before_dot :
    let student : Source := .table ⟨"student", [("surname", ⟨.primitive .string, "surname"⟩)]⟩
    let all : Source :=
      .query student [.element student "surname" (.primitive .string)] none [] none [] none
    let outer : Source := .query all [] none [] none [] none
    outer.Built ∧ all.exposed = [] ∧
      Dialect.standard.compiled outer = .ok (some (.source
        "SELECT \"student\".\"surname\" FROM (SELECT \"student\".\"surname\" FROM \"student\")")) ∧
      (lexemes "\"student\".\"surname\"").map qualifiers = some ["student"] := by
  intro student all outer
  have table : student.Built := .of_distinct rfl
  have surname : (Feature.element student "surname" (.primitive .string)).Within
      (elementsIn student.features) := by decide +kernel
  have hall : all.Built := table.selecting (by
    simpa using Feature.Built.element table (show student.get "surname" = .ok _ from rfl))
    (by simpa using surname)
  have built : outer.Built := hall.selecting nofun nofun
  exact ⟨built, rfl, eq_of_textOf (by decide +kernel), by decide +kernel⟩

end Sql

end QueryAlgebra
