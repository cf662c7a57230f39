import QueryAlgebra.Proofs.Tree.Elements

/-!
# Which sources elements belong to

Features flow upwards: a join offers those of both sides, a set operation those of its left side, and
a statement what it selects. What a node reads is checked against what its operands offer, and keys
of elements tell their origins, so that nothing but tables and references is ever read from.

* `Source.bases`: the tables and references of a source, down to references.
* `Feature.ReadsFrom`: every element inside a feature belongs to one of them.
* `Feature.Within.readsFrom`: what stays within features reads from where they read from.
* `Source.Closed`, `Source.Built.closed`: what a node offers and what it reads.
* `elements_closed`: all nodes inside a built source are closed.
* `element_escapes`: names in structs can make a constructor miss an element.
-/

namespace QueryAlgebra

namespace Source

/-- Whether elements may belong to the source: it is a table or a reference. -/
def IsBase : Source → Prop
  | .table _      => True
  | .reference .. => True
  | _             => False

/-- The tables and references of a source that are not under another reference. -/
def bases : Source → List Source
  | .table t       => [.table t]
  | .reference s n => [.reference s n]
  | .join l r _ _  => l.bases ++ r.bases
  | .set l r _     => l.bases ++ r.bases
  | .query s ..    => s.bases

/-- The sources that a source is made of. -/
def operands : Source → List Source
  | .table _       => []
  | .reference s _ => [s]
  | .join l r _ _  => [l, r]
  | .set l r _     => [l, r]
  | .query s ..    => [s]

/-- The features that a node speaks of itself: the condition of a join, the clauses of a
statement. -/
def spoken : Source → List Feature
  | .join _ _ _ c                    => c.toList
  | .query _ sel pre grp post ord _ =>
    sel ++ pre.toList ++ grp ++ post.toList ++ ord.map OrderTerm.feature
  | _                                => []

/-- The source is the other one or stands anywhere inside it, be it under references. -/
inductive Inside (t : Source) : Source → Prop where
  | whole : Inside t t
  | under {s o : Source} (operand : o ∈ s.operands) (inside : Inside t o) : Inside t s

end Source

/-- Every element inside the feature belongs to a table or a reference, which has the key of one of
the given sources. -/
def Feature.ReadsFrom (f : Feature) (bases : List Source) : Prop :=
  ∀ s n k, .element s n k ∈ f.elements → s.IsBase ∧ ∃ b ∈ bases, b.key = s.key

namespace Feature

theorem ReadsFrom.mono {f : Feature} {bs cs : List Source} (h : f.ReadsFrom bs)
    (sub : ∀ b ∈ bs, b ∈ cs) : f.ReadsFrom cs := fun s n k he => by
  obtain ⟨base, b, hb, key⟩ := h s n k he
  exact ⟨base, b, sub b hb, key⟩

/-- The origins of elements with one key have one key, and are bases if one of them is. -/
theorem origin_of_key {s t : Source} {n m : String} {k l : Kind}
    (hs : (Feature.element s n k).Obeys .distinct) (ht : (Feature.element t m l).Obeys .distinct)
    (h : (Feature.element s n k).key = (Feature.element t m l).key) :
    s.key = t.key ∧ (s.IsBase → t.IsBase) := by
  have same : s.canonical = t.canonical := (Feature.element.inj (canonical_eq_of_key hs ht h)).1
  refine ⟨by rw [← s.key_canonical, same, t.key_canonical], fun base => ?_⟩
  -- What a key keeps of a source is of the same sort.
  cases s with
  | table => cases t <;> trivial
  | reference => cases t <;> trivial
  | _ => exact base.elim

/-- **What stays within features reads from where they read from.** -/
theorem Within.readsFrom {f : Feature} {gs : List Feature} {bases : List Source}
    (h : f.Within (elementsIn gs)) (hf : f.Obeys .distinct) (hgs : ∀ g ∈ gs, g.Obeys .distinct)
    (reads : ∀ g ∈ gs, g.ReadsFrom bases) : f.ReadsFrom bases := by
  intro s n k he
  obtain ⟨g, hg, known⟩ := h.elementKeys hf hgs _ (List.mem_map_of_mem he)
  obtain ⟨d, hd, same⟩ := List.mem_map.1 known
  have element := Feature.isElement_of_mem_elements g hd
  cases d with
  | element t m l =>
    obtain ⟨base, b, hb, key⟩ := reads g hg t m l hd
    obtain ⟨origin, passes⟩ := origin_of_key ((hgs g hg).elements _ hd) (hf.elements _ he) same
    exact ⟨passes base, b, hb, key.trans origin⟩
  | _ => cases element

end Feature

namespace Source

/-- A source whose features read from its own bases, and whose clauses or condition read from those
of its operands. -/
structure Closed (s : Source) : Prop where
  offers : ∀ f ∈ s.features, f.ReadsFrom s.bases
  speaks : ∀ f ∈ s.spoken, f.ReadsFrom (s.operands.flatMap bases)

/-- **What a source offers** reads from its bases. -/
theorem Built.offers : ∀ {s : Source}, s.Built → s.Obeys .distinct →
    ∀ f ∈ s.features, f.ReadsFrom s.bases
  | .table t, _, _, f, hf => by
    obtain ⟨c, -, rfl⟩ := List.mem_map.1 hf
    intro s n k he
    obtain ⟨rfl, -, -⟩ := Feature.element.inj (List.mem_singleton.1 he)
    exact ⟨trivial, _, List.mem_singleton_self _, rfl⟩
  | .reference w m, _, _, f, hf => by
    obtain ⟨c, -, rfl⟩ := List.mem_map.1 hf
    intro s n k he
    obtain ⟨rfl, -, -⟩ := Feature.element.inj (List.mem_singleton.1 he)
    exact ⟨trivial, _, List.mem_singleton_self _, rfl⟩
  | .join l r _ _, hb, hs, f, hf => by
    obtain ⟨hl, hr, -⟩ := hb.inv_join
    rcases List.mem_append.1 hf with hf | hf
    · exact (Built.offers hl hs.2.1 f hf).mono fun b hb => List.mem_append_left _ hb
    · exact (Built.offers hr hs.2.2.1 f hf).mono fun b hb => List.mem_append_right _ hb
  | .set l r _, hb, hs, f, hf =>
    (Built.offers hb.inv_set.1 hs.2.1 f hf).mono fun b hb => List.mem_append_left _ hb
  | .query s sel _ _ _ _ _, hb, hs, f, hf => by
    have statement := hb.inv_query
    have offered := Built.offers statement.source hs.2.1
    show f.ReadsFrom s.bases
    simp only [features] at hf
    split at hf
    · exact offered f hf
    · exact (statement.selection f hf).2.readsFrom (hs.statement.selection f hf)
        (Obeys.features Rules.distinct_offered s hs.2.1) offered

/-- What a join or a statement speaks of reads from the bases of its operands. -/
theorem Built.speaks {s : Source} (hb : s.Built) (hs : s.Obeys .distinct) :
    ∀ f ∈ s.spoken, f.ReadsFrom (s.operands.flatMap bases) := by
  intro f hf
  cases s with
  | join l r k c =>
    obtain ⟨hl, hr, -, hc⟩ := hb.inv_join
    have hp : f ∈ c := by simpa [spoken] using hf
    -- The condition is checked against what the join offers, which reads from both sides.
    have offered := Built.offers hb hs
    have features := Obeys.features Rules.distinct_offered _ hs
    have reads := (hc f hp).within.readsFrom (optionObeys_iff.1 hs.2.2.2 f hp) features offered
    simpa [operands, bases] using reads
  | query s sel pre grp post ord rows =>
    have checked := hb.inv_query
    have distinct := hs.statement
    have stays : f.Within (elementsIn s.features) ∧ f.Obeys .distinct := by
      simp only [spoken, List.mem_append, Option.mem_toList, List.mem_map] at hf
      rcases hf with (((hf | hf) | hf) | hf) | ⟨o, ho, rfl⟩
      · exact ⟨(checked.selection f hf).2, distinct.selection f hf⟩
      · exact ⟨(checked.prefilter f hf).within, distinct.prefilter f hf⟩
      · exact ⟨(checked.grouping f hf).2.2.2, distinct.grouping f hf⟩
      · exact ⟨(checked.postfilter f hf).within, distinct.postfilter f hf⟩
      · exact ⟨(checked.ordering o ho).2, distinct.ordering o ho⟩
    have reads := stays.1.readsFrom stays.2 (Obeys.features Rules.distinct_offered s hs.2.1)
      (Built.offers checked.source hs.2.1)
    simpa [operands] using reads
  | _ => cases hf

theorem Built.closed {s : Source} (hb : s.Built) (hs : s.Obeys .distinct) : s.Closed :=
  ⟨hb.offers hs, hb.speaks hs⟩

/-- The operands of a built source are built, and keep the rules that it keeps. -/
theorem Built.operand {p : Rules} {s o : Source} (ho : o ∈ s.operands) (hb : s.Built)
    (hs : s.Obeys p) : o.Built ∧ o.Obeys p := by
  cases s with
  | table t => cases ho
  | reference w n =>
    obtain rfl := List.mem_singleton.1 ho
    exact ⟨hb.inv_reference.1, hs.2⟩
  | join l r k c =>
    rcases List.mem_pair.1 ho with rfl | rfl
    · exact ⟨hb.inv_join.1, hs.2.1⟩
    · exact ⟨hb.inv_join.2.1, hs.2.2.1⟩
  | set l r k =>
    rcases List.mem_pair.1 ho with rfl | rfl
    · exact ⟨hb.inv_set.1, hs.2.1⟩
    · exact ⟨hb.inv_set.2.1, hs.2.2⟩
  | query w sel pre grp post ord rows =>
    obtain rfl := List.mem_singleton.1 ho
    exact ⟨hb.inv_query.source, hs.2.1⟩

end Source

/-- **All nodes inside a built source are closed**: elements anywhere in its features, in clauses and
in conditions belong to tables and references of the operands of their node, none under another
reference. -/
theorem elements_closed {s : Source} (built : s.Built) (free : s.Obeys .structFree) :
    ∀ t : Source, t.Inside s → t.Closed := by
  intro t inside
  induction inside with
  | whole => exact built.closed (built.distinct free)
  | under operand _ ih =>
    obtain ⟨hb, hs⟩ := built.operand operand free
    exact ih hb hs

/-- A statement over a join of a table with a reference to another one. -/
theorem elements_closed_of_reference :
    let student : Source := .table ⟨"student", [("school", ⟨.primitive .integer, "school"⟩)]⟩
    let other : Source := .reference (.table ⟨"school", [("id", ⟨.primitive .integer, "id"⟩)]⟩) "s"
    let condition : Feature := .expression .eq [.element student "school" (.primitive .integer),
      .element other "id" (.primitive .integer)] none
    let all : Source := .query (.join student other .inner (some condition))
      [.element other "id" (.primitive .integer)] none [] none [] none
    all.Built ∧ all.Obeys .structFree ∧ ∀ t : Source, t.Inside all → t.Closed := by
  intro student other condition all
  have hstudent : student.Built := .of_distinct rfl
  have hother : other.Built := .ref "s" (.of_distinct rfl)
  have hid : (Feature.element other "id" (.primitive .integer)).Built :=
    .element hother (show other.get "id" = .ok _ from rfl)
  have hcondition : condition.Built :=
    built_pair (.element hstudent (show student.get "school" = .ok _ from rfl)) hid rfl
  have built : all.Built :=
    (hstudent.joining hother hcondition rfl rfl (by decide +kernel) (by decide +kernel)).selecting
      (by simpa using hid) (by decide +kernel)
  have fields : student.Obeys .structFree := structFree_table rfl
  have others : other.Obeys .structFree := ⟨trivial, structFree_table rfl⟩
  have free : all.Obeys .structFree := ⟨trivial, ⟨trivial, fields, others, nofun, ⟨trivial, fields⟩,
    ⟨trivial, others⟩, trivial⟩, ⟨⟨trivial, others⟩, trivial⟩, trivial, trivial, trivial, trivial⟩
  exact ⟨built, free, elements_closed built free⟩

/-- Names of fields stand in the keys of structs as they are, so that the key of a conjunction can be
spelled by another one. Here the second operand of the selected feature hides an element of a foreign
table in the first one from the check. -/
theorem element_escapes :
    let emp : Source := .table ⟨"emp", [("id", ⟨.primitive .integer, "id"⟩)]⟩
    let school : Source := .table ⟨"school", [("name", ⟨.primitive .string, "name"⟩)]⟩
    let id : Feature := .element emp "id" (.primitive .integer)
    let name : Feature := .element school "name" (.primitive .string)
    let struct (n : String) : Option Kind := some (.struct [(n, .primitive .integer)])
    let foreign : Feature := .expression .and [.expression .isNull [id] (struct "Y"),
      .expression .isNull [name] (struct ("v:Integer>,notNull(" ++ id.key ++ "):Struct<U"))] none
    let own : Feature := .expression .and
      [.expression .isNull [id] (struct ("Y:Integer>,isNull(" ++ name.key ++ "):Struct<v")),
        .expression .notNull [id] (struct "U")] none
    let both : Feature := .expression .eq [foreign, own] none
    let all : Source := .query emp [both] none [] none [] none
    all.Built ∧ both ∈ all.features ∧ name ∈ both.elements ∧ ¬both.ReadsFrom all.bases := by
  intro emp school id name struct foreign own both all
  have table : emp.Built := .of_distinct rfl
  have hid : id.Built := .element table (show emp.get "id" = .ok _ from rfl)
  have hname : name.Built :=
    .element (s := school) (.of_distinct rfl) (show school.get "name" = .ok _ from rfl)
  have test : ∀ {op : Operator} {f : Feature} {t : Option Kind}, f.Built →
      Feature.expr op [.feature f] t = .ok (.expression op [f] t) →
        (Feature.expression op [f] t).Built := fun hf h =>
    .expression (fun o ho => List.mem_singleton.1 ho ▸ .feature hf) h
  have pair : ∀ {op : Operator} {f g : Feature}, f.Built → g.Built →
      Feature.expr op [.feature f, .feature g] none = .ok (.expression op [f, g] none) →
        (Feature.expression op [f, g] none).Built := fun hf hg h =>
    .expression (fun o ho => by
      rcases List.mem_pair.1 ho with rfl | rfl
      · exact .feature hf
      · exact .feature hg) h
  have hforeign : foreign.Built := pair (test hid rfl) (test hname rfl) rfl
  have hown : own.Built := pair (test hid rfl) (test hid rfl) rfl
  have built : all.Built := table.selecting (by simpa using pair hforeign hown rfl) (by decide +kernel)
  have inside : name ∈ both.elements := by
    simp [both, foreign, own, Feature.elements, elementsOf, name]
  refine ⟨built, List.mem_singleton_self _, inside, fun reads => ?_⟩
  obtain ⟨-, b, hb, key⟩ := reads school "name" (.primitive .string) inside
  obtain rfl := List.mem_singleton.1 hb
  exact absurd key (by decide +kernel)

end QueryAlgebra
