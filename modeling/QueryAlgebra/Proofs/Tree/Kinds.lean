import QueryAlgebra.Proofs.Tree.Elements
import Mathlib.Data.List.Nodup

/-!
# Kinds told by keys

The key of an element leaves out its kind, and that of a table the attributes its fields were declared
with. Where the keys of elements tell their kinds all the same, the key of any feature tells its kind.

* `Rules.told`: the kinds of elements are told by their keys.
* `Feature.kind_eq_of_elements`, `Feature.kind_eq_of_canonical`: features that a key cannot tell apart
  have one kind.
* `Feature.TableColumn.kind_eq`: keys tell the kinds of columns of tables, also behind references.
* `Rules.told_of_beyond`: so it is only beyond tables that keys may fail to tell the kinds of elements.
-/

namespace QueryAlgebra

/-- The kinds of elements are told by their keys. -/
def Rules.told (kinds : String → Kind) : Rules where
  feature
    | .element s n k => k = kinds (Feature.element s n k).key
    | _              => True
  source
    | .table t       => ∀ c ∈ t.fields, (t.resolve c).kind
      = kinds (Feature.element (.table t) (t.resolve c).name (t.resolve c).kind).key
    | .reference s n => ∀ c ∈ s.fields, (s.resolve c).kind
      = kinds (Feature.element (.reference s n) (s.resolve c).name (s.resolve c).kind).key
    | _              => True

/-- The kinds of a table whose fields are all of one primitive kind. -/
theorem told_table {t : Schema} {p : Primitive}
    (h : (t.fields.all fun c => (t.resolve c).kind.primitive? == some p) = true) :
    (Source.table t).Obeys (.told fun _ => .primitive p) := by
  intro c hc
  have kind := beq_iff_eq.1 (List.all_eq_true.1 h c hc)
  unfold Kind.primitive? at kind
  split at kind
  · rename_i hp
    rw [hp, Option.some.inj kind]
  · cases kind

/-- Names of which none is repeated are distinct, also from those that were seen. -/
theorem Kind.nodup_of_firstRepeated {names : List String} :
    ∀ {seen : List String}, Kind.firstRepeated seen names = none →
      names.Nodup ∧ ∀ n ∈ names, n ∉ seen := by
  induction names with
  | nil => exact fun _ => ⟨.nil, nofun⟩
  | cons n r ih =>
    intro seen h
    unfold Kind.firstRepeated at h
    split at h
    · cases h
    · rename_i new
      obtain ⟨distinct, apart⟩ := ih h
      refine ⟨List.nodup_cons.2 ⟨fun hn => apart n hn List.mem_cons_self, distinct⟩,
        List.forall_mem_cons.2 ⟨by simpa using new, fun m hm hseen => ?_⟩⟩
      exact apart m hm (List.mem_cons_of_mem _ hseen)

namespace Feature

mutual

/-- Features that a key cannot tell apart have one kind where elements inside them do. -/
theorem kind_eq_of_elements : ∀ {f g : Feature},
    (∀ d ∈ f.elements, ∀ e ∈ g.elements, d.key = e.key → d.kind = e.kind) →
      f.canonical = g.canonical → f.kind = g.kind
  | .aliased f n, g, agree, same => by
    cases g with
    | aliased g m =>
      show f.kind = g.kind
      exact kind_eq_of_elements agree (Feature.aliased.inj same).1
    | _ => simp [canonical] at same
  | .literal v k, g, _, same => by
    cases g with
    | literal w l => exact (Feature.literal.inj same).2
    | _ => simp [canonical] at same
  | .element s n k, g, agree, same => by
    have key : (Feature.element s n k).key = g.key := by
      rw [← key_canonical, same, key_canonical]
    cases g with
    | element u m l => exact agree _ (List.mem_singleton_self _) _ (List.mem_singleton_self _) key
    | _ => simp [canonical] at same
  | .expression op args t, g, agree, same => by
    cases g with
    | expression op' args' t' =>
      obtain ⟨rfl, args, rfl⟩ := Feature.expression.inj same
      simp only [kind, kinds_eq_of_elements agree args]
    | _ => simp [canonical] at same
  | .window fn ps os fr, g, agree, same => by
    cases g with
    | window gn qs us fr' =>
      show fn.kind = gn.kind
      -- The kind of a window is that of its function, whose elements come first.
      refine kind_eq_of_elements (fun d hd e he => agree d ?_ e ?_) (Feature.window.inj same).1
      · exact List.mem_append_left _ (List.mem_append_left _ hd)
      · exact List.mem_append_left _ (List.mem_append_left _ he)
    | _ => simp [canonical] at same

theorem kinds_eq_of_elements : ∀ {fs gs : List Feature},
    (∀ d ∈ elementsOf fs, ∀ e ∈ elementsOf gs, d.key = e.key → d.kind = e.kind) →
      canonicalFeatures fs = canonicalFeatures gs → Feature.kinds fs = Feature.kinds gs
  | [], [], _, _ => rfl
  | [], _ :: _, _, same => nomatch same
  | _ :: _, [], _, same => nomatch same
  | f :: r, g :: q, agree, same => by
    obtain ⟨first, rest⟩ := List.cons.inj same
    have head := kind_eq_of_elements (fun d hd e he =>
      agree d (List.mem_append_left _ hd) e (List.mem_append_left _ he)) first
    have tail := kinds_eq_of_elements (fun d hd e he =>
      agree d (List.mem_append_right _ hd) e (List.mem_append_right _ he)) rest
    simp only [Feature.kinds, head, tail]

end

theorem Obeys.kind_of_element {kinds : String → Kind} {f : Feature} (h : f.Obeys (.told kinds)) :
    ∀ e ∈ f.elements, e.kind = kinds e.key := by
  intro e he
  have element := isElement_of_mem_elements f he
  cases e with
  | element s n k => exact (h.elements _ he).1
  | _ => cases element

/-- **Features that a key cannot tell apart have one kind** where keys tell the kinds of elements. -/
theorem kind_eq_of_canonical {kinds : String → Kind} {f g : Feature} (hf : f.Obeys (.told kinds))
    (hg : g.Obeys (.told kinds)) (same : f.canonical = g.canonical) : f.kind = g.kind := by
  refine kind_eq_of_elements (fun d hd e he key => ?_) same
  rw [hf.kind_of_element d hd, hg.kind_of_element e he, key]

/-- The kind of an element is that of a field of its source with its name. -/
theorem Built.field_of_element {s : Source} {n : String} {k : Kind}
    (h : (Feature.element s n k).Built) : ⟨k, n⟩ ∈ s.fields := by
  obtain ⟨-, reference, found⟩ := h.inv_element
  have found : s.schema.get? reference = some ⟨k, n⟩ := by
    unfold Schema.get at found
    split at found
    · rename_i g hg
      rw [hg, Except.ok.inj found]
    · cases found
  rw [← s.schema_fields]
  -- It is the last field that was declared under the reference, or else the one of that name.
  rcases Option.or_eq_some_iff.1 found with declared | ⟨-, called⟩
  · obtain ⟨e, he, field⟩ := Option.map_eq_some_iff.1 declared
    rw [← field]
    exact List.mem_map_of_mem (List.mem_reverse.1 (List.mem_of_find?_eq_some he))
  · exact List.mem_of_find?_eq_some called

end Feature

/-! ### Columns of tables -/

/-- The source is a table, or a reference to one. -/
def Source.OverTable (s : Source) : Prop := ∃ t, s.unwrapped = .table t

/-- What a key cannot tell from such a source is one too, with the same fields. -/
theorem Source.OverTable.fields_eq {s u : Source} (tabular : s.OverTable)
    (same : s.canonical = u.canonical) : u.OverTable ∧ s.fields = u.fields := by
  have tables : ∀ t : Schema, ∀ v : Source, (Source.table t).canonical = v.canonical →
      ∃ w, v = .table w ∧ t.fields = w.fields := by
    intro t v same
    cases v with
    | table w => exact ⟨w, rfl, by rw [← t.fields_canonical, Source.table.inj same, w.fields_canonical]⟩
    | _ => simp [canonical] at same
  obtain ⟨t, ht⟩ := tabular
  cases s with
  | table t' =>
    obtain ⟨w, rfl, fields⟩ := tables t' u same
    exact ⟨⟨w, rfl⟩, fields⟩
  | reference s n =>
    obtain rfl : s = .table t := ht
    cases u with
    | reference v m =>
      obtain ⟨w, rfl, fields⟩ := tables t v (Source.reference.inj same).1
      exact ⟨⟨w, rfl⟩, fields⟩
    | _ => simp [canonical] at same
  | _ => cases ht

/-- The fields of such a source have distinct names. -/
theorem Source.OverTable.names_nodup {s : Source} (tabular : s.OverTable) (built : s.Built) :
    (s.fields.map NamedField.name).Nodup := by
  have table : ∀ t : Schema, (Source.table t).Built → (t.fields.map NamedField.name).Nodup := by
    intro t ht
    simpa [Schema.fields, Function.comp_def] using (Kind.nodup_of_firstRepeated ht.inv_table).1
  obtain ⟨t, ht⟩ := tabular
  cases s with
  | table t => exact table t built
  | reference s n =>
    obtain rfl : s = .table t := ht
    exact table t built.inv_reference.1
  | _ => cases ht

/-- The elements that it offers are built. -/
theorem Source.OverTable.offered_built {s : Source} (tabular : s.OverTable) (built : s.Built)
    {c : NamedField} (hc : c ∈ s.fields) :
    (Feature.element s (s.resolve c).name (s.resolve c).kind).Built := by
  obtain ⟨t, ht⟩ := tabular
  have schema : s.schema = t ∧ s.resolve c = t.resolve c := by
    cases s with
    | reference s n =>
      obtain rfl : s = .table t := ht
      exact ⟨rfl, rfl⟩
    | table t' =>
      obtain rfl := Source.table.inj ht
      exact ⟨rfl, rfl⟩
    | _ => cases ht
  have mem : c ∈ t.fields := by rwa [← schema.1, s.schema_fields]
  -- Under the name of a field there is at least the field itself.
  obtain ⟨d, hd⟩ : ∃ d, t.get? c.name = some d := by
    have called : (t.called? c.name).isSome = true :=
      List.find?_isSome.2 ⟨c, mem, beq_iff_eq.2 rfl⟩
    refine Option.isSome_iff_exists.1 ?_
    rw [Schema.get?, Option.isSome_or, called, Bool.or_true]
  refine .element built (show s.get c.name = .ok _ from ?_)
  rw [Source.get, schema.1, schema.2, Schema.get, Schema.resolve, hd]
  rfl

namespace Feature

/-- Elements of tables that have one key have one name, and the tables have the same fields. -/
theorem fields_eq_of_key {t u : Schema} {n m : String} {k l : Kind}
    (df : (Feature.element (.table t) n k).Obeys .distinct)
    (dg : (Feature.element (.table u) m l).Obeys .distinct)
    (h : (Feature.element (.table t) n k).key = (Feature.element (.table u) m l).key) :
    t.fields = u.fields ∧ n = m := by
  obtain ⟨tables, names, -⟩ := Feature.element.inj (canonical_eq_of_key df dg h)
  exact ⟨(Source.OverTable.fields_eq ⟨t, rfl⟩ tables).2, names⟩

/-- The element is a column of a table, be it read through a reference, and has no structs inside. -/
structure TableColumn (s : Source) (n : String) (k : Kind) : Prop where
  tabular  : s.OverTable
  built    : (Feature.element s n k).Built
  distinct : (Feature.element s n k).Obeys .distinct

/-- **Keys tell the kinds of columns of tables.** -/
theorem TableColumn.kind_eq {s u : Source} {n m : String} {k l : Kind} (hf : TableColumn s n k)
    (hg : TableColumn u m l) (h : (Feature.element s n k).key = (Feature.element u m l).key) : k = l := by
  obtain ⟨same, rfl, -⟩ := Feature.element.inj (canonical_eq_of_key hf.distinct hg.distinct h)
  have own : (⟨k, n⟩ : NamedField) ∈ u.fields :=
    (hf.tabular.fields_eq same).2 ▸ hf.built.field_of_element
  exact congrArg NamedField.kind (List.inj_on_of_nodup_map
    (hg.tabular.names_nodup hg.built.inv_element.1) own hg.built.field_of_element rfl)

/-- No column of a table has the key of an element of anything else. -/
theorem TableColumn.key_ne {s u : Source} {n m : String} {k l : Kind} (hf : TableColumn s n k)
    (distinct : (Feature.element u m l).Obeys .distinct) (far : ¬u.OverTable) :
    (Feature.element s n k).key ≠ (Feature.element u m l).key := fun same =>
  far (hf.tabular.fields_eq
    (Feature.element.inj (canonical_eq_of_key hf.distinct distinct same)).1).1

/-- The kinds under all keys: those of the columns of tables, and any others under other keys. -/
theorem exists_kinds (kinds : String → Kind) : ∃ all : String → Kind,
    (∀ s n k, TableColumn s n k → k = all (Feature.element s n k).key) ∧
      ∀ key, (∀ s n k, TableColumn s n k → (Feature.element s n k).key ≠ key) → all key = kinds key := by
  have pick : ∀ key, ∃ k, (∀ s n l, TableColumn s n l → (Feature.element s n l).key = key → l = k) ∧
      ((∀ s n l, TableColumn s n l → (Feature.element s n l).key ≠ key) → k = kinds key) := by
    intro key
    by_cases h : ∃ s n l, TableColumn s n l ∧ (Feature.element s n l).key = key
    · obtain ⟨s, n, k, hk, rfl⟩ := h
      exact ⟨k, fun u m l hl same => hl.kind_eq hk same, fun none => absurd rfl (none s n k hk)⟩
    · exact ⟨kinds key, fun s n l hl same => absurd ⟨s, n, l, hl, same⟩ h, fun _ => rfl⟩
  choose all column other using pick
  exact ⟨all, fun s n k h => column _ s n k h rfl, other⟩

end Feature

/-! ### Kinds of all elements -/

/-- The kinds of elements are told by their keys, but for columns of tables. -/
def Rules.toldBeyondTables (kinds : String → Kind) : Rules where
  feature
    | .element s n k => s.OverTable ∨ k = kinds (Feature.element s n k).key
    | _              => True
  source
    | .reference s n => (Source.reference s n).OverTable ∨ ∀ c ∈ s.fields, (s.resolve c).kind
      = kinds (Feature.element (.reference s n) (s.resolve c).name (s.resolve c).kind).key
    | _              => True

/-- **In built trees keys tell the kinds of all elements if they tell those beyond tables.** -/
theorem Rules.told_of_beyond (kinds : String → Kind) : ∃ all : String → Kind,
    (Rules.structFree.and (.toldBeyondTables kinds)).Ensures (Rules.distinct.and (.told all)) := by
  obtain ⟨all, column, other⟩ := Feature.exists_kinds kinds
  have free : ∀ {f : Feature}, f.Built → f.Obeys (structFree.and (.toldBeyondTables kinds)) →
      f.Obeys .distinct := fun hb h => hb.distinct (Feature.Obeys.mono (and_left _ _) _ h)
  have beyond : ∀ {s n k}, ¬s.OverTable → (Feature.element s n k).Obeys .distinct →
      k = kinds (Feature.element s n k).key → k = all (Feature.element s n k).key :=
    fun far distinct told => told.trans (other _ fun _ _ _ h => h.key_ne distinct far).symm
  refine ⟨all, fun f hb h => ⟨h.own.1, ?_⟩,
    fun s hb h => ⟨((structFree_and_ensures _).source s hb h).1, ?_⟩⟩
  · cases f with
    | element s n k =>
      by_cases tabular : s.OverTable
      · exact column s n k ⟨tabular, hb, free hb h⟩
      · exact beyond tabular (free hb h) (h.own.2.resolve_left tabular)
    | _ => trivial
  · have inner : s.Obeys .distinct := hb.distinct (Source.Obeys.mono (and_left _ _) _ h)
    have offered : s.OverTable → ∀ c ∈ s.fields, (s.resolve c).kind
        = all (Feature.element s (s.resolve c).name (s.resolve c).kind).key := fun tabular c hc =>
      column s _ _ ⟨tabular, tabular.offered_built hb hc, trivial, inner⟩
    cases s with
    | table t => exact offered ⟨t, rfl⟩
    | reference s n =>
      by_cases tabular : (Source.reference s n).OverTable
      · obtain ⟨t, rfl : s = .table t⟩ := tabular
        exact offered ⟨t, rfl⟩
      · exact fun c hc => beyond tabular ⟨trivial, inner⟩ (h.own.2.resolve_left tabular c hc)
    | _ => trivial

end QueryAlgebra
