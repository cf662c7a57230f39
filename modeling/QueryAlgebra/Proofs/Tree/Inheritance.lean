import QueryAlgebra.Proofs.Kind.Key
import QueryAlgebra.Proofs.Tree.FieldLookup
import QueryAlgebra.Proofs.Value.Mapping

/-!
# What a schema inherits

The entries of the bases are gone through one after the other, and then the declarations. The first loop
keeps the first entry of each attribute and compares the others with it; the second one replaces what is
there and appends what is new.

* `Schema.inherit_run`: the first loop, told by whether entries of one attribute have equal fields.
* `Assoc.keys_foldl_put`, `Assoc.mem_foldl_put`: the second loop, told by its keys and its entries.
* `Schema.Collides`: bases that contradict each other; `Schema.collides_iff_of_legible`: told by fields alone.
* `Schema.Inherits`: what the entries of a schema are, told by its declarations and its bases.
* `Schema.declare_inherits`: a declared schema has these entries, unless bases collide or names do.
-/

namespace QueryAlgebra

/-! ### Entries that are put one after the other -/

namespace Assoc

variable {β : Type}

/-- New keys go to the end, in the order in which they are put. -/
theorem keys_foldl_put : ∀ {es acc : List (String × β)}, (es.map (·.1)).Nodup →
    (es.foldl (fun acc e => put (· == ·) e.1 e.2 acc) acc).map (·.1)
      = acc.map (·.1) ++ (es.map (·.1)).filter (· ∉ acc.map (·.1))
  | [], acc, _ => by simp
  | e :: r, acc, distinct => by
    obtain ⟨new, distinct⟩ := List.nodup_cons.1 distinct
    rw [List.foldl_cons, keys_foldl_put distinct, KeyedMap.keys_put]
    split
    · rename_i known
      rw [List.map_cons, List.filter_cons_of_neg (by simpa using known)]
    · rename_i unknown
      rw [List.map_cons, List.filter_cons_of_pos (by simpa using unknown), List.append_assoc,
        List.singleton_append]
      congr 2
      refine List.filter_congr fun k hk => ?_
      have other : k ≠ e.1 := by
        rintro rfl
        exact new hk
      simp [other]

/-- What is put one after the other stands there, and all other keys keep what they have. -/
theorem mem_foldl_put {e : String × β} : ∀ {es acc : List (String × β)}, (es.map (·.1)).Nodup →
    (acc.map (·.1)).Nodup →
      (e ∈ es.foldl (fun acc e => put (· == ·) e.1 e.2 acc) acc ↔
        e ∈ es ∨ e ∈ acc ∧ e.1 ∉ es.map (·.1))
  | [], acc, _, _ => by simp
  | d :: r, acc, distinct, once => by
    obtain ⟨new, distinct⟩ := List.nodup_cons.1 distinct
    have next : ((put (· == ·) d.1 d.2 acc).map (·.1)).Nodup := by
      rw [KeyedMap.keys_put]
      split
      · exact once
      · rename_i unknown
        exact once.append (List.nodup_singleton _) (by simpa using unknown)
    rw [List.foldl_cons, mem_foldl_put distinct next, mem_put_iff once]
    have kept : e = d → e.1 ∉ r.map (·.1) := fun same => same ▸ new
    simp only [Prod.mk.eta, List.mem_cons, List.map_cons, not_or]
    tauto

end Assoc

/-! ### Equal fields -/

/-- Fields of legible kinds are equal exactly if they have one kind and one name. -/
theorem NamedField.key_eq_iff_of_legible {c d : NamedField} (hc : c.kind.Legible) (hd : d.kind.Legible) :
    c.key = d.key ↔ c = d := by
  constructor
  · intro same
    have texts : c.kind.key.toList ++ ':' :: (Text.json c.name).toList
        = d.kind.key.toList ++ ':' :: (Text.json d.name).toList := by
      simpa [NamedField.key, NamedField.toField, Field.key] using congrArg String.toList same
    obtain ⟨kinds, rest⟩ := Kind.key_append_inj_of_legible hc hd texts
    have names := @Text.json_append_inj c.name d.name [] [] (by simpa using (List.cons.inj rest).2)
    obtain ⟨_, _⟩ := c
    obtain ⟨_, _⟩ := d
    exact congr (congrArg NamedField.mk kinds) names.1
  · exact congrArg NamedField.key

namespace Schema

/-! ### Entries of bases -/

/-- Entries of one attribute have equal fields. -/
def Consistent (es : List (String × NamedField)) : Prop :=
  ∀ d ∈ es, ∀ e ∈ es, d.1 = e.1 → d.2.key = e.2.key

/-- The first entries of all attributes, in the order in which the attributes appear. -/
structure FirstOf (es acc : List (String × NamedField)) : Prop where
  attributes : acc.map (·.1) = (es.map (·.1)).eraseDups
  subset : acc ⊆ es

/-- **One more entry** is appended, or dropped, or refused because its field is not the one that the
others of its attribute have. -/
theorem inherit_step (name : String) {es acc : List (String × NamedField)} (consistent : Consistent es)
    (first : FirstOf es acc) (e : String × NamedField) :
    (Consistent (es ++ [e]) ∧ ∃ acc', inherit name acc e = .ok acc' ∧ FirstOf (es ++ [e]) acc') ∨
      (¬Consistent (es ++ [e]) ∧ inherit name acc e = .error (.basesCollide name)) := by
  have extend : (∀ d ∈ es, d.1 = e.1 → d.2.key = e.2.key) → Consistent (es ++ [e]) := by
    intro agrees a ha b hb same
    rcases List.mem_append.1 ha with ha | ha <;> rcases List.mem_append.1 hb with hb | hb
    · exact consistent a ha b hb same
    · cases List.mem_singleton.1 hb
      exact agrees a ha same
    · cases List.mem_singleton.1 ha
      exact (agrees b hb same.symm).symm
    · rw [List.mem_singleton.1 ha, List.mem_singleton.1 hb]
  have appears : e.1 ∈ acc.map (·.1) ↔ e.1 ∈ es.map (·.1) := by
    rw [first.attributes, List.mem_eraseDups]
  unfold inherit
  split
  · rename_i none
    have new : e.1 ∉ es.map (·.1) := by
      rw [← appears, ← KeyedMap.isSome_find? e.1 acc, none]
      exact Bool.false_ne_true
    refine .inl ⟨extend fun d hd same => absurd (List.mem_map.2 ⟨d, hd, same⟩) new, _, rfl, ?_, ?_⟩
    · rw [List.map_append, List.map_append, List.map_singleton, eraseDups_concat, if_neg new,
        first.attributes]
    · exact List.append_subset.2
        ⟨List.subset_append_of_subset_left _ first.subset, List.subset_append_right _ _⟩
  · rename_i f some
    have there : (e.1, f) ∈ acc := KeyedMap.mem_of_find? some
    split
    · rename_i equal
      refine .inl ⟨extend fun d hd same => ?_, acc, rfl, ?_, ?_⟩
      · exact (consistent d hd _ (first.subset there) same).trans (beq_iff_eq.1 equal)
      · have known := appears.1 (List.mem_map.2 ⟨_, there, rfl⟩)
        rw [List.map_append, List.map_singleton, eraseDups_concat, if_pos known, first.attributes]
      · exact List.subset_append_of_subset_left _ first.subset
    · rename_i unequal
      refine .inr ⟨fun whole => unequal (beq_iff_eq.2 ?_), rfl⟩
      exact whole _ (List.mem_append_left _ (first.subset there)) e
        (List.mem_append_right _ (List.mem_singleton_self e)) rfl

/-- **All entries of the bases**: the first ones of all attributes are left, if entries of one attribute
have equal fields. -/
theorem inherit_run (name : String) (es : List (String × NamedField)) :
    (Consistent es ∧ ∃ acc, es.foldlM (inherit name) [] = .ok acc ∧ FirstOf es acc) ∨
      (¬Consistent es ∧ es.foldlM (inherit name) [] = .error (.basesCollide name)) := by
  induction es using List.reverseRecOn with
  | nil => exact .inl ⟨by simp [Consistent], [], rfl, rfl, List.Subset.refl _⟩
  | append_singleton es e ih =>
    rw [List.foldlM_append]
    have last : ∀ acc, [e].foldlM (inherit name) acc = inherit name acc e := fun acc => by
      rw [List.foldlM_cons]
      exact bind_pure _
    rcases ih with ⟨consistent, acc, run, first⟩ | ⟨inconsistent, run⟩
    · rw [run]
      change _ ∧ (∃ acc', [e].foldlM (inherit name) acc = _ ∧ _) ∨ _ ∧ [e].foldlM (inherit name) acc = _
      rw [last]
      exact inherit_step name consistent first e
    · rw [run]
      refine .inr ⟨fun whole => inconsistent fun a ha b hb => ?_, rfl⟩
      exact whole a (List.mem_append_left _ ha) b (List.mem_append_left _ hb)

/-! ### Declared schemas and their bases -/

/-- The schema was declared. -/
def Declared (t : Schema) : Prop := ∃ name fields bases, declare name fields bases = .ok t

/-- The attributes that the fields were declared under. -/
def attributes (s : Schema) : List String := s.entries.map (·.1)

/-- The schemas have unequal fields under one attribute. -/
def Collides (s t : Schema) : Prop :=
  ∃ d ∈ s.entries, ∃ e ∈ t.entries, d.1 = e.1 ∧ d.2.key ≠ e.2.key

/-- Schemas of legible kinds collide exactly if they have different fields under one attribute. -/
theorem collides_iff_of_legible {s t : Schema} (hs : ∀ d ∈ s.entries, d.2.kind.Legible)
    (ht : ∀ e ∈ t.entries, e.2.kind.Legible) :
    s.Collides t ↔ ∃ d ∈ s.entries, ∃ e ∈ t.entries, d.1 = e.1 ∧ d.2 ≠ e.2 := by
  refine exists_congr fun d => and_congr_right fun hd => exists_congr fun e => and_congr_right fun he => ?_
  rw [Ne, NamedField.key_eq_iff_of_legible (hs d hd) (ht e he)]

/-- Two declared bases collide exactly if the entries of all bases have unequal fields under some
attribute. No schema collides with itself. -/
theorem bases_collide_iff {bases : List Schema} (declared : ∀ s ∈ bases, s.Declared) :
    (∃ s ∈ bases, ∃ t ∈ bases, s ≠ t ∧ s.Collides t) ↔ ¬Consistent (bases.flatMap entries) := by
  constructor
  · rintro ⟨s, hs, t, ht, -, d, hd, e, he, same, unequal⟩ consistent
    exact unequal (consistent d (List.mem_flatMap.2 ⟨s, hs, hd⟩) e (List.mem_flatMap.2 ⟨t, ht, he⟩) same)
  · intro inconsistent
    by_contra apart
    refine inconsistent fun d hd e he same => ?_
    obtain ⟨s, hs, hd⟩ := List.mem_flatMap.1 hd
    obtain ⟨t, ht, he⟩ := List.mem_flatMap.1 he
    by_contra unequal
    by_cases one : s = t
    · subst one
      obtain ⟨_, _, _, hdeclared⟩ := declared s hs
      have entry : d = e := List.inj_on_of_nodup_map (declare_distinct hdeclared).1 hd he same
      exact unequal (entry ▸ rfl)
    · exact apart ⟨s, hs, t, ht, one, d, hd, e, he, same, unequal⟩

/-- What the entries of a schema are, told by its own declarations and its bases. -/
structure Inherits (own : List (String × Field)) (bases : List Schema)
    (es : List (String × NamedField)) : Prop where
  /-- The attributes of the bases come first, as they appear there, then those that are new. -/
  order : es.map (·.1) = (bases.flatMap attributes).eraseDups
    ++ (own.map (·.1)).filter (· ∉ bases.flatMap attributes)
  distinct : (es.map (·.1)).Nodup
  /-- What is declared stands under its attribute, with the name of the attribute if it has none. -/
  declared : ∀ e ∈ own, (e.1, named e.1 e.2) ∈ es
  /-- What is not declared is an entry of a base, and all bases that have it agree on its field. -/
  inherited : ∀ e ∈ es, e.1 ∉ own.map (·.1) → (∃ s ∈ bases, e ∈ s.entries) ∧
    ∀ s ∈ bases, ∀ d ∈ s.entries, d.1 = e.1 → d.2.key = e.2.key

/-- Declarations over the entries of the bases. -/
theorem inherits_of_firstOf {own : List (String × Field)} {bases : List Schema}
    {inherited : List (String × NamedField)} (once : (own.map (·.1)).Nodup)
    (consistent : Consistent (bases.flatMap entries))
    (first : FirstOf (bases.flatMap entries) inherited) :
    Inherits own bases
      (own.foldl (fun acc e => Assoc.put (· == ·) e.1 (named e.1 e.2) acc) inherited) := by
  let declarations := own.map fun e => (e.1, named e.1 e.2)
  have run : own.foldl (fun acc e => Assoc.put (· == ·) e.1 (named e.1 e.2) acc) inherited
      = declarations.foldl (fun acc e => Assoc.put (· == ·) e.1 e.2 acc) inherited := by
    rw [List.foldl_map]
  have names : declarations.map (·.1) = own.map (·.1) := by simp [declarations, Function.comp_def]
  have once' : (declarations.map (·.1)).Nodup := names ▸ once
  have provided : (bases.flatMap entries).map (·.1) = bases.flatMap attributes := List.map_flatMap
  have order : inherited.map (·.1) = (bases.flatMap attributes).eraseDups := provided ▸ first.attributes
  have distinct : (inherited.map (·.1)).Nodup := order ▸ nodup_eraseDups _
  rw [run]
  refine ⟨?_, ?_, fun e he => ?_, fun e he undeclared => ?_⟩
  · rw [Assoc.keys_foldl_put once', names, order]
    simp only [List.mem_eraseDups]
  · rw [Assoc.keys_foldl_put once']
    refine distinct.append (once'.filter _) fun a ha hnew => ?_
    simpa using absurd ha (by simpa using (List.mem_filter.1 hnew).2)
  · exact (Assoc.mem_foldl_put once' distinct).2 (.inl (List.mem_map.2 ⟨e, he, rfl⟩))
  · rcases (Assoc.mem_foldl_put once' distinct).1 he with he | ⟨he, -⟩
    · exact absurd (names ▸ List.mem_map_of_mem he) undeclared
    · obtain ⟨s, hs, hes⟩ := List.mem_flatMap.1 (first.subset he)
      refine ⟨⟨s, hs, hes⟩, fun t ht d hd same => ?_⟩
      exact consistent d (List.mem_flatMap.2 ⟨t, ht, hd⟩) e (first.subset he) same

/-- Among distinct names that were not seen none is repeated. -/
theorem firstRepeated_of_nodup : ∀ {names seen : List String}, names.Nodup → (∀ n ∈ names, n ∉ seen) →
    Kind.firstRepeated seen names = none
  | [], _, _, _ => rfl
  | n :: r, seen, distinct, apart => by
    obtain ⟨new, distinct⟩ := List.nodup_cons.1 distinct
    obtain ⟨unseen, apart⟩ := List.forall_mem_cons.1 apart
    unfold Kind.firstRepeated
    rw [if_neg (by simpa using unseen)]
    refine firstRepeated_of_nodup distinct fun m hm hseen => ?_
    rcases List.mem_cons.1 hseen with rfl | hseen
    · exact new hm
    · exact apart m hm hseen

/-- Entries make a schema exactly if their fields have distinct names. -/
theorem ofEntries_cases (name : String) (es : List (String × NamedField)) :
    ((∃ n, ofEntries name es = .error (.fieldNameTaken n name)) ↔ ¬(es.map (·.2.name)).Nodup) ∧
      ((es.map (·.2.name)).Nodup → ofEntries name es = .ok ⟨name, es⟩) := by
  unfold ofEntries
  cases repeated : Kind.firstRepeated [] (es.map (·.2.name)) with
  | none =>
    have distinct := (Kind.nodup_of_firstRepeated repeated).1
    exact ⟨⟨nofun, fun h => absurd distinct h⟩, fun _ => rfl⟩
  | some n =>
    have twice : ¬(es.map (·.2.name)).Nodup := fun distinct => by
      rw [firstRepeated_of_nodup distinct (by simp)] at repeated
      cases repeated
    exact ⟨⟨fun _ => twice, fun _ => ⟨n, rfl⟩⟩, fun distinct => absurd distinct twice⟩

/-- **What a schema has from its bases.** A schema is refused for its bases exactly if two of them have
unequal fields under one attribute. Otherwise it is refused exactly if two of the entries that it would
have share a name. Otherwise it has these entries: the attributes of the bases, as they appear first, then
the new ones, as they are declared, all distinct; and under each attribute what is declared there, or else
what the bases have there. -/
theorem declare_inherits (name : String) (fields : List (String × Field)) {bases : List Schema}
    (declared : ∀ s ∈ bases, s.Declared) :
    (declare name fields bases = .error (.basesCollide name) ↔
      ∃ s ∈ bases, ∃ t ∈ bases, s ≠ t ∧ s.Collides t) ∧
    ((¬∃ s ∈ bases, ∃ t ∈ bases, s ≠ t ∧ s.Collides t) →
      ∃ es, Inherits (Record.ofList fields) bases es ∧
        ((∃ n, declare name fields bases = .error (.fieldNameTaken n name)) ↔
          ¬(es.map (·.2.name)).Nodup) ∧
        ((es.map (·.2.name)).Nodup → declare name fields bases = .ok ⟨name, es⟩)) := by
  rw [bases_collide_iff declared]
  rcases inherit_run name (bases.flatMap entries) with
    ⟨consistent, inherited, run, first⟩ | ⟨inconsistent, run⟩
  · have made : declare name fields bases = ofEntries name
        ((Record.ofList fields).foldl (fun acc e => Assoc.put (· == ·) e.1 (named e.1 e.2) acc)
          inherited) := by
      simp only [declare, run, bind, Except.bind]
    have inherits := inherits_of_firstOf (Record.names_ofList_nodup fields) consistent first
    rw [made]
    refine ⟨⟨fun refused => ?_, fun h => absurd consistent h⟩, fun _ =>
      ⟨_, inherits, ofEntries_cases name _⟩⟩
    unfold ofEntries at refused
    split at refused <;> cases refused
  · have refused : declare name fields bases = .error (.basesCollide name) := by
      simp only [declare, run, bind, Except.bind]
    exact ⟨⟨fun _ => inconsistent, fun _ => refused⟩, fun h => absurd inconsistent h⟩

open Persons in
/-- A tutor is a person and a student, with a birthday of its own and an office: the attributes of the
persons come first, the class of the students follows, and the birthday stays where it is inherited. -/
theorem declare_inherits_of_both :
    let own : List (String × Field) := [("office", ⟨.primitive .string, none⟩),
      ("dob", ⟨.primitive .string, none⟩)]
    let entries : List (String × NamedField) := [("surname", ⟨.primitive .string, "surname"⟩),
      ("dob", ⟨.primitive .string, "dob"⟩), ("level", ⟨.primitive .integer, "class"⟩),
      ("office", ⟨.primitive .string, "office"⟩)]
    person.Declared ∧ student.Declared ∧ declare "tutor" own [person, student] = .ok ⟨"tutor", entries⟩ ∧
      Inherits (Record.ofList own) [person, student] entries ∧
      ¬∃ s ∈ [person, student], ∃ t ∈ [person, student], s ≠ t ∧ s.Collides t := by
  intro own entries
  have hperson : declare "person" [("surname", ⟨.primitive .string, none⟩),
      ("dob", ⟨.primitive .date, some "birthday"⟩)] [] = .ok person := rfl
  have hstudent : declare "student" [("level", ⟨.primitive .integer, some "class"⟩)] [person]
      = .ok student := rfl
  have made : declare "tutor" own [person, student] = .ok ⟨"tutor", entries⟩ := rfl
  have declared : ∀ s ∈ [person, student], s.Declared := by
    simpa using ⟨⟨_, _, _, hperson⟩, ⟨_, _, _, hstudent⟩⟩
  obtain ⟨refused, inherits⟩ := declare_inherits "tutor" own declared
  have apart : ¬∃ s ∈ [person, student], ∃ t ∈ [person, student], s ≠ t ∧ s.Collides t := fun collide => by
    rw [refused.2 collide] at made
    cases made
  obtain ⟨es, hes, taken, ok⟩ := inherits apart
  have free : (es.map (·.2.name)).Nodup := by
    by_contra twice
    obtain ⟨n, error⟩ := taken.2 twice
    rw [error] at made
    cases made
  obtain rfl : es = entries := by
    rw [ok free] at made
    exact (Schema.mk.inj (Except.ok.inj made)).2
  exact ⟨declared person (by simp), declared student (by simp), made, hes, apart⟩

end Schema
end QueryAlgebra
