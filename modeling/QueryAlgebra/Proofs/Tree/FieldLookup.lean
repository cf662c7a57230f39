import QueryAlgebra.Proofs.Tree.Factors
import QueryAlgebra.Proofs.Tree.Kinds
import QueryAlgebra.Source.Build

/-!
# How tables and references find their fields

A table, and a reference to one, has a feature for each field of the schema. The feature is found by the
name of the field, and a name is taken for an attribute before it is taken for a name. So a field that
was declared under the name of another one hides it.

* `Schema.declare_distinct`: the attributes of a declared schema are distinct, and so are its names.
* `Schema.resolve_of_declared`, `Schema.resolve_of_free`: what is found under the name of a field.
* `features_resolved`: the feature at a position is that of the field which was declared under the name
  of the field there; it shows the field itself exactly if no other one was.
* `field_hidden`: a field has no feature at all, and the one that hides it has two.
-/

namespace QueryAlgebra

/-- In a list without repeated keys an item is found by its key. -/
theorem find?_key_of_nodup {α : Type} {key : α → String} {l : List α} (distinct : (l.map key).Nodup)
    {a : α} (ha : a ∈ l) : (l.find? fun b => key b == key a) = some a := by
  cases found : l.find? fun b => key b == key a with
  | none => exact absurd (List.find?_eq_none.1 found a ha) (by simp)
  | some b =>
    have same : key b = key a := by simpa using List.find?_some found
    rw [List.inj_on_of_nodup_map distinct (List.mem_of_find?_eq_some found) ha same]

namespace Schema

/-! ### Declared schemas -/

/-- An inherited entry is not appended under an attribute that is there. -/
theorem inherit_distinct {name : String} {acc acc' : List (String × NamedField)}
    {e : String × NamedField} (h : inherit name acc e = .ok acc') (distinct : (acc.map (·.1)).Nodup) :
    (acc'.map (·.1)).Nodup := by
  unfold inherit at h
  split at h
  · rename_i new
    obtain rfl := Except.ok.inj h
    have absent : e.1 ∉ acc.map (·.1) := by
      rw [← KeyedMap.isSome_find? e.1 acc, new]
      exact Bool.false_ne_true
    rw [List.map_append]
    exact distinct.append (List.nodup_singleton _) (by simpa using absent)
  · split at h
    · obtain rfl := Except.ok.inj h
      exact distinct
    · cases h

theorem inherited_distinct {name : String} : ∀ {es acc acc' : List (String × NamedField)},
    es.foldlM (inherit name) acc = .ok acc' → (acc.map (·.1)).Nodup → (acc'.map (·.1)).Nodup
  | [], _, _, h, distinct => by
    obtain rfl := pure_eq_ok.1 h
    exact distinct
  | e :: r, acc, acc', h, distinct => by
    rw [List.foldlM_cons] at h
    obtain ⟨next, step, rest⟩ := bind_eq_ok.1 h
    exact inherited_distinct rest (inherit_distinct step distinct)

/-- A declared field replaces the one of its attribute where that stands. -/
theorem put_distinct (k : String) (v : NamedField) {es : List (String × NamedField)}
    (distinct : (es.map (·.1)).Nodup) : ((Assoc.put (· == ·) k v es).map (·.1)).Nodup := by
  rw [KeyedMap.keys_put]
  split
  · exact distinct
  · rename_i new
    exact distinct.append (List.nodup_singleton _) (by simpa using new)

theorem ofEntries_eq_ok {name : String} {es : List (String × NamedField)} {t : Schema}
    (h : ofEntries name es = .ok t) :
    Kind.firstRepeated [] (es.map (·.2.name)) = none ∧ t = ⟨name, es⟩ := by
  unfold ofEntries at h
  split at h
  · cases h
  · rename_i unrepeated
    exact ⟨unrepeated, (Except.ok.inj h).symm⟩

/-- **The attributes of a declared schema are distinct**, and so are the names of its fields. -/
theorem declare_distinct {name : String} {fields : List (String × Field)} {bases : List Schema}
    {t : Schema} (h : declare name fields bases = .ok t) :
    (t.entries.map (·.1)).Nodup ∧ (t.fields.map NamedField.name).Nodup := by
  obtain ⟨inherited, hinherited, h⟩ := bind_eq_ok.1 h
  have all : ∀ (es : List (String × Field)) {acc : List (String × NamedField)},
      (acc.map (·.1)).Nodup →
        ((es.foldl (fun acc e => Assoc.put (· == ·) e.1 (named e.1 e.2) acc) acc).map (·.1)).Nodup := by
    intro es
    induction es with
    | nil => exact id
    | cons e r ih => exact fun distinct => ih (put_distinct _ _ distinct)
  obtain ⟨unrepeated, rfl⟩ := ofEntries_eq_ok h
  refine ⟨all _ (inherited_distinct hinherited List.nodup_nil), ?_⟩
  simpa [Schema.fields, Function.comp_def] using (Kind.nodup_of_firstRepeated unrepeated).1

/-! ### What is found under the name of a field -/

variable {t : Schema}

/-- Under the name of a field that another one was declared under, that other one is found. -/
theorem resolve_of_declared (attributes : (t.entries.map (·.1)).Nodup) {e : String × NamedField}
    (he : e ∈ t.entries) {d : NamedField} (h : e.1 = d.name) : t.resolve d = e.2 := by
  have distinct : (t.entries.reverse.map (·.1)).Nodup := by
    rw [List.map_reverse]
    exact List.nodup_reverse.2 attributes
  have found := find?_key_of_nodup distinct (List.mem_reverse.2 he)
  rw [h] at found
  simp [resolve, get?, declared?, found]

/-- Under a name that no field was declared under, the field of that name is found. -/
theorem resolve_of_free (names : (t.fields.map NamedField.name).Nodup) {d : NamedField}
    (hd : d ∈ t.fields) (free : ∀ e ∈ t.entries, e.1 ≠ d.name) : t.resolve d = d := by
  have undeclared : t.declared? d.name = none := by
    rw [declared?, List.find?_eq_none.2 fun e he => by simpa using free e (List.mem_reverse.1 he)]
    rfl
  have called : t.called? d.name = some d := find?_key_of_nodup names hd
  simp [resolve, get?, undeclared, called]

/-- A field is found under its name exactly if no other one was declared under that name. -/
theorem resolve_shows_iff (attributes : (t.entries.map (·.1)).Nodup)
    (names : (t.fields.map NamedField.name).Nodup) {d : String × NamedField} (hd : d ∈ t.entries) :
    ((t.resolve d.2).name = d.2.name ∧ (t.resolve d.2).kind = d.2.kind) ↔
      ∀ e ∈ t.entries, e.1 = d.2.name → e = d := by
  constructor
  · rintro ⟨same, -⟩ e he h
    rw [resolve_of_declared attributes he h] at same
    have distinct : (t.entries.map fun e => e.2.name).Nodup := by
      simpa [fields, Function.comp_def] using names
    exact List.inj_on_of_nodup_map distinct he hd same
  · intro only
    have shown : t.resolve d.2 = d.2 := by
      by_cases own : d.1 = d.2.name
      · exact resolve_of_declared attributes hd own
      · exact resolve_of_free names (List.mem_map_of_mem hd) fun e he h => own (only e he h ▸ h)
    rw [shown]
    exact ⟨rfl, rfl⟩

end Schema

/-- A table, or a reference to it, has a feature for each field, which is found under its name. -/
theorem Source.features_of_unwrapped {s : Source} {t : Schema} (h : s.unwrapped = .table t) :
    s.features = t.fields.map fun d => .element s (t.resolve d).name (t.resolve d).kind := by
  cases s with
  | table u =>
    obtain rfl := Source.table.inj h
    simp [Source.features, Function.comp_def]
  | reference s n =>
    obtain rfl : s = .table t := h
    simp [Source.features, Source.fields, Source.resolve, Source.unwrapped, Function.comp_def]
  | _ => cases h

/-- **A table and its references show a field exactly if no other one was declared under its name.** At
every position stands the element of the field that was declared under the name of the field there. -/
theorem features_resolved {name : String} {fields : List (String × Field)} {bases : List Schema}
    {t : Schema} (declared : Schema.declare name fields bases = .ok t) {s : Source}
    (h : s.unwrapped = .table t) :
    s.features.length = t.fields.length ∧ ∀ (i : Nat) (d : String × NamedField),
      t.entries[i]? = some d → ∃ c : NamedField, s.features[i]? = some (.element s c.name c.kind) ∧
        (∀ e ∈ t.entries, e.1 = d.2.name → c = e.2) ∧
        ((c.name = d.2.name ∧ c.kind = d.2.kind) ↔ ∀ e ∈ t.entries, e.1 = d.2.name → e = d) := by
  obtain ⟨attributes, names⟩ := Schema.declare_distinct declared
  rw [Source.features_of_unwrapped h]
  refine ⟨List.length_map _, fun i d hd => ⟨t.resolve d.2, ?_, ?_, ?_⟩⟩
  · simp [Schema.fields, hd]
  · exact fun e he same => Schema.resolve_of_declared attributes he same
  · exact Schema.resolve_shows_iff attributes names (List.mem_of_getElem? hd)

/-! ### Persons -/

namespace Persons

/-- What is known of a person. -/
def person : Schema := ⟨"person", [("surname", ⟨.primitive .string, "surname"⟩),
  ("dob", ⟨.primitive .date, "birthday"⟩)]⟩

/-- A person who is in a class. -/
def student : Schema := ⟨"student", [("surname", ⟨.primitive .string, "surname"⟩),
  ("dob", ⟨.primitive .date, "birthday"⟩), ("level", ⟨.primitive .integer, "class"⟩)]⟩

/-- A person whose number is called like the attribute of the surname. -/
def numbered : Schema := ⟨"numbered", [("id", ⟨.primitive .integer, "name"⟩),
  ("name", ⟨.primitive .string, "surname"⟩)]⟩

end Persons

open Persons in
/-- A reference to students shows their class, and what it has from persons. -/
theorem features_resolved_of_student :
    Schema.declare "person" [("surname", ⟨.primitive .string, none⟩),
        ("dob", ⟨.primitive .date, some "birthday"⟩)] [] = .ok person ∧
      Schema.declare "student" [("level", ⟨.primitive .integer, some "class"⟩)] [person]
        = .ok student ∧
      ((Source.table student).ref "s").unwrapped = .table student ∧
      ∀ (i : Nat) (d : String × NamedField), student.entries[i]? = some d →
        ∃ c : NamedField, ((Source.table student).ref "s").features[i]?
            = some (.element ((Source.table student).ref "s") c.name c.kind) ∧
          c.name = d.2.name ∧ c.kind = d.2.kind := by
  have declared : Schema.declare "student" [("level", ⟨.primitive .integer, some "class"⟩)] [person]
      = .ok student := rfl
  have free : ∀ d ∈ student.entries, ∀ e ∈ student.entries, e.1 = d.2.name → e = d := by
    simp [student]
  refine ⟨rfl, declared, rfl, fun i d hd => ?_⟩
  obtain ⟨c, shown, -, same⟩ := (features_resolved declared
    (show ((Source.table student).ref "s").unwrapped = .table student from rfl)).2 i d hd
  exact ⟨c, shown, same.2 (free d (List.mem_of_getElem? hd))⟩

open Persons in
/-- **A field has no feature**: in its place stands a second feature of the field that was declared under
its name. -/
theorem field_hidden :
    Schema.declare "numbered" [("id", ⟨.primitive .integer, some "name"⟩),
        ("name", ⟨.primitive .string, some "surname"⟩)] [] = .ok numbered ∧
      (numbered.fields.map fun d => (some d.name, d.kind))
        = [(some "name", .primitive .integer), (some "surname", .primitive .string)] ∧
      ∀ s ∈ [Source.table numbered, (Source.table numbered).ref "r"],
        (s.features.map fun f => (f.name?, f.kind))
          = [(some "surname", .primitive .string), (some "surname", .primitive .string)] := by
  refine ⟨rfl, rfl, ?_⟩
  rintro s hs
  rcases List.mem_pair.1 hs with rfl | rfl <;> rfl

end QueryAlgebra
