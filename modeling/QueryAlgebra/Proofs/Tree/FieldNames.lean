import QueryAlgebra.Proofs.Tree.Inheritance

/-!
# Names of fields

A feature that is anonymous, or whose name an earlier field has, is given a name by its position, with
as many underscores before it as it takes to be free.

* `ownNames`: the names that features have by themselves, or by their positions.
* `Renames`: the loop that looks for a free name, without a bound on its turns; `renames_freshen`:
  it ends, with the name that `freshen` gives.
* `fieldName_free`: no field is given a name that is taken.
* `nameFields_nodup`, `nameFields_eq_ownNames`: the names of fields are distinct, and they are the
  features' own ones exactly where these are distinct already.
* `NamesFields`: the fields of a list of features, each named by the loop; `namesFields_iff`: the list of
  features has such fields, and only one list of them.
* `schema_of_features`: they make a schema, in which each of them is found under its name;
  `Source.schema_eq_of_features`: joins and statements have that schema.
-/

namespace QueryAlgebra

/-- The names that features have by themselves, and by their positions where they have none. -/
def ownNames (i : Nat) : List Feature → List String
  | []     => []
  | f :: r => f.name?.getD (positional i) :: ownNames (i + 1) r

theorem ownNames_length (fs : List Feature) (i : Nat) : (ownNames i fs).length = fs.length := by
  induction fs generalizing i with
  | nil => rfl
  | cons f r ih => simp [ownNames, ih]

/-! ### The loop -/

/-- How many of the names that are taken are at least as long as a name. -/
def longer (taken : List String) (name : String) : Nat :=
  (taken.filter fun n => name.length ≤ n.length).length

/-- An underscore in front of a taken name makes it longer than that one, so fewer names are left. -/
theorem longer_underscore {taken : List String} {name : String} (h : name ∈ taken) :
    longer taken ("_" ++ name) < longer taken name := by
  have grown : ("_" ++ name).length = name.length + 1 := by
    rw [String.length_append, Nat.add_comm]
    rfl
  have fewer : (taken.filter fun n => ("_" ++ name).length ≤ n.length)
      = (taken.filter fun n => name.length ≤ n.length).filter
          fun n => ("_" ++ name).length ≤ n.length := by
    rw [List.filter_filter]
    refine List.filter_congr fun n _ => ?_
    rw [Bool.eq_iff_iff]
    simp only [grown, Bool.and_eq_true, decide_eq_true_eq]
    omega
  rw [longer, longer, fewer]
  refine List.length_filter_lt_length_iff_exists.2 ⟨name, ?_, by simp [grown]⟩
  exact List.mem_filter.2 ⟨h, by simp⟩

/-- The loop that puts underscores in front of a name until it is free: what it ends with, and after how
many turns. -/
inductive Renames (taken : List String) : String → Nat → String → Prop where
  | free {name : String} (h : name ∉ taken) : Renames taken name 0 name
  | turn {name result : String} {turns : Nat} (h : name ∈ taken)
      (rest : Renames taken ("_" ++ name) turns result) : Renames taken name (turns + 1) result

namespace Renames

variable {taken : List String} {name result : String} {turns : Nat}

/-- The loop ends with a name that is free. -/
theorem result_free (h : Renames taken name turns result) : result ∉ taken := by
  induction h with
  | free h => exact h
  | turn _ _ ih => exact ih

/-- The loop ends in one way only. -/
theorem unique (h : Renames taken name turns result) {turns' : Nat} {result' : String}
    (h' : Renames taken name turns' result') : turns = turns' ∧ result = result' := by
  induction h generalizing turns' with
  | free free =>
    cases h' with
    | free => exact ⟨rfl, rfl⟩
    | turn taken _ => exact absurd taken free
  | turn taken _ ih =>
    cases h' with
    | free free => exact absurd taken free
    | turn _ rest =>
      obtain ⟨rfl, rfl⟩ := ih rest
      exact ⟨rfl, rfl⟩

end Renames

/-- **The loop ends**, after no more turns than there are names to grow into, and with fuel for them the
name is found that it ends with. -/
theorem renames_freshen (taken : List String) {fuel : Nat} {name : String}
    (enough : longer taken name < fuel) :
    ∃ turns ≤ longer taken name, Renames taken name turns (freshen taken fuel name) := by
  induction fuel generalizing name with
  | zero => exact absurd enough (Nat.not_lt_zero _)
  | succ fuel ih =>
    unfold freshen
    split
    · rename_i found
      have found : name ∈ taken := by simpa using found
      have fewer := longer_underscore found
      obtain ⟨turns, bound, rest⟩ := ih (Nat.lt_of_lt_of_le fewer (Nat.le_of_lt_succ enough))
      exact ⟨turns + 1, Nat.succ_le_of_lt (Nat.lt_of_le_of_lt bound fewer), .turn found rest⟩
    · rename_i free
      exact ⟨0, Nat.zero_le _, .free (by simpa using free)⟩

theorem freshen_of_free {taken : List String} {fuel : Nat} {name : String} (h : name ∉ taken) :
    freshen taken fuel name = name := by
  cases fuel with
  | zero => rfl
  | succ fuel => simp [freshen, h]

/-! ### Names of fields -/

/-- The name that the loop begins with: the own one, or where that is taken the one by position. -/
def proposed (taken : List String) (i : Nat) (name? : Option String) : String :=
  let own := name?.getD (positional i)
  if taken.contains own then positional i else own

/-- **A field is named by the loop**, which takes no more turns than there are names taken. -/
theorem fieldName_renames (taken : List String) (i : Nat) (name? : Option String) :
    ∃ turns ≤ taken.length,
      Renames taken (proposed taken i name?) turns (fieldName taken i name?) := by
  have few : longer taken (proposed taken i name?) ≤ taken.length := List.length_filter_le _ _
  obtain ⟨turns, bound, renames⟩ := renames_freshen taken (Nat.lt_succ_of_le few)
  exact ⟨turns, Nat.le_trans bound few, renames⟩

/-- No field is given a name that is taken. -/
theorem fieldName_free (taken : List String) (i : Nat) (name? : Option String) :
    fieldName taken i name? ∉ taken := by
  obtain ⟨_, -, renames⟩ := fieldName_renames taken i name?
  exact renames.result_free

/-- A field keeps its own name exactly where that is free. -/
theorem fieldName_eq_own {taken : List String} {i : Nat} {name? : Option String} :
    fieldName taken i name? = name?.getD (positional i) ↔ name?.getD (positional i) ∉ taken := by
  constructor
  · intro own
    have free := fieldName_free taken i name?
    rwa [own] at free
  · intro free
    simp only [fieldName, List.contains_iff_mem, if_neg free, freshen_of_free free]

theorem nameFields_length (fs : List Feature) (taken : List String) (i : Nat) :
    (nameFields taken i fs).length = fs.length := by
  induction fs generalizing taken i with
  | nil => rfl
  | cons f r ih => simp [nameFields, ih]

/-- **Fields have distinct names**, and none that is taken. -/
theorem nameFields_nodup (fs : List Feature) (taken : List String) (i : Nat) :
    ((nameFields taken i fs).map NamedField.name).Nodup ∧
      ∀ n ∈ (nameFields taken i fs).map NamedField.name, n ∉ taken := by
  induction fs generalizing taken i with
  | nil => exact ⟨.nil, nofun⟩
  | cons f r ih =>
    obtain ⟨nodup, free⟩ := ih (fieldName taken i f.name? :: taken) (i + 1)
    simp only [nameFields, List.map_cons, List.nodup_cons, List.forall_mem_cons]
    exact ⟨⟨fun h => free _ h List.mem_cons_self, nodup⟩, fieldName_free taken i f.name?,
      fun n hn htaken => free n hn (List.mem_cons_of_mem _ htaken)⟩

/-- **Fields have the features' own names** exactly where these are distinct and free. -/
theorem nameFields_eq_ownNames (fs : List Feature) (taken : List String) (i : Nat) :
    (nameFields taken i fs).map NamedField.name = ownNames i fs ↔
      (ownNames i fs).Nodup ∧ ∀ n ∈ ownNames i fs, n ∉ taken := by
  constructor
  · intro own
    have := nameFields_nodup fs taken i
    rwa [own] at this
  · rintro ⟨nodup, free⟩
    induction fs generalizing taken i with
    | nil => rfl
    | cons f r ih =>
      obtain ⟨new, nodup⟩ := List.nodup_cons.1 nodup
      obtain ⟨free, rest⟩ := List.forall_mem_cons.1 free
      have own := fieldName_eq_own.2 free
      simp only [nameFields, ownNames, List.map_cons, own, List.cons.injEq, true_and]
      refine ih _ _ nodup fun n hn => ?_
      simp only [List.mem_cons, not_or]
      exact ⟨fun same => new (same ▸ hn), rest n hn⟩

/-- The fields of a statement's schema have the own names of the features that it offers exactly
where these are distinct. -/
theorem Source.fields_eq_ownNames {s : Source} {sel : List Feature} {pre : Option Feature}
    {grp : List Feature} {post : Option Feature} {ord : List OrderTerm} {rows : Option RowRange} :
    let q := Source.query s sel pre grp post ord rows
    q.schema.fields.map NamedField.name = ownNames 0 q.features ↔ (ownNames 0 q.features).Nodup := by
  intro q
  rw [Source.schema_fields]
  simpa [q, Source.fields, Source.features] using nameFields_eq_ownNames q.features [] 0

/-! ### Schemas of features -/

/-- The fields of features, from a position on and with names that are taken: the loop names one after
the other, each by what is taken before it. -/
inductive NamesFields : List String → Nat → List Feature → List NamedField → Prop where
  | nil (taken : List String) (i : Nat) : NamesFields taken i [] []
  | cons {taken : List String} {i turns : Nat} {f : Feature} {r : List Feature} {name : String}
      {cs : List NamedField} (named : Renames taken (proposed taken i f.name?) turns name)
      (rest : NamesFields (name :: taken) (i + 1) r cs) :
      NamesFields taken i (f :: r) (⟨f.kind, name⟩ :: cs)

/-- **Features have fields**, and they have them in one way only. -/
theorem namesFields_iff {fs : List Feature} {taken : List String} {i : Nat} {cs : List NamedField} :
    NamesFields taken i fs cs ↔ cs = nameFields taken i fs := by
  induction fs generalizing taken i cs with
  | nil =>
    constructor
    · rintro ⟨⟩
      rfl
    · rintro rfl
      exact .nil taken i
  | cons f r ih =>
    obtain ⟨turns, -, renames⟩ := fieldName_renames taken i f.name?
    constructor
    · rintro (_ | ⟨named, rest⟩)
      obtain ⟨-, rfl⟩ := named.unique renames
      rw [ih.1 rest]
      rfl
    · rintro rfl
      exact .cons renames (ih.2 rfl)

theorem nameFields_kinds (fs : List Feature) (taken : List String) (i : Nat) :
    (nameFields taken i fs).map NamedField.kind = fs.map Feature.kind := by
  induction fs generalizing taken i with
  | nil => rfl
  | cons f r ih => simp [nameFields, ih]

/-- **A feature keeps its own name** where no earlier field has it. -/
theorem nameFields_keeps {fs : List Feature} {taken : List String} {i j : Nat} {f : Feature}
    {n : String} (hf : fs[j]? = some f) (own : f.name? = some n) (untaken : n ∉ taken)
    (free : n ∉ ((nameFields taken i fs).take j).map NamedField.name) :
    (nameFields taken i fs)[j]? = some ⟨f.kind, n⟩ := by
  induction fs generalizing taken i j with
  | nil => cases hf
  | cons g r ih =>
    cases j with
    | zero =>
      obtain rfl : g = f := by simpa using hf
      have kept : fieldName taken i g.name? = n := by
        rw [own]
        exact fieldName_eq_own.2 untaken
      simp [nameFields, kept]
    | succ j =>
      simp only [nameFields, List.take_succ_cons, List.map_cons, List.mem_cons, not_or] at free
      simp only [nameFields, List.getElem?_cons_succ]
      exact ih (by simpa using hf) (by simpa using ⟨free.1, untaken⟩) free.2

/-- In a schema of distinctly named fields each field is found under its name. -/
theorem Schema.get_schemaNamed {name : String} {cs : List NamedField}
    (distinct : (cs.map NamedField.name).Nodup) {c : NamedField} (hc : c ∈ cs) :
    (Source.schemaNamed name cs).get c.name = .ok c := by
  have entries : (cs.reverse.map fun c => (c.name, c)).find? (fun e => e.1 == c.name)
      = some (c.name, c) := by
    have keys : ((cs.reverse.map fun c => (c.name, c)).map (·.1)).Nodup := by
      simpa [Function.comp_def, List.map_reverse] using List.nodup_reverse.2 distinct
    exact find?_key_of_nodup keys (List.mem_map.2 ⟨c, List.mem_reverse.2 hc, rfl⟩)
  have declared : (Source.schemaNamed name cs).declared? c.name = some c := by
    rw [Schema.declared?, Source.schemaNamed, ← List.map_reverse, entries]
    rfl
  simp [Schema.get, Schema.get?, declared]

/-- **Features make a schema, whatever their names are.** The loop ends for each of them, their names
become distinct, so that no collision is found, and the schema has a field for each feature, in order and
of its kind. A feature whose own name no earlier field has keeps it, and each field is found under its
name. -/
theorem schema_of_features (name : String) (fs : List Feature) :
    let cs := nameFields [] 0 fs
    (∀ cs', NamesFields [] 0 fs cs' ↔ cs' = cs) ∧
      (cs.map NamedField.name).Nodup ∧
      Schema.ofEntries name (cs.map fun c => (c.name, c)) = .ok (Source.schemaNamed name cs) ∧
      cs.map NamedField.kind = fs.map Feature.kind ∧
      (∀ (i : Nat) f n, fs[i]? = some f → f.name? = some n →
        n ∉ (cs.take i).map NamedField.name → cs[i]? = some ⟨f.kind, n⟩) ∧
      ∀ (i : Nat) c, cs[i]? = some c → (Source.schemaNamed name cs).get c.name = .ok c := by
  intro cs
  have distinct : (cs.map NamedField.name).Nodup := (nameFields_nodup fs [] 0).1
  refine ⟨fun cs' => namesFields_iff, distinct, ?_, nameFields_kinds fs [] 0, ?_, ?_⟩
  · refine (Schema.ofEntries_cases name _).2 ?_
    simpa [Function.comp_def] using distinct
  · exact fun i f n hf own free => nameFields_keeps hf own (by simp) free
  · exact fun i c hc => Schema.get_schemaNamed distinct (List.mem_of_getElem? hc)

/-- Joins and statements have the schema of the features that they offer. -/
theorem Source.schema_eq_of_features {s : Source} (h : s.type = "Join" ∨ s.type = "Query") :
    s.schema = schemaNamed s.text (nameFields [] 0 s.features) := by
  cases s with
  | join l r k c => simp only [schema, fields, features]
  | query s sel pre grp post ord rows => simp only [schema, fields, features]
  | _ => simp [type] at h

/-- A repeated name, and names that look like positions. -/
example :
    let column := fun n => Feature.element (.table ⟨"t", []⟩) n (.primitive .integer)
    let count := Feature.expression .count [] none
    (nameFields [] 0 [column "_2", column "__2", count, column "_1", column "_1"]).map
        NamedField.name
      = ["_2", "__2", "___2", "_1", "_4"] := by
  decide +kernel

end QueryAlgebra
