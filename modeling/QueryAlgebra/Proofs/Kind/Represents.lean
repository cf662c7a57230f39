import QueryAlgebra.Proofs.Kind.Admits
import QueryAlgebra.Proofs.Value.Content
import QueryAlgebra.Proofs.Value.Mapping

/-!
# Values that a kind represents

A cast gives some value of a kind for almost everything, and what it gives need not hold what the value
held: fractions are cut off, texts are read as numbers, entries that a struct does not name are dropped.
Nothing is lost exactly if the value is one of the kind from the start.

* `Value.WellFormed`: values whose dictionaries and records stand as they are put together.
* `Value.SameContent`: values with one content at every depth; a mapping is a dictionary or a record.
* `Kind.Represents`: the values that are of a kind already.
* `Kind.cast_array_eq_ok`, `Kind.cast_map_eq_ok`, `Kind.cast_struct_eq_ok`: what a cast has done.
* `Kind.keeps_of_distinct`: a cast keeps the content of a value exactly if the kind represents the value.
-/

namespace QueryAlgebra

/-! ### Well-formed values -/

namespace Value

/-- What holds of texts and of the parts of a mapping holds of its keys and values. -/
theorem forall_entries {P : Value → Prop} (texts : ∀ s, P (.text s)) {v : Value}
    (parts : ∀ w ∈ v.parts, P w) {es : List (Value × Value)} (mapping : v.entries? = some es) :
    ∀ e ∈ es, P e.1 ∧ P e.2 := by
  cases v with
  | dict =>
    obtain rfl := Option.some.inj mapping
    intro e he
    exact ⟨parts _ (List.mem_append_left _ (List.mem_map_of_mem he)),
      parts _ (List.mem_append_right _ (List.mem_map_of_mem he))⟩
  | record =>
    obtain rfl := Option.some.inj mapping
    intro e he
    obtain ⟨f, hf, rfl⟩ := List.mem_map.1 he
    exact ⟨texts f.1, parts _ (List.mem_map_of_mem hf)⟩
  | _ => cases mapping

/-- The value itself stands as it is put together: the keys of a dictionary are different ones in the
form in which they are kept, and the fields of a record are in order. -/
def Tidy : Value → Prop
  | .dict es   => es.Pairwise (fun d e => e.1.same d.1 = false) ∧ ∀ e ∈ es, e.1.asKey = e.1
  | .record fs => Record.InOrder (fs.map (·.1))
  | _          => True

/-- The value and all its parts stand as they are put together by assignments. Records that hold a field
under the name of their ancestry exist, but are left out: casts lose that field, which is a slip. -/
inductive WellFormed : Value → Prop
  | intro {v : Value} (own : v.Tidy) (parts : ∀ w ∈ v.parts, w.WellFormed) : v.WellFormed

theorem WellFormed.items {vs : List Value} (h : (list vs).WellFormed) : ∀ v ∈ vs, v.WellFormed := by
  obtain ⟨-, parts⟩ := h
  exact parts

/-- The keys and values of a well-formed mapping are well-formed. -/
theorem WellFormed.entries {v : Value} (h : v.WellFormed) {es : List (Value × Value)}
    (mapping : v.entries? = some es) : ∀ e ∈ es, e.1.WellFormed ∧ e.2.WellFormed := by
  obtain ⟨-, parts⟩ := h
  exact forall_entries (fun s => ⟨trivial, nofun⟩) parts mapping

/-- The keys of a well-formed mapping are different ones in the form in which dictionaries keep them. -/
theorem WellFormed.keys {v : Value} (h : v.WellFormed) {es : List (Value × Value)}
    (mapping : v.entries? = some es) :
    es.Pairwise (fun d e => e.1.same d.1 = false) ∧ ∀ e ∈ es, e.1.asKey = e.1 := by
  obtain ⟨own, -⟩ := h
  cases v with
  | dict =>
    obtain rfl := Option.some.inj mapping
    exact own
  | record fs =>
    obtain rfl := Option.some.inj mapping
    constructor
    · rw [List.pairwise_map]
      exact (List.pairwise_map.1 own.nodup).imp fun other => by simpa [same] using Ne.symm other
    · intro e he
      obtain ⟨f, -, rfl⟩ := List.mem_map.1 he
      rfl
  | _ => cases mapping

/-! ### One content -/

/-- The values hold the same at every depth. A dictionary and a record hold the same if they have the same
entries in the same order, where names are texts. -/
inductive SameContent : Value → Value → Prop
  | bool (b : Bool) : SameContent (.bool b) (.bool b)
  | number (n : Number) : SameContent (.number n) (.number n)
  | text (s : String) : SameContent (.text s) (.text s)
  | date (t : Option Instant) : SameContent (.date t) (.date t)
  | list {vs ws : List Value} (items : List.Forall₂ SameContent vs ws) :
    SameContent (.list vs) (.list ws)
  | mapping {v w : Value} {es fs : List (Value × Value)} (left : v.entries? = some es)
    (right : w.entries? = some fs)
    (keys : List.Forall₂ SameContent (es.map Prod.fst) (fs.map Prod.fst))
    (values : List.Forall₂ SameContent (es.map Prod.snd) (fs.map Prod.snd)) : SameContent v w

/-- A mapping is no scalar. -/
theorem not_scalar_of_mapping {v : Value} {es : List (Value × Value)} (mapping : v.entries? = some es)
    (p : Primitive) : Primitive.ofValue? v ≠ some p := by
  cases v with
  | dict => nofun
  | record => nofun
  | _ => cases mapping

/-- Only a scalar itself holds what it holds. -/
theorem SameContent.eq_of_scalar {v w : Value} (h : v.SameContent w) {p : Primitive}
    (scalar : Primitive.ofValue? w = some p) : v = w := by
  cases h with
  | list => cases scalar
  | mapping _ right => exact absurd scalar (not_scalar_of_mapping right p)
  | _ => rfl

/-- A mapping is never the same key as anything. -/
theorem not_same_of_mapping {v : Value} {es : List (Value × Value)} (mapping : v.entries? = some es)
    (w : Value) : v.same w = false ∧ w.same v = false := by
  cases v with
  | dict => cases w <;> exact ⟨rfl, rfl⟩
  | record => cases w <;> exact ⟨rfl, rfl⟩
  | _ => cases mapping

/-- Keys that hold the same are the same key as keys that hold the same. -/
theorem SameContent.same_eq {v v' w w' : Value} (h : v.SameContent v') (h' : w.SameContent w') :
    v.same w = v'.same w' := by
  cases h with
  | mapping left right => rw [(not_same_of_mapping left w).1, (not_same_of_mapping right w').1]
  | _ =>
    cases h' with
    | mapping left right => rw [(not_same_of_mapping left _).2, (not_same_of_mapping right _).2]
    | _ => rfl

end Value

/-! ### Values of a kind -/

namespace Kind

/-- The value is of the kind already. A map represents every mapping whose keys and values are of its
kinds, a struct those whose entries are its elements, where they stand in a record. -/
inductive Represents : Kind → Value → Prop
  | boolean (b : Bool) : Represents (.primitive .boolean) (.bool b)
  | integer {n : Number} (whole : n.isWhole = true) : Represents (.primitive .integer) (.number n)
  | float {n : Number} (amount : n ≠ .nan) : Represents (.primitive .float) (.number n)
  | decimal {n : Number} (finite : n.isFinite = true) : Represents (.primitive .decimal) (.number n)
  | string (s : String) : Represents (.primitive .string) (.text s)
  | date {t : Instant} (start : t.midnight = some t) : Represents (.primitive .date) (.date (some t))
  | timestamp (t : Instant) : Represents (.primitive .timestamp) (.date (some t))
  | array {e : Kind} {vs : List Value} (items : ∀ v ∈ vs, e.Represents v) :
    Represents (.array e) (.list vs)
  | map {k e : Kind} {v : Value} {es : List (Value × Value)} (mapping : v.entries? = some es)
    (keys : ∀ x ∈ es, k.Represents x.1) (values : ∀ x ∈ es, e.Represents x.2) :
    Represents (.map k e) v
  | struct {ns : List (String × Kind)} {v : Value} {es : List (Value × Value)}
    (mapping : v.entries? = some es) (own : Record.ancestry ∉ ns.map (·.1))
    (names : es.map (·.1) = ((Record.ofList ns).map (·.1)).map .text)
    (values : ∀ e ∈ ns, ∀ x, (.text e.1, x) ∈ es → e.2.Represents x) : Represents (.struct ns) v

/-- Structs inside the kind have elements with different names. -/
inductive Distinct : Kind → Prop
  | primitive (p : Primitive) : Distinct (.primitive p)
  | array {e : Kind} (element : e.Distinct) : Distinct (.array e)
  | map {k e : Kind} (key : k.Distinct) (value : e.Distinct) : Distinct (.map k e)
  | struct {ns : List (String × Kind)} (names : (ns.map (·.1)).Nodup)
    (kinds : ∀ e ∈ ns, e.2.Distinct) : Distinct (.struct ns)

/-! ### What a cast has done -/

theorem cast_primitive_eq_ok {p : Primitive} {v w : Value} :
    (primitive p).cast v = .ok w ↔ p.cast? v = some w := by
  unfold cast
  cases p.cast? v <;> simp [refuse_ne_ok]

/-- An array is cast item by item. -/
theorem cast_array_eq_ok {e : Kind} {v w : Value} : (array e).cast v = .ok w ↔
    ∃ vs ws, v = .list vs ∧ List.Forall₂ (fun v w => e.cast v = .ok w) vs ws ∧ w = .list ws := by
  cases v with
  | list vs =>
    rw [cast]
    simp only [bind_eq_ok, pure_eq_ok, mapM_eq_ok_iff, Value.list.injEq]
    constructor
    · rintro ⟨ws, each, rfl⟩
      exact ⟨vs, ws, rfl, each, rfl⟩
    · rintro ⟨_, ws, rfl, each, rfl⟩
      exact ⟨ws, each, rfl⟩
  | _ => simp [cast, refuse_ne_ok]

/-- A map is cast entry by entry, and put together again. -/
theorem cast_map_eq_ok {k e : Kind} {v w : Value} : (map k e).cast v = .ok w ↔
    ∃ es fs, v.entries? = some es ∧
      List.Forall₂ (fun x y => k.cast x.1 = .ok y.1 ∧ e.cast x.2 = .ok y.2) es fs ∧
      w = Value.dictOf fs := by
  rw [cast]
  cases v.entries? with
  | none => simp [refuse_ne_ok]
  | some es =>
    simp only [bind_eq_ok, pure_eq_ok, mapM_eq_ok_iff, Option.some.injEq]
    constructor
    · rintro ⟨fs, each, rfl⟩
      refine ⟨es, fs, rfl, each.imp ?_, rfl⟩
      rintro x _ ⟨a, ha, b, hb, rfl⟩
      exact ⟨ha, hb⟩
    · rintro ⟨_, fs, rfl, each, rfl⟩
      exact ⟨fs, each.imp fun x y h => ⟨y.1, h.1, y.2, h.2, rfl⟩, rfl⟩

/-- The field of a record that an element of a struct gives: its value is looked up and cast. -/
def Fills (es : List (Value × Value)) (e : String × Kind) (f : String × Value) : Prop :=
  e.1 = f.1 ∧ ∃ x, lookup e.1 es = some x ∧ e.2.cast x = .ok f.2

theorem castElements_eq_ok {whole : Kind} {v : Value} {es : List (Value × Value)} :
    ∀ {ns : List (String × Kind)} {acc fs : List (String × Value)},
      castElements whole v es ns acc = .ok fs ↔ ∃ ws, List.Forall₂ (Fills es) ns ws ∧
        fs = ws.foldl (fun acc e => Record.assign acc e.1 e.2) acc
  | [], acc, fs => by simp [castElements, eq_comm]
  | (n, k) :: r, acc, fs => by
    unfold castElements
    cases found : lookup n es with
    | none => simp [List.forall₂_cons_left_iff, Fills, found]
    | some x =>
      simp only [bind_eq_ok, castElements_eq_ok, List.forall₂_cons_left_iff]
      constructor
      · rintro ⟨w, hw, ws, rest, rfl⟩
        exact ⟨(n, w) :: ws, ⟨(n, w), ws, ⟨rfl, x, found, hw⟩, rest, rfl⟩, rfl⟩
      · rintro ⟨_, ⟨⟨_, w⟩, ws, ⟨rfl, y, hy, hw⟩, rest, rfl⟩, rfl⟩
        obtain rfl : x = y := Option.some.inj (found.symm.trans hy)
        exact ⟨w, hw, ws, rest, rfl⟩

/-- A struct is cast element by element to a record. -/
theorem cast_struct_eq_ok {ns : List (String × Kind)} {v w : Value} : (struct ns).cast v = .ok w ↔
    ∃ es ws, v.entries? = some es ∧ List.Forall₂ (Fills es) ns ws ∧ w = .record (Record.ofList ws) := by
  unfold cast
  cases v.entries? with
  | none => simp [refuse_ne_ok]
  | some es =>
    simp only [bind_eq_ok, pure_eq_ok, castElements_eq_ok, Option.some.injEq]
    constructor
    · rintro ⟨_, ⟨ws, each, rfl⟩, rfl⟩
      exact ⟨es, ws, rfl, each, rfl⟩
    · rintro ⟨_, ws, rfl, each, rfl⟩
      exact ⟨_, ⟨ws, each, rfl⟩, rfl⟩

/-! ### What a cast keeps -/

theorem checked_eq_some {accept : Number → Bool} {m n : Number} :
    m.checked accept = some n ↔ accept m = true ∧ m = n := by
  simp [Number.checked]

/-- A scalar cast keeps the values that a primitive kind represents, and no others. -/
theorem cast?_keeps_iff {p : Primitive} {v : Value} :
    (∃ w, p.cast? v = some w ∧ v.SameContent w) ↔ (primitive p).Represents v := by
  constructor
  · rintro ⟨w, hw, same⟩
    cases p <;> simp only [Primitive.cast?, Option.map_eq_some_iff, Option.some.injEq,
      checked_eq_some] at hw
    case boolean =>
      have itself : v = .bool v.truth := (hw ▸ same).eq_of_scalar rfl
      rw [itself]
      exact .boolean _
    case integer =>
      obtain ⟨n, ⟨finite, rfl⟩, rfl⟩ := hw
      have itself : v = .number v.amount.trunc := same.eq_of_scalar rfl
      have cut : v.amount = v.amount.trunc := congrArg Value.amount itself
      rw [cut] at finite
      rw [itself]
      exact .integer (Number.integral_iff.1 v.amount.integral_trunc finite)
    case float =>
      obtain ⟨n, ⟨amount, rfl⟩, rfl⟩ := hw
      have itself : v = .number v.amount := same.eq_of_scalar rfl
      rw [itself]
      exact .float (by simpa using amount)
    case decimal =>
      obtain ⟨n, ⟨finite, rfl⟩, rfl⟩ := hw
      have itself : v = .number v.amount := same.eq_of_scalar rfl
      rw [itself]
      exact .decimal finite
    case string =>
      have itself : v = .text v.plain := (hw ▸ same).eq_of_scalar rfl
      rw [itself]
      exact .string _
    case date =>
      obtain ⟨t, ht, rfl⟩ := hw
      have itself : v = .date t.midnight := same.eq_of_scalar rfl
      have start : t.midnight = some t := by rwa [itself] at ht
      rw [itself, start]
      exact .date start
    case timestamp =>
      obtain ⟨t, -, rfl⟩ := hw
      have itself : v = .date (some t) := same.eq_of_scalar rfl
      rw [itself]
      exact .timestamp t
  · intro h
    cases h with
    | boolean b => exact ⟨_, rfl, .bool b⟩
    | @integer n whole =>
      refine ⟨.number n, ?_, .number n⟩
      simp [Primitive.cast?, Value.amount, Number.checked, Number.isFinite_of_isWhole whole,
        Number.trunc_of_isWhole whole]
    | @float n amount =>
      exact ⟨.number n, by simp [Primitive.cast?, Value.amount, Number.checked, amount], .number n⟩
    | @decimal n finite =>
      exact ⟨.number n, by simp [Primitive.cast?, Value.amount, Number.checked, finite], .number n⟩
    | string s => exact ⟨_, rfl, .text s⟩
    | @date t start =>
      exact ⟨.date (some t), by simp [Primitive.cast?, Value.instant?, start], .date _⟩
    | timestamp t => exact ⟨_, rfl, .date _⟩

/-- Casts to the kind keep the content of exactly the values that it represents. -/
def Keeps (k : Kind) : Prop :=
  ∀ v : Value, v.WellFormed → ((∃ w, k.cast v = .ok w ∧ v.SameContent w) ↔ k.Represents v)

theorem keeps_primitive (p : Primitive) : (primitive p).Keeps := by
  intro v _
  simp only [cast_primitive_eq_ok]
  exact cast?_keeps_iff

theorem keeps_array {e : Kind} (element : e.Keeps) : (array e).Keeps := by
  intro v wellFormed
  constructor
  · rintro ⟨_, hw, same⟩
    obtain ⟨vs, ws, rfl, each, rfl⟩ := cast_array_eq_ok.1 hw
    cases same with
    | mapping left => cases left
    | list items =>
      have kept := exists_forall₂_iff.1 ⟨ws, each.mp (fun _ _ => And.intro) items⟩
      exact .array fun v hv => (element v (wellFormed.items v hv)).1 (kept v hv)
  · intro represents
    cases represents with
    | @array _ vs items =>
      obtain ⟨ws, kept⟩ := exists_forall₂_iff.2
        fun v hv => (element v (wellFormed.items v hv)).2 (items v hv)
      exact ⟨.list ws, cast_array_eq_ok.2 ⟨vs, ws, rfl, kept.imp fun _ _ h => h.1, rfl⟩,
        .list (kept.imp fun _ _ h => h.2)⟩

/-- A number that a cast makes of a number is that number, or what is left without its fraction. -/
theorem number_of_cast {k : Kind} {m n : Number} (h : k.cast (.number n) = .ok (.number m)) :
    m = n ∨ n.isFinite = true ∧ m = n.trunc := by
  cases k with
  | primitive p =>
    have cast := cast_primitive_eq_ok.1 h
    cases p <;> simp only [Primitive.cast?, Option.map_eq_some_iff, checked_eq_some, Value.amount,
      Value.number.injEq] at cast
    case integer =>
      obtain ⟨_, ⟨finite, rfl⟩, rfl⟩ := cast
      exact .inr ⟨finite, rfl⟩
    case float =>
      obtain ⟨_, ⟨-, rfl⟩, rfl⟩ := cast
      exact .inl rfl
    case decimal =>
      obtain ⟨_, ⟨-, rfl⟩, rfl⟩ := cast
      exact .inl rfl
    case boolean => cases cast
    case string => cases cast
    case date =>
      obtain ⟨_, -, wrong⟩ := cast
      cases wrong
    case timestamp =>
      obtain ⟨_, -, wrong⟩ := cast
      cases wrong
  | array e =>
    obtain ⟨_, _, wrong, -⟩ := cast_array_eq_ok.1 h
    cases wrong
  | map =>
    obtain ⟨_, _, wrong, -⟩ := cast_map_eq_ok.1 h
    cases wrong
  | struct =>
    obtain ⟨_, _, wrong, -⟩ := cast_struct_eq_ok.1 h
    cases wrong

/-- The key that a cast gives holds what the key held if that is so after the sign of a zero is lost. -/
theorem keeps_of_asKey {k : Kind} {v w : Value} (hw : k.cast v = .ok w) (same : v.SameContent w.asKey) :
    v.SameContent w := by
  cases w with
  | number m =>
    obtain rfl : v = .number m.unsignedZero := same.eq_of_scalar rfl
    suffices itself : m = m.unsignedZero by
      rw [← itself]
      exact .number m
    rcases number_of_cast hw with itself | ⟨finite, cut⟩
    · exact itself
    · -- What is whole is still whole without its sign.
      have integral : m.unsignedZero.Integral := (cut ▸ Number.integral_trunc _ : m.Integral).unsignedZero
      rwa [Number.trunc_of_isWhole (Number.integral_iff.1 integral finite)] at cut
  | _ => exact same

/-- Entries with different keys, in the form in which they are kept, are a dictionary as they stand. -/
theorem dictOf_of_keys {es : List (Value × Value)} (other : es.Pairwise fun d e => e.1.same d.1 = false)
    (kept : ∀ e ∈ es, e.1.asKey = e.1) : Value.dictOf es = .dict es := by
  have asKept : es.map (fun e => (e.1.asKey, e.2)) = es :=
    (List.map_congr_left fun e he => by rw [kept e he]; rfl).trans (List.map_id _)
  rw [Value.dictOf, asKept, Assoc.ofList_of_new other]

theorem asKey_of_sameContent {v w : Value} (h : v.SameContent w) (kept : v.asKey = v) : w.asKey = w := by
  cases h with
  | mapping _ right =>
    cases w with
    | dict => rfl
    | record => rfl
    | _ => cases right
  | list => rfl
  | _ => exact kept

/-- A mapping that holds what a dictionary of as many entries holds is held entry by entry. -/
theorem forall₂_of_dictOf {v : Value} {es fs : List (Value × Value)} (mapping : v.entries? = some es)
    (lengths : es.length = fs.length) (same : v.SameContent (Value.dictOf fs)) :
    List.Forall₂ (fun x y => x.1.SameContent y.1.asKey ∧ x.2.SameContent y.2) es fs := by
  cases same with
  | mapping left right keys values =>
    obtain rfl := Option.some.inj (mapping.symm.trans left)
    obtain rfl := Option.some.inj right
    -- No key is lost, so the dictionary has all the entries.
    have together := keys.length_eq
    simp only [List.length_map] at together
    have all : Assoc.ofList Value.same (fs.map fun e => (e.1.asKey, e.2)) = fs.map _ :=
      Assoc.ofList_of_length (by rw [← together, lengths, List.length_map])
    rw [all, List.map_map, List.forall₂_map_left_iff, List.forall₂_map_right_iff] at keys values
    exact keys.mp (fun _ _ => And.intro) values

theorem keeps_map {k e : Kind} (key : k.Keeps) (value : e.Keeps) : (map k e).Keeps := by
  intro v wellFormed
  constructor
  · rintro ⟨_, hw, same⟩
    obtain ⟨es, fs, mapping, each, rfl⟩ := cast_map_eq_ok.1 hw
    have parts := wellFormed.entries mapping
    have held := forall₂_of_dictOf mapping each.length_eq same
    have kept := exists_forall₂_iff.1 ⟨fs, each.mp (fun _ _ => And.intro) held⟩
    refine .map mapping (fun x hx => ?_) fun x hx => ?_
    · obtain ⟨y, ⟨hk, -⟩, same, -⟩ := kept x hx
      exact (key x.1 (parts x hx).1).1 ⟨y.1, hk, keeps_of_asKey hk same⟩
    · obtain ⟨y, ⟨-, he⟩, -, same⟩ := kept x hx
      exact (value x.2 (parts x hx).2).1 ⟨y.2, he, same⟩
  · intro represents
    cases represents with
    | @map _ _ _ es mapping keys values =>
      have parts := wellFormed.entries mapping
      obtain ⟨other, asKept⟩ := wellFormed.keys mapping
      obtain ⟨fs, kept⟩ : ∃ fs : List (Value × Value), List.Forall₂ (fun x y =>
          (k.cast x.1 = .ok y.1 ∧ e.cast x.2 = .ok y.2) ∧ x.1.SameContent y.1 ∧ x.2.SameContent y.2)
          es fs := by
        refine exists_forall₂_iff.2 fun x hx => ?_
        obtain ⟨a, ha, sameKey⟩ := (key x.1 (parts x hx).1).2 (keys x hx)
        obtain ⟨b, hb, sameValue⟩ := (value x.2 (parts x hx).2).2 (values x hx)
        exact ⟨(a, b), ⟨ha, hb⟩, sameKey, sameValue⟩
      have apart := pairwise_of_forall₂ (Q := fun d e => e.1.same d.1 = false)
        (fun h h' other => (h'.2.1.same_eq h.2.1).symm.trans other) kept other
      have stay : ∀ y ∈ fs, y.1.asKey = y.1 :=
        forall_of_forall₂ (fun _ _ h => asKey_of_sameContent h.2.1) kept asKept
      refine ⟨.dict fs, cast_map_eq_ok.2
        ⟨es, fs, mapping, kept.imp fun _ _ h => h.1, (dictOf_of_keys apart stay).symm⟩,
        .mapping mapping rfl ?_ ?_⟩
      · rw [List.forall₂_map_left_iff, List.forall₂_map_right_iff]
        exact kept.imp fun _ _ h => h.2.1
      · rw [List.forall₂_map_left_iff, List.forall₂_map_right_iff]
        exact kept.imp fun _ _ h => h.2.2

/-! ### Structs -/

theorem same_text_iff {v : Value} {s : String} : v.same (.text s) = true ↔ v = .text s := by
  cases v <;> simp [Value.same]

/-- What is looked up stands among the entries. -/
theorem mem_of_lookup {n : String} {es : List (Value × Value)} {x : Value} (h : lookup n es = some x) :
    (.text n, x) ∈ es := by
  obtain ⟨e, found, rfl⟩ := Option.map_eq_some_iff.1 h
  have named : e.1 = .text n := same_text_iff.1 (by simpa using List.find?_some found)
  rw [← named]
  exact List.mem_reverse.1 (List.mem_of_find?_eq_some found)

/-- Where all keys are different, what stands among the entries is looked up. -/
theorem lookup_of_mem {n : String} {es : List (Value × Value)} {x : Value}
    (nodup : (es.map (·.1)).Nodup) (h : (.text n, x) ∈ es) : lookup n es = some x := by
  cases found : lookup n es with
  | none =>
    have missing := List.find?_eq_none.1 (Option.map_eq_none_iff.1 found) _ (List.mem_reverse.2 h)
    exact absurd (same_text_iff.2 rfl) missing
  | some y =>
    have entry := List.inj_on_of_nodup_map nodup (mem_of_lookup found) h rfl
    rw [(Prod.mk.inj entry).2]

/-- Entries that have the names of fields, one by one, as their keys. -/
theorem keys_of_forall₂ {β : Type} {es : List (Value × Value)} {fs : List (String × β)}
    (h : List.Forall₂ (fun e f => e.1 = Value.text f.1) es fs) :
    es.map (·.1) = (fs.map (·.1)).map .text := by
  rw [← List.forall₂_eq_eq_eq, List.map_map, List.forall₂_map_left_iff, List.forall₂_map_right_iff]
  exact h

/-- Entries whose keys are the names of a record have different keys. -/
theorem nodup_of_names {β : Type} {es : List (Value × Value)} {fs : List (String × β)}
    (names : es.map (·.1) = ((Record.ofList fs).map (·.1)).map .text) : (es.map (·.1)).Nodup := by
  rw [names]
  exact (Record.names_ofList_nodup fs).map fun _ _ => Value.text.inj

/-- A mapping holds what a record holds exactly if the names of the record are its keys, and each entry
holds what the field with that name holds. -/
theorem sameContent_record_iff {v : Value} {es : List (Value × Value)} (mapping : v.entries? = some es)
    {ws : List (String × Value)} : v.SameContent (.record (Record.ofList ws)) ↔
      es.map (·.1) = ((Record.ofList ws).map (·.1)).map .text ∧
        ∀ f ∈ Record.ofList ws, ∀ x, (.text f.1, x) ∈ es → x.SameContent f.2 := by
  constructor
  · intro same
    cases same with
    | mapping left right keys values =>
      obtain rfl := Option.some.inj (mapping.symm.trans left)
      obtain rfl := Option.some.inj right
      rw [List.map_map, List.forall₂_map_left_iff, List.forall₂_map_right_iff] at keys values
      have named : List.Forall₂ (fun e f => e.1 = Value.text f.1) es (Record.ofList ws) :=
        keys.imp fun _ _ h => h.eq_of_scalar rfl
      refine ⟨keys_of_forall₂ named, fun f hf x hx => ?_⟩
      obtain ⟨g, hg, key, same⟩ :=
        exists_mem_of_forall₂ (named.mp (fun _ _ => And.intro) values) _ hx
      obtain rfl := List.inj_on_of_nodup_map (Record.names_ofList_nodup ws) hf hg (Value.text.inj key)
      exact same
  · rintro ⟨names, values⟩
    rw [List.map_map] at names
    refine .mapping mapping rfl ?_ ?_
    · rw [names, List.map_map, List.forall₂_map_left_iff, List.forall₂_map_right_iff, List.forall₂_same]
      exact fun f _ => .text f.1
    · rw [List.map_map, List.forall₂_map_left_iff, List.forall₂_map_right_iff]
      exact forall₂_of_map_eq names fun e he f hf (key : e.1 = .text f.1) =>
        values f hf e.2 (key ▸ he)

/-- A name that is looked up among the fields of a record is not the name of its ancestry. -/
theorem own_of_fills {es : List (Value × Value)} {ns : List (String × Kind)} {ws : List (String × Value)}
    (names : es.map (·.1) = ((Record.ofList ns).map (·.1)).map .text)
    (each : List.Forall₂ (Fills es) ns ws) : Record.ancestry ∉ ns.map (·.1) := by
  intro h
  obtain ⟨e, he, named⟩ := List.mem_map.1 h
  obtain ⟨f, -, -, x, found, -⟩ := exists_mem_of_forall₂ each e he
  have key : Value.text e.1 ∈ es.map (·.1) := List.mem_map_of_mem (mem_of_lookup found)
  rw [names, named, List.mem_map_of_injective fun _ _ => Value.text.inj] at key
  exact (Record.inOrder_ofList ns).own key

theorem keeps_struct {ns : List (String × Kind)} (nodup : (ns.map (·.1)).Nodup)
    (elements : ∀ e ∈ ns, e.2.Keeps) : (struct ns).Keeps := by
  intro v wellFormed
  constructor
  · rintro ⟨_, hw, same⟩
    obtain ⟨es, ws, mapping, each, rfl⟩ := cast_struct_eq_ok.1 hw
    have parts := wellFormed.entries mapping
    obtain ⟨names, values⟩ := (sameContent_record_iff mapping).1 same
    have placed := Record.names_of_forall₂ (fun _ _ h => h.1)
      (Record.forall₂_ofList (fun _ _ h => h.1) each)
    rw [← placed] at names
    have own := own_of_fills names each
    refine .struct mapping own names fun e he x hx => ?_
    obtain ⟨f, hf, named, y, found, cast⟩ := exists_mem_of_forall₂ each e he
    obtain rfl : y = x := Option.some.inj (found.symm.trans (lookup_of_mem (nodup_of_names names) hx))
    rw [named] at hx
    have kept := Record.names_of_forall₂ (fun _ _ h => h.1) each
    have there : f ∈ Record.ofList ws := (Record.ofList_perm (kept ▸ nodup) (kept ▸ own)).mem_iff.2 hf
    exact (elements e he y (parts _ hx).2).1 ⟨f.2, cast, values f there y hx⟩
  · intro represents
    cases represents with
    | @struct _ _ es mapping own names values =>
      have parts := wellFormed.entries mapping
      have distinct := nodup_of_names names
      obtain ⟨ws, kept⟩ : ∃ ws : List (String × Value), List.Forall₂ (fun e f => e.1 = f.1 ∧
          ∃ x, lookup e.1 es = some x ∧ e.2.cast x = .ok f.2 ∧ x.SameContent f.2) ns ws := by
        refine exists_forall₂_iff.2 fun e he => ?_
        have key : Value.text e.1 ∈ es.map (·.1) := by
          rw [names]
          exact List.mem_map_of_mem
            (List.mem_map_of_mem ((Record.ofList_perm nodup own).mem_iff.2 he))
        obtain ⟨⟨_, x⟩, hx, rfl⟩ := List.mem_map.1 key
        obtain ⟨w, hw, same⟩ := (elements e he x (parts _ hx).2).2 (values e he x hx)
        exact ⟨(e.1, w), rfl, x, lookup_of_mem distinct hx, hw, same⟩
      have placed := Record.forall₂_ofList (fun _ _ h => h.1) kept
      refine ⟨.record (Record.ofList ws), cast_struct_eq_ok.2 ⟨es, ws, mapping, kept.imp ?_, rfl⟩,
        (sameContent_record_iff mapping).2 ⟨?_, ?_⟩⟩
      · rintro e f ⟨named, x, found, cast, -⟩
        exact ⟨named, x, found, cast⟩
      · rw [names, Record.names_of_forall₂ (fun _ _ h => h.1) placed]
      · refine forall_right_of_forall₂ ?_ placed
        rintro e f ⟨named, x, found, -, same⟩ y hy
        obtain rfl : x = y := Option.some.inj (found.symm.trans (lookup_of_mem distinct (named ▸ hy)))
        exact same

/-- **A cast keeps the content of a value exactly if the kind represents the value.** -/
theorem keeps_of_distinct {k : Kind} (distinct : k.Distinct) : k.Keeps := by
  induction distinct with
  | primitive p => exact keeps_primitive p
  | array _ element => exact keeps_array element
  | map _ _ key value => exact keeps_map key value
  | struct names _ elements => exact keeps_struct names elements

end Kind
end QueryAlgebra
