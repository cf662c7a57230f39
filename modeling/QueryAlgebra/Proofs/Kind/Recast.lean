import QueryAlgebra.Proofs.Instant.Midnight
import QueryAlgebra.Proofs.Kind.Represents
import QueryAlgebra.Proofs.Number.Places
import QueryAlgebra.Proofs.Tree.Kinds

/-!
# Values that have been cast

A cast may cut off fractions, read texts as numbers, merge the keys of maps and put the elements of structs
in order. What it gives is of the kind, and another cast leaves it as it is.

* `Kind.Owned`: kinds whose structs hold all their elements.
* `Kind.Settles`: what a cast to the kind gives is cast to itself.
* `Kind.represents_of_cast?`, `Kind.settles_array`, `Kind.settles_map`, `Kind.settles_struct`: one lemma for
  each form of a kind.
* `Kind.cast_idempotent`: every kind settles.
* `Kind.date_keeps_day`: a date that is cast keeps its day exactly if its year has more than two digits.
-/

namespace QueryAlgebra.Kind

/-- No struct inside the kind has an element with the name of a record's ancestry, which a cast does not
keep. -/
inductive Owned : Kind → Prop
  | primitive (p : Primitive) : Owned (.primitive p)
  | array {e : Kind} (element : e.Owned) : Owned (.array e)
  | map {k e : Kind} (key : k.Owned) (value : e.Owned) : Owned (.map k e)
  | struct {ns : List (String × Kind)} (own : Record.ancestry ∉ ns.map (·.1))
    (kinds : ∀ e ∈ ns, e.2.Owned) : Owned (.struct ns)

/-- Structs are put together of elements with different names. -/
theorem distinct_of_structOf {ns : List (String × Kind)} {k : Kind} (made : structOf ns = .ok k)
    (kinds : ∀ e ∈ ns, e.2.Distinct) : k.Distinct := by
  unfold structOf at made
  split at made
  · cases made
  · rename_i unrepeated
    obtain rfl := Except.ok.inj made
    exact .struct (nodup_of_firstRepeated unrepeated).1 kinds

/-- What a cast to the kind gives is cast to itself. -/
def Settles (k : Kind) : Prop := ∀ {v w : Value}, k.cast v = .ok w → k.cast w = .ok w

/-! ### Scalars -/

/-- A scalar that a cast gives is of the kind. -/
theorem represents_of_cast? {p : Primitive} {v w : Value} (h : p.cast? v = some w) :
    (primitive p).Represents w := by
  cases p <;> simp only [Primitive.cast?, Option.map_eq_some_iff, Option.some.injEq,
    checked_eq_some] at h
  case boolean => exact h ▸ .boolean _
  case integer =>
    obtain ⟨n, ⟨finite, rfl⟩, rfl⟩ := h
    exact .integer (Number.integral_iff.1 (Number.integral_trunc _) (Number.isFinite_trunc finite))
  case float =>
    obtain ⟨n, ⟨amount, rfl⟩, rfl⟩ := h
    exact .float (by simpa using amount)
  case decimal =>
    obtain ⟨n, ⟨finite, rfl⟩, rfl⟩ := h
    exact .decimal finite
  case string => exact h ▸ .string _
  case date =>
    obtain ⟨t, -, rfl⟩ := h
    obtain ⟨m, start⟩ := Option.isSome_iff_exists.1 t.midnight_isSome
    rw [start]
    exact .date (Instant.midnight_midnight start)
  case timestamp =>
    obtain ⟨t, -, rfl⟩ := h
    exact .timestamp t

/-- Values of a primitive kind are scalars. -/
theorem scalar_of_represents {p : Primitive} {v : Value} (h : (primitive p).Represents v) :
    ∃ q, Primitive.ofValue? v = some q := by
  cases h <;> exact ⟨_, rfl⟩

theorem cast_of_represents {p : Primitive} {w : Value} (h : (primitive p).Represents w) :
    (primitive p).cast w = .ok w := by
  obtain ⟨u, cast, same⟩ := cast?_keeps_iff.2 h
  obtain ⟨q, scalar⟩ := scalar_of_represents (represents_of_cast? cast)
  rw [← same.eq_of_scalar scalar] at cast
  exact cast_primitive_eq_ok.2 cast

theorem settles_primitive (p : Primitive) : (primitive p).Settles := fun h =>
  cast_of_represents (represents_of_cast? (cast_primitive_eq_ok.1 h))

/-! ### Arrays and maps -/

theorem settles_array {e : Kind} (element : e.Settles) : (array e).Settles := by
  intro v w h
  obtain ⟨vs, ws, rfl, each, rfl⟩ := cast_array_eq_ok.1 h
  have again : ∀ w ∈ ws, e.cast w = .ok w :=
    forall_right_of_forall₂ (fun _ _ cast => element cast) each
  exact cast_array_eq_ok.2 ⟨ws, ws, rfl, List.forall₂_same.2 again, rfl⟩

/-- A number of a kind is of the kind without the sign of a zero. -/
theorem represents_unsignedZero {p : Primitive} {n : Number} (h : (primitive p).Represents (.number n)) :
    (primitive p).Represents (.number n.unsignedZero) := by
  unfold Number.unsignedZero
  split
  · rename_i zero
    cases n with
    | finite =>
      cases h with
      | integer whole => exact .integer whole
      | float => exact .float nofun
      | decimal => exact .decimal rfl
    | _ => cases zero
  · exact h

/-- A key that is cast to itself is so in the form in which a dictionary keeps it. -/
theorem cast_asKey {k : Kind} {w : Value} (h : k.cast w = .ok w) : k.cast w.asKey = .ok w.asKey := by
  cases w with
  | number n =>
    cases k with
    | primitive p =>
      exact cast_of_represents (represents_unsignedZero (represents_of_cast? (cast_primitive_eq_ok.1 h)))
    | array =>
      obtain ⟨_, _, wrong, -⟩ := cast_array_eq_ok.1 h
      cases wrong
    | map =>
      obtain ⟨_, _, wrong, -⟩ := cast_map_eq_ok.1 h
      cases wrong
    | struct =>
      obtain ⟨_, _, wrong, -⟩ := cast_struct_eq_ok.1 h
      cases wrong
  | _ => exact h

/-- The form in which a dictionary keeps a key is kept as it is. -/
theorem asKey_asKey (v : Value) : v.asKey.asKey = v.asKey := by
  cases v with
  | number n => exact congrArg Value.number n.unsignedZero_unsignedZero
  | _ => rfl

theorem settles_map {k e : Kind} (key : k.Settles) (value : e.Settles) : (map k e).Settles := by
  intro v w h
  obtain ⟨es, fs, mapping, each, rfl⟩ := cast_map_eq_ok.1 h
  have again : ∀ x ∈ Assoc.ofList Value.same (fs.map fun f => (f.1.asKey, f.2)),
      (k.cast x.1 = .ok x.1 ∧ x.1.asKey = x.1) ∧ e.cast x.2 = .ok x.2 := by
    refine Assoc.ofList_forall (P := fun x => k.cast x = .ok x ∧ x.asKey = x)
      (Q := fun x => e.cast x = .ok x) fun x hx => ?_
    obtain ⟨f, hf, rfl⟩ := List.mem_map.1 hx
    obtain ⟨d, -, hk, he⟩ := exists_mem_of_forall₂ (List.Forall₂.flip (R := flip _) each) f hf
    exact ⟨⟨cast_asKey (key hk), asKey_asKey _⟩, value he⟩
  refine cast_map_eq_ok.2 ⟨_, _, rfl, List.forall₂_same.2 fun x hx => ?_, ?_⟩
  · exact ⟨(again x hx).1.1, (again x hx).2⟩
  · exact (dictOf_of_keys (Assoc.apart_ofList _) fun x hx => (again x hx).1.2).symm

/-! ### Structs -/

theorem settles_struct {ns : List (String × Kind)} (nodup : (ns.map (·.1)).Nodup)
    (own : Record.ancestry ∉ ns.map (·.1)) (elements : ∀ e ∈ ns, e.2.Settles) : (struct ns).Settles := by
  intro v w h
  obtain ⟨es, ws, mapping, each, rfl⟩ := cast_struct_eq_ok.1 h
  have names := Record.names_of_forall₂ (fun _ _ h => h.1) each
  have there := Record.ofList_perm (names ▸ nodup) (names ▸ own)
  have keys : ((Record.ofList ws).map fun f => ((.text f.1, f.2) : Value × Value)).map (·.1)
      = ((Record.ofList ws).map (·.1)).map .text := by simp
  have found : ∀ f ∈ ws, lookup f.1 ((Record.ofList ws).map fun f => (.text f.1, f.2)) = some f.2 :=
    fun f hf => lookup_of_mem (nodup_of_names keys) (List.mem_map_of_mem (there.mem_iff.2 hf))
  have kept : List.Forall₂ (fun f e => f ∈ ws ∧ e ∈ ns ∧ Fills es e f) ws ns :=
    (List.forall₂_and_left _ _).2 ⟨fun f => id, List.Forall₂.flip (R := flip _)
      ((List.forall₂_and_left _ _).2 ⟨fun e => id, each⟩)⟩
  refine cast_struct_eq_ok.2 ⟨_, ws, rfl, List.Forall₂.flip (R := flip _) (kept.imp ?_), rfl⟩
  rintro f e ⟨hf, he, named, x, -, cast⟩
  exact ⟨named, f.2, named ▸ found f hf, elements e he cast⟩

/-- **What a cast gives is cast to itself.** -/
theorem cast_idempotent {k : Kind} (distinct : k.Distinct) (owned : k.Owned) {v w : Value}
    (h : k.cast v = .ok w) : k.cast w = .ok w := by
  suffices settles : k.Settles from settles h
  clear h
  induction distinct with
  | primitive p => exact settles_primitive p
  | array _ element =>
    cases owned with
    | array owned => exact settles_array (element owned)
  | map _ _ key value =>
    cases owned with
    | map ownedKey ownedValue => exact settles_map (key ownedKey) (value ownedValue)
  | struct names _ elements =>
    cases owned with
    | struct own kinds => exact settles_struct names own fun e he => elements e he (kinds e he)

/-- Entries whose keys become one are merged, and the elements of a struct are put in the order of a record. -/
theorem cast_idempotent_merged :
    let late : Instant := ⟨-60572910600000, by decide⟩
    let start : Instant := ⟨-614822400000, by decide⟩
    let e : Kind :=
      .struct [("z", .array (.primitive .string)), ("2", .primitive .date), ("1", .primitive .boolean)]
    let k : Kind := .map (.primitive .boolean) e
    let fields : List (Value × Value) :=
      [(.text "1", .text ""), (.text "z", .list [.null]), (.text "2", .date (some late))]
    let v : Value := .record [("a", .dict fields), ("b", .dict fields)]
    let w : Value := .dict [(.bool true,
      .record [("1", .bool false), ("2", .date (some start)), ("z", .list [.text "null"])])]
    k.cast v = .ok w ∧ k.cast w = .ok w := by
  intro late start e k fields v w
  have distinct : k.Distinct := by
    refine .map (.primitive _) (.struct (by decide) fun e he => ?_)
    simp only [List.mem_cons, List.not_mem_nil, or_false] at he
    rcases he with rfl | rfl | rfl
    · exact .array (.primitive _)
    · exact .primitive _
    · exact .primitive _
  have owned : k.Owned := by
    refine .map (.primitive _) (.struct (by decide) fun e he => ?_)
    simp only [List.mem_cons, List.not_mem_nil, or_false] at he
    rcases he with rfl | rfl | rfl
    · exact .array (.primitive _)
    · exact .primitive _
    · exact .primitive _
  let x : Value := .record [("1", .bool false), ("2", .date (some start)), ("z", .list [.text "null"])]
  have value : e.cast (.dict fields) = .ok x := by
    dsimp only [e, fields, x, late, start]
    rfl
  have cast : k.cast v = .ok w :=
    cast_map_eq_ok.2 ⟨_, [(.bool true, x), (.bool true, x)], rfl,
      .cons ⟨rfl, value⟩ (.cons ⟨rfl, value⟩ .nil), rfl⟩
  exact ⟨cast, cast_idempotent distinct owned cast⟩

/-! ### Days -/

/-- **A value that is cast to a date keeps the day of its instant exactly if the year has more than two
digits**: then the date is the start of the day. Otherwise it is the start of the day with that month and day
nineteen centuries later. -/
theorem date_keeps_day {v : Value} {t : Instant}
    (h : (primitive .timestamp).cast v = .ok (.date (some t))) :
    ∃ m : Instant, (primitive .date).cast v = .ok (.date (some m)) ∧ m.millis % millisPerDay = 0 ∧
      (m.millis ≤ t.millis ∧ t.millis < m.millis + millisPerDay ↔ ¬t.TwoDigit) ∧
      (t.TwoDigit → m.millis =
        Calendar.Day.number ⟨1900 + t.day.year, t.day.month, t.day.day⟩ * millisPerDay) := by
  obtain ⟨u, read, same⟩ := Option.map_eq_some_iff.1 (cast_primitive_eq_ok.1 h)
  obtain rfl : u = t := Option.some.inj (Value.date.inj same)
  obtain ⟨m, start⟩ := Option.isSome_iff_exists.1 u.midnight_isSome
  have whole := Instant.millis_midnight start
  have cast : (primitive .date).cast v = .ok (.date (some m)) :=
    cast_primitive_eq_ok.2 (Option.map_eq_some_iff.2 ⟨u, read, congrArg Value.date start⟩)
  refine ⟨m, cast, ?_, ?_, fun early => ?_⟩
  · rw [whole]
    exact Int.mul_emod_left _ _
  · rw [← Instant.dayNumber_midnight_iff start, whole, ← Instant.dayNumber_eq_iff, eq_comm]
  · rw [whole, Instant.dayNumber_midnight_of_twoDigit start early]

/-- The last instant before the year 0. -/
theorem date_keeps_day_of_last_before :
    let t : Instant := ⟨-62167219200001, by decide⟩
    (primitive .timestamp).cast (.date (some t)) = .ok (.date (some t)) ∧ ¬t.TwoDigit ∧
      ∃ m : Instant, (primitive .date).cast (.date (some t)) = .ok (.date (some m)) ∧
        m.millis % millisPerDay = 0 ∧ m.millis ≤ t.millis ∧ t.millis < m.millis + millisPerDay := by
  intro t
  have read : (primitive .timestamp).cast (.date (some t)) = .ok (.date (some t)) := rfl
  have far : ¬t.TwoDigit := by decide
  obtain ⟨m, cast, whole, kept, -⟩ := date_keeps_day read
  exact ⟨read, far, m, cast, whole, kept.2 far⟩

/-- The afternoon of 9 July 50 is carried to 1950. -/
theorem date_moves_early_day :
    let t : Instant := ⟨-60572910600000, by decide⟩
    (primitive .timestamp).cast (.date (some t)) = .ok (.date (some t)) ∧
      ¬∃ m : Instant, (primitive .date).cast (.date (some t)) = .ok (.date (some m)) ∧
        m.millis % millisPerDay = 0 ∧ m.millis ≤ t.millis ∧ t.millis < m.millis + millisPerDay := by
  intro t
  refine ⟨rfl, ?_⟩
  rintro ⟨m, cast, -, below, -⟩
  have moved : (primitive .date).cast (.date (some t)) = .ok (.date (some ⟨-614822400000, by decide⟩)) := rfl
  obtain rfl := Option.some.inj (Value.date.inj (Except.ok.inj (cast.symm.trans moved)))
  exact absurd below (by decide)

end QueryAlgebra.Kind
