import QueryAlgebra.Feature.Build
import QueryAlgebra.Kind.OfValue
import QueryAlgebra.Proofs.Kind.Represents
import QueryAlgebra.Proofs.Tree.Kinds

/-!
# Kinds of values

The kind of a value is read off from a part of it, the first item of a list or the first entry of a mapping
whose kinds agree, and then the whole value is cast to that kind.

* `Value.Inferred`: what the kind of a value has been read off from.
* `Value.distinct_of_kindOf`: structs read off from values have elements with different names.
* `Value.Regular`: values in which all items of a list are of one kind.
* `Value.Regular.represented_once_cast`: the kind of such a value represents it or refuses it.
* `Value.literal_keeps`: which values their literals hold unchanged.
-/

namespace QueryAlgebra

namespace Value

/-- What the kind of a value has been read off from. -/
inductive Inferred : Value → Kind → Prop
  | scalar {v : Value} {p : Primitive} (form : Primitive.ofValue? v = some p) : Inferred v (.primitive p)
  | list {v : Value} {r : List Value} {e : Kind} (first : v.kindOf = .ok e) :
    Inferred (.list (v :: r)) (.array e)
  | map {v : Value} {es : List (Value × Value)} {a b : Kind} (mapping : v.entries? = some es)
    (key : ∃ e ∈ es, e.1.kindOf = .ok a) (value : ∃ e ∈ es, e.2.kindOf = .ok b)
    (keys : ∀ e ∈ es, ∃ k, e.1.kindOf = .ok k ∧ k.same a = true)
    (values : ∀ e ∈ es, ∃ k, e.2.kindOf = .ok k ∧ k.same b = true) : Inferred v (.map a b)
  | struct {v : Value} {es : List (Value × Value)} {ns : List (String × Kind)}
    (mapping : v.entries? = some es) (names : (ns.map (·.1)).Nodup)
    (elements : List.Forall₂ (fun e n => e.1 = .text n.1 ∧ e.2.kindOf = .ok n.2) es ns) :
    Inferred v (.struct ns)

theorem kindsOfKeys_eq_mapM (es : List (Value × Value)) :
    kindsOfKeys es = es.mapM fun e => e.1.kindOf := by
  induction es with
  | nil => rfl
  | cons e r ih => rw [kindsOfKeys, ih, List.mapM_cons]

theorem kindsOfValues_eq_mapM (es : List (Value × Value)) :
    kindsOfValues es = es.mapM fun e => e.2.kindOf := by
  induction es with
  | nil => rfl
  | cons e r ih => rw [kindsOfValues, ih, List.mapM_cons]

theorem kindsOfFields_eq_mapM (fs : List (String × Value)) :
    kindsOfFields fs = fs.mapM fun f => f.2.kindOf := by
  induction fs with
  | nil => rfl
  | cons f r ih => rw [kindsOfFields, ih, List.mapM_cons]

/-- The kind of a mapping is read off from the kinds of its keys and of its values. -/
theorem kindOf_mapping {v : Value} {es : List (Value × Value)} (mapping : v.entries? = some es) {k : Kind}
    (h : v.kindOf = .ok k) : ∃ ks vs, List.Forall₂ (fun e k => e.1.kindOf = .ok k) es ks ∧
      List.Forall₂ (fun e k => e.2.kindOf = .ok k) es vs ∧
      Kind.ofMapping v (es.map (·.1)) ks vs = .ok k := by
  cases v with
  | dict =>
    obtain rfl := Option.some.inj mapping
    rw [kindOf, kindsOfKeys_eq_mapM, kindsOfValues_eq_mapM] at h
    obtain ⟨ks, hks, h⟩ := bind_eq_ok.1 h
    obtain ⟨vs, hvs, h⟩ := bind_eq_ok.1 h
    exact ⟨ks, vs, mapM_eq_ok hks, mapM_eq_ok hvs, h⟩
  | record fs =>
    obtain rfl := Option.some.inj mapping
    rw [kindOf, kindsOfFields_eq_mapM] at h
    obtain ⟨vs, hvs, h⟩ := bind_eq_ok.1 h
    refine ⟨fs.map fun _ => .primitive .string, vs, ?_, List.forall₂_map_left_iff.2 (mapM_eq_ok hvs), ?_⟩
    · rw [List.forall₂_map_left_iff, List.forall₂_map_right_iff, List.forall₂_same]
      exact fun f _ => rfl
    · rw [List.map_map]
      exact h
  | _ => cases mapping

end Value

namespace Kind

theorem eq_string_of_same {k : Kind} (h : k.same (.primitive .string) = true) :
    k = .primitive .string := by
  have keys : k.key = "String" := beq_iff_eq.1 h
  cases k with
  | primitive p => cases p <;> simp [key, Primitive.name] at keys ⊢
  | _ =>
    have texts := congrArg String.toList keys
    simp [key] at texts

/-- A mapping is a map of the kinds of its first entry, or a struct of all its entries. -/
theorem ofMapping_eq_ok {whole : Value} {keys : List Value} {ks vs : List Kind} {k : Kind}
    (h : ofMapping whole keys ks vs = .ok k) :
    (∃ a ∈ ks, ∃ b ∈ vs, (∀ x ∈ ks, x.same a = true) ∧ (∀ x ∈ vs, x.same b = true) ∧ k = .map a b) ∨
      (∀ x ∈ ks, x = .primitive .string) ∧ (((keys.map Value.plain).zip vs).map (·.1)).Nodup ∧
        k = .struct ((keys.map Value.plain).zip vs) := by
  unfold ofMapping at h
  split at h
  · rename_i a ks b vs
    split at h
    · rename_i uniform
      have first : ∀ x : Kind, x.same x = true := fun x => by simp [same]
      obtain ⟨hk, hv⟩ : (∀ x ∈ ks, x.same a = true) ∧ ∀ x ∈ vs, x.same b = true := by
        simpa [allSame] using uniform
      obtain rfl := Except.ok.inj h
      exact .inl ⟨a, List.mem_cons_self, b, List.mem_cons_self,
        List.forall_mem_cons.2 ⟨first a, hk⟩, List.forall_mem_cons.2 ⟨first b, hv⟩, rfl⟩
    · split at h
      · rename_i texts
        unfold structOf at h
        split at h
        · cases h
        · rename_i distinct
          obtain rfl := Except.ok.inj h
          exact .inr ⟨fun x hx => eq_string_of_same (List.all_eq_true.1 texts x hx),
            (nodup_of_firstRepeated distinct).1, rfl⟩
      · obtain ⟨_, -, h⟩ := bind_eq_ok.1 h
        exact absurd h throw_ne_ok
  · cases h

end Kind

namespace Value

/-- Only a text is of the kind of texts. -/
theorem text_of_kindOf {v : Value} (h : v.kindOf = .ok (.primitive .string)) : ∃ s, v = .text s := by
  have compound : ∀ {es : List (Value × Value)}, v.entries? ≠ some es := fun mapping => by
    obtain ⟨ks, vs, -, -, h⟩ := kindOf_mapping mapping h
    rcases Kind.ofMapping_eq_ok h with ⟨_, -, _, -, -, -, wrong⟩ | ⟨-, -, wrong⟩
    · cases wrong
    · cases wrong
  cases v with
  | text s => exact ⟨s, rfl⟩
  | number n => cases whole : n.isWhole <;> simp [kindOf, Primitive.ofValue?, whole] at h
  | list items => cases items <;> simp [kindOf] at h
  | dict => exact absurd rfl compound
  | record => exact absurd rfl compound
  | _ => cases h

/-- Entries beside the pairs of what is read off from them and a counterpart. -/
theorem forall₂_zip_map {α β γ : Type} {R : α → β → Prop} (f : α → γ) {as : List α} {bs : List β}
    (h : List.Forall₂ R as bs) :
    List.Forall₂ (fun a p => p.1 = f a ∧ R a p.2) as ((as.map f).zip bs) := by
  induction h with
  | nil => exact .nil
  | cons first _ ih => exact .cons ⟨rfl, first⟩ ih

/-- The kind of a value has been read off from it. -/
theorem inferred_of_kindOf {v : Value} {k : Kind} (h : v.kindOf = .ok k) : v.Inferred k := by
  have ofMapping : ∀ {es : List (Value × Value)}, v.entries? = some es → v.Inferred k := by
    intro es mapping
    obtain ⟨ks, vs, hks, hvs, h⟩ := kindOf_mapping mapping h
    rcases Kind.ofMapping_eq_ok h with ⟨a, ha, b, hb, keys, values, rfl⟩ | ⟨texts, distinct, rfl⟩
    · refine .map mapping ?_ ?_ (fun e he => ?_) fun e he => ?_
      · exact exists_mem_of_forall₂ (List.Forall₂.flip (R := flip _) hks) a ha
      · exact exists_mem_of_forall₂ (List.Forall₂.flip (R := flip _) hvs) b hb
      · obtain ⟨k, hk, kind⟩ := exists_mem_of_forall₂ hks e he
        exact ⟨k, kind, keys k hk⟩
      · obtain ⟨k, hk, kind⟩ := exists_mem_of_forall₂ hvs e he
        exact ⟨k, kind, values k hk⟩
    · have named : ∀ e ∈ es, e.1 = .text e.1.plain := fun e he => by
        obtain ⟨k, hk, kind⟩ := exists_mem_of_forall₂ hks e he
        obtain ⟨s, text⟩ := text_of_kindOf (texts k hk ▸ kind)
        rw [text]
        rfl
      refine .struct mapping distinct ?_
      rw [List.map_map]
      refine ((List.forall₂_and_left _ _).2 ⟨named, forall₂_zip_map _ hvs⟩).imp ?_
      rintro e n ⟨text, name, kind⟩
      exact ⟨name ▸ text, kind⟩
  cases v with
  | list items =>
    cases items with
    | nil => cases h
    | cons w r =>
      rw [kindOf] at h
      obtain ⟨e, first, h⟩ := bind_eq_ok.1 h
      obtain rfl := pure_eq_ok.1 h
      exact .list first
  | dict => exact ofMapping rfl
  | record => exact ofMapping rfl
  | null => cases h
  | absent => cases h
  | _ =>
    obtain rfl := Except.ok.inj h
    exact .scalar rfl

theorem distinct_of_text (s : String) (k : Kind) (h : (text s).kindOf = .ok k) : k.Distinct := by
  obtain rfl := Except.ok.inj h
  exact .primitive _

/-- **Structs read off from values have elements with different names.** -/
theorem distinct_of_kindOf : ∀ (v : Value) (k : Kind), v.kindOf = .ok k → k.Distinct := by
  refine partInduction fun v ih k h => ?_
  cases inferred_of_kindOf h with
  | scalar => exact .primitive _
  | list first => exact .array (ih _ List.mem_cons_self _ first)
  | map mapping key value =>
    have entries := forall_entries distinct_of_text ih mapping
    obtain ⟨e, he, key⟩ := key
    obtain ⟨f, hf, value⟩ := value
    exact .map ((entries e he).1 _ key) ((entries f hf).2 _ value)
  | struct mapping names elements =>
    have entries := forall_entries distinct_of_text ih mapping
    refine .struct names fun n hn => ?_
    obtain ⟨e, he, -, kind⟩ := exists_mem_of_forall₂ (List.Forall₂.flip (R := flip _) elements) n hn
    exact (entries e he).2 _ kind

/-! ### Regular values -/

/-- All items of a list are of one kind, and the elements of a struct have legible names in the order of a
record. -/
structure Even (v : Value) : Prop where
  items : ∀ {vs : List Value}, v = .list vs → ∀ a ∈ vs, ∀ b ∈ vs, a.kindOf = b.kindOf
  names : ∀ {ns : List (String × Kind)}, v.kindOf = .ok (.struct ns) →
    Record.InOrder (ns.map (·.1)) ∧ ∀ n ∈ ns, Kind.LegibleName n.1

/-- The value and all its parts are even. -/
inductive Regular : Value → Prop
  | intro {v : Value} (own : v.Even) (parts : ∀ w ∈ v.parts, w.Regular) : v.Regular

theorem regular_of_scalar {v : Value} {p : Primitive} (form : Primitive.ofValue? v = some p) :
    v.Regular := by
  have simple : v.parts = [] ∧ v.kindOf = .ok (.primitive p) := by
    cases v <;> simp_all [Primitive.ofValue?, parts, kindOf]
  refine ⟨⟨fun items => ?_, fun h => ?_⟩, by simp [simple.1]⟩
  · rw [items] at form
    cases form
  · rw [simple.2] at h
    cases h

theorem legible_of_text (s : String) (k : Kind) (h : (text s).kindOf = .ok k) : k.Legible := by
  obtain rfl := Except.ok.inj h
  trivial

/-- Kinds of regular values are legible. -/
theorem Regular.legible {v : Value} (h : v.Regular) : ∀ k, v.kindOf = .ok k → k.Legible := by
  induction h with
  | @intro v own _ ih =>
    intro k h
    cases inferred_of_kindOf h with
    | scalar => trivial
    | @list _ _ e first =>
      have element : e.Legible := ih _ List.mem_cons_self _ first
      exact element
    | map mapping key value =>
      have entries := forall_entries legible_of_text ih mapping
      obtain ⟨e, he, key⟩ := key
      obtain ⟨f, hf, value⟩ := value
      exact ⟨(entries e he).1 _ key, (entries f hf).2 _ value⟩
    | struct mapping names elements =>
      have entries := forall_entries legible_of_text ih mapping
      refine Kind.elementsLegible_iff.2 fun n hn => ⟨(own.names h).2 n hn, ?_⟩
      obtain ⟨e, he, -, kind⟩ := exists_mem_of_forall₂ (List.Forall₂.flip (R := flip _) elements) n hn
      exact (entries e he).2 _ kind

theorem represents_of_scalar {v w : Value} {p : Primitive} (form : Primitive.ofValue? v = some p)
    (cast : (Kind.primitive p).cast v = .ok w) : (Kind.primitive p).Represents v := by
  replace cast := Kind.cast_primitive_eq_ok.1 cast
  cases v with
  | bool b =>
    obtain rfl := Option.some.inj form
    exact .boolean b
  | number n =>
    cases whole : n.isWhole with
    | true =>
      obtain rfl : Primitive.integer = p := by simpa [Primitive.ofValue?, whole] using form
      exact .integer whole
    | false =>
      obtain rfl : Primitive.float = p := by simpa [Primitive.ofValue?, whole] using form
      obtain ⟨m, checked, -⟩ := Option.map_eq_some_iff.1 cast
      obtain ⟨amount, rfl⟩ := Kind.checked_eq_some.1 checked
      exact .float (by simpa [Value.amount] using amount)
  | text s =>
    obtain rfl := Option.some.inj form
    exact .string s
  | date t =>
    obtain rfl := Option.some.inj form
    cases t with
    | none => cases cast
    | some t => exact .timestamp t
  | _ => cases form

section Mappings

variable {v w : Value} {es : List (Value × Value)}

/-- The kind of the value represents it, or the value cannot be cast to it. -/
def RepresentedOnceCast (v : Value) : Prop :=
  ∀ k w, v.kindOf = .ok k → k.cast v = .ok w → k.Represents v

theorem representedOnceCast_of_text (s : String) : (text s).RepresentedOnceCast := fun k w h _ => by
  obtain rfl := Except.ok.inj h
  exact .string s

/-- A map of entries that are all of its kinds. -/
theorem represents_map_of_cast {a b : Kind} (mapping : v.entries? = some es)
    (parts : ∀ e ∈ es, e.1.RepresentedOnceCast ∧ e.2.RepresentedOnceCast)
    (keys : ∀ e ∈ es, e.1.kindOf = .ok a) (values : ∀ e ∈ es, e.2.kindOf = .ok b)
    (cast : (Kind.map a b).cast v = .ok w) : (Kind.map a b).Represents v := by
  obtain ⟨_, fs, mapping', each, -⟩ := Kind.cast_map_eq_ok.1 cast
  obtain rfl := Option.some.inj (mapping.symm.trans mapping')
  refine .map mapping (fun e he => ?_) fun e he => ?_
  · obtain ⟨f, -, cast, -⟩ := exists_mem_of_forall₂ each e he
    exact (parts e he).1 a _ (keys e he) cast
  · obtain ⟨f, -, -, cast⟩ := exists_mem_of_forall₂ each e he
    exact (parts e he).2 b _ (values e he) cast

/-- A struct of all entries, in the order of a record. -/
theorem represents_struct_of_cast {ns : List (String × Kind)} (mapping : v.entries? = some es)
    (parts : ∀ e ∈ es, e.1.RepresentedOnceCast ∧ e.2.RepresentedOnceCast)
    (order : Record.InOrder (ns.map (·.1)))
    (elements : List.Forall₂ (fun e n => e.1 = .text n.1 ∧ e.2.kindOf = .ok n.2) es ns)
    (cast : (Kind.struct ns).cast v = .ok w) : (Kind.struct ns).Represents v := by
  obtain ⟨_, ws, mapping', each, -⟩ := Kind.cast_struct_eq_ok.1 cast
  obtain rfl := Option.some.inj (mapping.symm.trans mapping')
  have keys : es.map (·.1) = ((Record.ofList ns).map (·.1)).map .text := by
    rw [Record.ofList_of_inOrder order]
    exact Kind.keys_of_forall₂ (elements.imp fun _ _ h => h.1)
  have nodup := Kind.nodup_of_names keys
  refine .struct mapping order.own keys fun n hn x hx => ?_
  obtain ⟨f, -, -, y, found, cast⟩ := exists_mem_of_forall₂ each n hn
  obtain rfl : y = x := Option.some.inj (found.symm.trans (Kind.lookup_of_mem nodup hx))
  obtain ⟨e, he, key, kind⟩ := exists_mem_of_forall₂ (List.Forall₂.flip (R := flip _) elements) n hn
  obtain rfl := List.inj_on_of_nodup_map nodup he hx key
  exact (parts _ hx).2 _ _ kind cast

end Mappings

/-- **The kind of a regular value represents it, or the value cannot be cast to it.** -/
theorem Regular.represented_once_cast {v : Value} (h : v.Regular) : v.RepresentedOnceCast := by
  induction h with
  | @intro v own parts ih =>
    intro k w h cast
    have legible := (Regular.intro own parts).legible k h
    cases inferred_of_kindOf h with
    | scalar form => exact represents_of_scalar form cast
    | @list u r e first =>
      obtain ⟨vs, ws, items, each, -⟩ := Kind.cast_array_eq_ok.1 cast
      obtain rfl := Value.list.inj items
      refine .array fun item hitem => ?_
      obtain ⟨w, -, cast⟩ := exists_mem_of_forall₂ each item hitem
      have kind : item.kindOf = .ok e := (own.items rfl item hitem u List.mem_cons_self).trans first
      exact ih item hitem e w kind cast
    | @map _ es a b mapping key value keys values =>
      -- Keys of legible kinds tell them apart, so the kinds that agree are one kind.
      have ⟨legibleKey, legibleValue⟩ : a.Legible ∧ b.Legible := legible
      have told := forall_entries legible_of_text (fun w hw => (parts w hw).legible) mapping
      refine represents_map_of_cast mapping (forall_entries representedOnceCast_of_text ih mapping)
        (fun e he => ?_) (fun e he => ?_) cast
      · obtain ⟨k, kind, same⟩ := keys e he
        rwa [(Kind.same_iff_eq ((told e he).1 k kind) legibleKey).1 same] at kind
      · obtain ⟨k, kind, same⟩ := values e he
        rwa [(Kind.same_iff_eq ((told e he).2 k kind) legibleValue).1 same] at kind
    | struct mapping names elements =>
      exact represents_struct_of_cast mapping (forall_entries representedOnceCast_of_text ih mapping)
        (own.names h).1 elements cast

/-! ### Literals -/

/-- Two numbers of which the first is whole are a list of whole numbers. -/
theorem literalOf_pair {m n : Number} (whole : m.isWhole = true) (finite : n.isFinite = true) :
    Feature.literalOf (.list [.number m, .number n]) none =
      .ok (.literal (.list [.number m, .number n.trunc]) (.array (.primitive .integer))) := by
  simp [Feature.literalOf, kindOf, Primitive.ofValue?, whole, Kind.cast, Primitive.cast?, Number.checked,
    amount, finite, Number.isFinite_of_isWhole whole, Number.trunc_of_isWhole whole]

/-- Five halves are two and a fraction. -/
theorem trunc_five_halves :
    let n := Number.ofRatio false (5 * stepsPerOne) 2
    n.isFinite = true ∧ n.isWhole = false ∧ n.trunc = .ofNat 2 := by
  obtain ⟨s, successor⟩ : ∃ s, leastPower = s + 1 := ⟨1073, rfl⟩
  have sparse : Sparse (5 * Nat.pow 2 s) := sparse_of_le s (by decide)
  have pos : 0 < Nat.pow 2 s := Nat.pow_pos (by decide)
  have one : stepsPerOne = Nat.pow 2 s * 2 := by
    unfold stepsPerOne
    rw [successor]
    rfl
  generalize Nat.pow 2 s = p at *
  have small : 5 * p < stepsLimit := by
    have many : 3 ≤ Nat.pow 2 1024 := by decide +kernel
    unfold stepsLimit
    rw [one]
    generalize Nat.pow 2 1024 = limit at many
    nlinarith
  have steps : Number.ofRatio false (5 * stepsPerOne) 2 = .finite false ⟨5 * p, sparse, small⟩ := by
    refine Number.ofRatio_eq false ⟨5 * p, sparse, small⟩ ?_
    rw [one, ← Nat.mul_assoc]
    exact nearest_self sparse (by decide)
  have parted : 5 * p = p + p * 2 * 2 := by ring
  intro n
  have itself : n = .finite false ⟨5 * p, sparse, small⟩ := steps
  rw [itself]
  refine ⟨rfl, ?_, ?_⟩
  · have rest : 5 * p % stepsPerOne = p := by
      rw [one, parted, Nat.add_mul_mod_self_left, Nat.mod_eq_of_lt (by omega)]
    simp [Number.isWhole, rest]
    omega
  · have twice : 5 * p / stepsPerOne = 2 := by
      rw [one, parted, Nat.add_mul_div_left _ _ (by omega), Nat.div_eq_of_lt (by omega)]
    simp [Number.trunc, twice, Number.ofNat]

/-- **The literal of a value holds what the value holds exactly if the kind of the value represents it**,
and a value that its kind represents has a literal. Where all items of every list are of one kind, and the
elements of structs are in order, a value has a literal only if it is held unchanged. -/
theorem literal_keeps {v : Value} (wellFormed : v.WellFormed) :
    (∀ f, Feature.literalOf v none = .ok f → ∃ k w, v.kindOf = .ok k ∧ f = .literal w k ∧
      (v.SameContent w ↔ k.Represents v)) ∧
    (∀ k, v.kindOf = .ok k → k.Represents v →
      ∃ w, Feature.literalOf v none = .ok (.literal w k) ∧ v.SameContent w) ∧
    (v.Regular → ∀ w k, Feature.literalOf v none = .ok (.literal w k) → v.SameContent w) := by
  have made : ∀ {f : Feature}, Feature.literalOf v none = .ok f ↔
      ∃ k w, v.kindOf = .ok k ∧ k.cast v = .ok w ∧ f = .literal w k := by
    intro f
    simp only [Feature.literalOf, bind_eq_ok, pure_eq_ok]
    constructor
    · rintro ⟨k, kind, w, cast, rfl⟩
      exact ⟨k, w, kind, cast, rfl⟩
    · rintro ⟨k, w, kind, cast, rfl⟩
      exact ⟨k, kind, w, cast, rfl⟩
  have kept : ∀ {k w}, v.kindOf = .ok k → k.cast v = .ok w → (v.SameContent w ↔ k.Represents v) := by
    intro k w kind cast
    rw [← Kind.keeps_of_distinct (distinct_of_kindOf v k kind) v wellFormed]
    constructor
    · exact fun same => ⟨w, cast, same⟩
    · rintro ⟨u, cast', same⟩
      exact Except.ok.inj (cast'.symm.trans cast) ▸ same
  refine ⟨fun f h => ?_, fun k kind represents => ?_, fun regular w k h => ?_⟩
  · obtain ⟨k, w, kind, cast, rfl⟩ := made.1 h
    exact ⟨k, w, kind, rfl, kept kind cast⟩
  · obtain ⟨w, cast, same⟩ :=
      (Kind.keeps_of_distinct (distinct_of_kindOf v k kind) v wellFormed).2 represents
    exact ⟨w, made.2 ⟨k, w, kind, cast, rfl⟩, same⟩
  · obtain ⟨k, w, kind, cast, same⟩ := made.1 h
    obtain ⟨rfl, rfl⟩ := Feature.literal.inj same
    exact (kept kind cast).2 (regular.represented_once_cast _ _ kind cast)

/-- A dictionary with values of several kinds is held as a record. -/
theorem literal_keeps_mixed :
    let v : Value := .dict [(.text "name", .text "Ada"), (.text "flags", .list [.bool true, .bool false])]
    let w : Value := .record [("name", .text "Ada"), ("flags", .list [.bool true, .bool false])]
    let k : Kind := .struct [("name", .primitive .string), ("flags", .array (.primitive .boolean))]
    v.WellFormed ∧ v.Regular ∧ Feature.literalOf v none = .ok (.literal w k) ∧ v.SameContent w ∧
      k.Represents v := by
  intro v w k
  have wellFormed : v.WellFormed := by
    have scalar : ∀ {u : Value}, u.Tidy → u.parts = [] → u.WellFormed := fun tidy none =>
      ⟨tidy, by simp [none]⟩
    have flags : (Value.list [.bool true, .bool false]).WellFormed :=
      ⟨trivial, by simp [parts, scalar (u := .bool _) trivial rfl]⟩
    refine ⟨⟨by simp [same], by simp [asKey]⟩, ?_⟩
    simp [v, parts, flags, scalar (u := .text _) trivial rfl]
  have regular : v.Regular := by
    have text : ∀ s, (Value.text s).Regular := fun s => regular_of_scalar rfl
    have bool : ∀ b, (Value.bool b).Regular := fun b => regular_of_scalar rfl
    have flags : (Value.list [.bool true, .bool false]).Regular := by
      refine ⟨⟨fun items => ?_, fun h => ?_⟩, by simp [parts, bool]⟩
      · obtain rfl := Value.list.inj items
        simp [kindOf, Primitive.ofValue?]
      · simp [kindOf, Primitive.ofValue?] at h
    refine ⟨⟨fun items => ?_, fun {ns} h => ?_⟩, by simp [v, parts, flags, text]⟩
    · simp [v] at items
    · have kind : v.kindOf = .ok k := rfl
      obtain rfl := Kind.struct.inj (Except.ok.inj (kind.symm.trans h))
      exact ⟨⟨by decide, by decide⟩, by simp [Kind.LegibleName]⟩
  obtain ⟨same, -, kept⟩ := literal_keeps wellFormed
  have made : Feature.literalOf v none = .ok (.literal w k) := rfl
  obtain ⟨k', w', kind, literal, keeps⟩ := same _ made
  obtain ⟨rfl, rfl⟩ := Feature.literal.inj literal
  have content := kept regular w k made
  exact ⟨wellFormed, regular, made, content, keeps.1 content⟩

/-- The fraction of an item is lost if the first item is whole. -/
theorem literal_loses_fraction :
    let v : Value := .list [.number (.ofNat 1), .number (.ofRatio false (5 * stepsPerOne) 2)]
    let w : Value := .list [.number (.ofNat 1), .number (.ofNat 2)]
    v.WellFormed ∧ Feature.literalOf v none = .ok (.literal w (.array (.primitive .integer))) ∧
      ¬v.SameContent w := by
  intro v w
  obtain ⟨finite, fraction, cut⟩ := trunc_five_halves
  have whole : (Number.ofNat 1).isWhole = true := by decide +kernel
  have wellFormed : v.WellFormed := by
    have number : ∀ n, (Value.number n).WellFormed := fun n => ⟨trivial, by simp [parts]⟩
    exact ⟨trivial, by simp [v, parts, number]⟩
  refine ⟨wellFormed, ?_, fun same => ?_⟩
  · have made := literalOf_pair whole finite
    rwa [cut] at made
  · have same : (Value.list _).SameContent (.list _) := same
    cases same with
    | list items =>
      have second := (List.forall₂_cons.1 (List.forall₂_cons.1 items).2).1
      rw [Value.number.inj (second.eq_of_scalar rfl)] at fraction
      exact absurd fraction (by decide +kernel)
    | mapping left => cases left

end Value

end QueryAlgebra
