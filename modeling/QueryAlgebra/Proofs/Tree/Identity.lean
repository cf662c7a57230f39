import QueryAlgebra.Proofs.Keyed
import QueryAlgebra.Proofs.Tree.Reading

/-!
# Trees are identified by their keys

* `Feature.key_eq_key_iff`, `OrderTerm.key_eq_key_iff`, `Source.key_eq_key_iff`: built trees without
  structs have one key exactly when a key keeps the same of both.
* `structural_keys`: hence no set, map or subset check of such nodes confuses two of them.
-/

namespace QueryAlgebra

/-! ### Keys of built trees -/

/-- A key keeps the same of features without structs that have one key. -/
theorem Feature.canonical_eq_of_key {f g : Feature} (hf : f.Obeys .distinct)
    (hg : g.Obeys .distinct) (h : f.key = g.key) : f.canonical = g.canonical :=
  (f.key_reads hf g hg [')'] [')'] (Text.stops_cons _ (by decide)) (Text.stops_cons _ (by decide))
    (by rw [h])).1

/-- Features without structs have one key exactly when a key keeps the same of both. -/
theorem Feature.key_eq_iff {f g : Feature} (hf : f.Obeys .distinct) (hg : g.Obeys .distinct) :
    f.key = g.key ↔ f.canonical = g.canonical :=
  ⟨canonical_eq_of_key hf hg, fun h => by rw [← f.key_canonical, h, g.key_canonical]⟩

/-- Built features without structs have one key exactly when a key keeps the same of both. -/
theorem Feature.key_eq_key_iff {f g : Feature} (hf : f.Built) (hg : g.Built)
    (sf : f.Obeys .structFree) (sg : g.Obeys .structFree) :
    f.key = g.key ↔ f.canonical = g.canonical :=
  key_eq_iff (hf.distinct sf) (hg.distinct sg)

/-- Built orderings without structs have one key exactly when a key keeps the same of both. -/
theorem OrderTerm.key_eq_key_iff {o u : OrderTerm} (ho : o.Built) (hu : u.Built)
    (so : o.Obeys .structFree) (su : u.Obeys .structFree) :
    o.key = u.key ↔ o.canonical = u.canonical := by
  constructor
  · intro h
    cases ho with
    | «by» d hf =>
      cases hu with
      | «by» e hg =>
        exact (OrderTerm.key_reads (.by _ d) (hf.distinct so) (.by _ e) (hg.distinct su) [')']
          [')'] (Text.stops_cons _ (by decide)) (Text.stops_cons _ (by decide)) (by rw [h])).1
  · intro h
    rw [← o.key_canonical, h, u.key_canonical]

/-- Built sources without structs have one key exactly when a key keeps the same of both. -/
theorem Source.key_eq_key_iff {s t : Source} (hs : s.Built) (ht : t.Built)
    (ss : s.Obeys .structFree) (st : t.Obeys .structFree) :
    s.key = t.key ↔ s.canonical = t.canonical := by
  constructor
  · intro h
    exact (s.key_reads (hs.distinct ss) t (ht.distinct st) [] [] (by rw [h])).1
  · intro h
    rw [← s.key_canonical, h, t.key_canonical]

/-- **Keys of built trees without structs identify them**, up to signs of zeros and names of
schemas, and no set, map or subset check told by keys confuses two of them. -/
theorem structural_keys :
    (∀ f g : Feature, f.Built → g.Built → f.Obeys .structFree → g.Obeys .structFree →
      (f.key = g.key ↔ f.canonical = g.canonical)) ∧
    (∀ o u : OrderTerm, o.Built → u.Built → o.Obeys .structFree → u.Obeys .structFree →
      (o.key = u.key ↔ o.canonical = u.canonical)) ∧
    (∀ s t : Source, s.Built → t.Built → s.Obeys .structFree → t.Obeys .structFree →
      (s.key = t.key ↔ s.canonical = t.canonical)) ∧
    Keyed.Tells (fun f : Feature => f.Built ∧ f.Obeys .structFree) Feature.canonical ∧
    Keyed.Tells (fun o : OrderTerm => o.Built ∧ o.Obeys .structFree) OrderTerm.canonical ∧
    Keyed.Tells (fun s : Source => s.Built ∧ s.Obeys .structFree) Source.canonical := by
  refine ⟨fun f g hf hg sf sg => Feature.key_eq_key_iff hf hg sf sg,
    fun o u ho hu so su => OrderTerm.key_eq_key_iff ho hu so su,
    fun s t hs ht ss st => Source.key_eq_key_iff hs ht ss st,
    .of_key fun f g hf hg => Feature.key_eq_key_iff hf.1 hg.1 hf.2 hg.2,
    .of_key fun o u ho hu => OrderTerm.key_eq_key_iff ho.1 hu.1 ho.2 hu.2,
    .of_key fun s t hs ht => Source.key_eq_key_iff hs.1 ht.1 hs.2 ht.2⟩

/-- Tables of other names, their columns, and orderings by them have one key. -/
theorem structural_keys_of_twins :
    let schema (name : String) : Schema := ⟨name, [("id", ⟨.primitive .integer, "id"⟩)]⟩
    let column (name : String) : Feature :=
      .element (.table (schema name)) "id" (.primitive .integer)
    (column "pupil").key = (column "twin").key ∧
    (OrderTerm.by (column "pupil") .ascending).key = (OrderTerm.by (column "twin") .ascending).key ∧
    (Source.table (schema "pupil")).key = (Source.table (schema "twin")).key := by
  intro schema column
  have table : ∀ name, (Source.table (schema name)).Built := fun name =>
    .table (show Schema.ofEntries name (schema name).entries = .ok (schema name) from rfl)
  have element : ∀ name, (column name).Built := fun name =>
    .element (table name) (show (Source.table (schema name)).get "id" = .ok (column name) from rfl)
  have plain : ∀ name, (Source.table (schema name)).Obeys .structFree := by
    intro name f hf
    obtain rfl : f = ⟨.primitive .integer, "id"⟩ := by simpa [schema, Schema.fields] using hf
    trivial
  exact ⟨(structural_keys.1 _ _ (element "pupil") (element "twin") ⟨trivial, plain "pupil"⟩
      ⟨trivial, plain "twin"⟩).2 rfl,
    (structural_keys.2.1 _ _ (.by _ (element "pupil")) (.by _ (element "twin"))
      ⟨trivial, plain "pupil"⟩ ⟨trivial, plain "twin"⟩).2 rfl,
    (structural_keys.2.2.1 _ _ (table "pupil") (table "twin") (plain "pupil") (plain "twin")).2 rfl⟩

end QueryAlgebra
