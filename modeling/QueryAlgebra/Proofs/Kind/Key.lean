import QueryAlgebra.Kind.Basic
import QueryAlgebra.Proofs.Text.Reading

/-!
# Keys of kinds

The names of struct elements stand in a key as they are. A key can be taken apart in one way only as
long as a name does not look like what stands around names: it holds no colon, which is what ends a
name, and does not begin with the mark that closes a struct, which an empty struct has in its place.

* `Kind.Legible`: the names of all struct elements inside a kind are of that sort.
* `Kind.key_append_inj_of_legible`: such kinds are told apart by their keys, whatever follows them.
* `Kind.StructFree`: no struct occurs in a kind; `Kind.key_append_inj` is the case of such kinds.
* `Kind.same_iff_eq`: legible kinds have one key exactly if they are the same.
* `Kind.same_of_split_name`: a name with a colon can spell the end of one element and the begin of
  the next one.
-/

namespace QueryAlgebra

namespace Kind

open Text

/-! ### Legible kinds -/

/-- The name cannot be taken for what stands around names: it neither holds the colon that ends a name
nor begins with the mark that closes a struct. -/
def LegibleName (n : String) : Prop := (∀ c ∈ n.toList, c ≠ ':') ∧ n.toList.head? ≠ some '>'

mutual

/-- All names of struct elements inside the kind are legible. -/
def Legible : Kind → Prop
  | .primitive _ => True
  | .array e     => e.Legible
  | .map k v     => k.Legible ∧ v.Legible
  | .struct es   => ElementsLegible es

def ElementsLegible : List (String × Kind) → Prop
  | []          => True
  | (n, k) :: r => LegibleName n ∧ k.Legible ∧ ElementsLegible r

end

theorem elementsLegible_iff : ∀ {es : List (String × Kind)},
    ElementsLegible es ↔ ∀ e ∈ es, LegibleName e.1 ∧ e.2.Legible
  | [] => by simp [ElementsLegible]
  | (n, k) :: r => by rw [ElementsLegible, elementsLegible_iff, List.forall_mem_cons, and_assoc]

/-- The text of an element inside the key of its struct. -/
def elementKey (e : String × Kind) : String := e.1 ++ ":" ++ e.2.key

theorem elementKeys_eq_map (es : List (String × Kind)) : elementKeys es = es.map elementKey := by
  induction es with
  | nil => rfl
  | cons e r ih => simp [elementKeys, elementKey, ih]

/-- The key of a struct with elements. -/
theorem key_struct_cons (n : String) (k : Kind) (es : List (String × Kind)) :
    (struct ((n, k) :: es)).key.toList
      = "Struct<".toList ++ (n.toList ++ ':' :: (k.key.toList ++ tailText elementKey "," es ++ ['>'])) := by
  rw [key, elementKeys_eq_map, String.toList_append, String.toList_append, intercalate_cons]
  simp [elementKey]

theorem tailText_elements (n : String) (k : Kind) (es : List (String × Kind)) :
    tailText elementKey "," ((n, k) :: es)
      = ',' :: (n.toList ++ ':' :: (k.key.toList ++ tailText elementKey "," es)) := by
  simp [tailText, elementKey]

/-- A legible name ends at the first colon. -/
theorem LegibleName.append_inj {n m : String} (hn : LegibleName n) (hm : LegibleName m)
    {r r' : List Char} (h : n.toList ++ ':' :: r = m.toList ++ ':' :: r') : n = m ∧ r = r' := by
  obtain ⟨names, rest⟩ := takeWhile_append_inj (· != ':') (fun c hc => by simpa using hn.1 c hc)
    (fun c hc => by simpa using hm.1 c hc) (by simp) (by simp) h
  exact ⟨String.toList_inj.1 names, (List.cons.inj rest).2⟩

/-- No legible name, with the colon behind it, begins like the end of a struct. -/
theorem LegibleName.ne_close {n : String} (hn : LegibleName n) (r r' : List Char) :
    n.toList ++ ':' :: r ≠ '>' :: r' := by
  intro h
  cases chars : n.toList with
  | nil => simp [chars] at h
  | cons c cs =>
    rw [chars, List.cons_append] at h
    exact hn.2 (by rw [chars, (List.cons.inj h).1]; rfl)

/-! ### Reading a key -/

mutual

/-- **The key of a legible kind tells it** from any other one, and where it ends. -/
theorem key_append_inj_of_legible :
    ∀ {a b : Kind}, a.Legible → b.Legible → ∀ {r r' : List Char},
      a.key.toList ++ r = b.key.toList ++ r' → a = b ∧ r = r'
  | .primitive p, .primitive q, _, _, _, _, h => by
    cases p <;> cases q <;> simp [key, Primitive.name] at h ⊢ <;> exact h
  | .primitive p, .array _, _, _, _, _, h => by cases p <;> simp [key, Primitive.name] at h
  | .primitive p, .map _ _, _, _, _, _, h => by cases p <;> simp [key, Primitive.name] at h
  | .primitive p, .struct _, _, _, _, _, h => by cases p <;> simp [key, Primitive.name] at h
  | .array _, .primitive q, _, _, _, _, h => by cases q <;> simp [key, Primitive.name] at h
  | .map _ _, .primitive q, _, _, _, _, h => by cases q <;> simp [key, Primitive.name] at h
  | .struct _, .primitive q, _, _, _, _, h => by cases q <;> simp [key, Primitive.name] at h
  | .array _, .map _ _, _, _, _, _, h => by simp [key] at h
  | .array _, .struct _, _, _, _, _, h => by simp [key] at h
  | .map _ _, .array _, _, _, _, _, h => by simp [key] at h
  | .map _ _, .struct _, _, _, _, _, h => by simp [key] at h
  | .struct _, .array _, _, _, _, _, h => by simp [key] at h
  | .struct _, .map _ _, _, _, _, _, h => by simp [key] at h
  | .array a, .array b, ha, hb, r, r', h => by
    have h₁ : a.key.toList ++ '>' :: r = b.key.toList ++ '>' :: r' := by simpa [key] using h
    simp only [Legible] at ha hb
    obtain ⟨rfl, h₂⟩ := key_append_inj_of_legible ha hb h₁
    exact ⟨rfl, (List.cons.inj h₂).2⟩
  | .map k v, .map l w, ha, hb, r, r', h => by
    have h₁ : k.key.toList ++ ',' :: (v.key.toList ++ '>' :: r)
        = l.key.toList ++ ',' :: (w.key.toList ++ '>' :: r') := by simpa [key] using h
    simp only [Legible] at ha hb
    obtain ⟨rfl, h₂⟩ := key_append_inj_of_legible ha.1 hb.1 h₁
    obtain ⟨rfl, h₃⟩ := key_append_inj_of_legible ha.2 hb.2 (List.cons.inj h₂).2
    exact ⟨rfl, (List.cons.inj h₃).2⟩
  | .struct [], .struct [], _, _, r, r', h => ⟨rfl, by simpa [key, elementKeys] using h⟩
  | .struct [], .struct ((m, l) :: fs), _, hb, r, r', h => by
    rw [key_struct_cons] at h
    simp only [Legible, ElementsLegible] at hb
    exact absurd (by simpa [key, elementKeys] using h.symm) (hb.1.ne_close _ r)
  | .struct ((n, k) :: es), .struct [], ha, _, r, r', h => by
    rw [key_struct_cons] at h
    simp only [Legible, ElementsLegible] at ha
    exact absurd (by simpa [key, elementKeys] using h) (ha.1.ne_close _ r')
  | .struct ((n, k) :: es), .struct ((m, l) :: fs), ha, hb, r, r', h => by
    simp only [Legible, ElementsLegible] at ha hb
    rw [key_struct_cons, key_struct_cons] at h
    have h₁ : n.toList ++ ':' :: (k.key.toList ++ (tailText elementKey "," es ++ '>' :: r))
        = m.toList ++ ':' :: (l.key.toList ++ (tailText elementKey "," fs ++ '>' :: r')) := by
      simpa using h
    obtain ⟨rfl, h₂⟩ := ha.1.append_inj hb.1 h₁
    obtain ⟨rfl, h₃⟩ := key_append_inj_of_legible ha.2.1 hb.2.1 h₂
    obtain ⟨rfl, h₄⟩ := elements_append_inj ha.2.2 hb.2.2 h₃
    exact ⟨rfl, h₄⟩

/-- The elements behind the first one are read one by one, up to the mark that closes the struct. -/
theorem elements_append_inj :
    ∀ {es fs : List (String × Kind)}, ElementsLegible es → ElementsLegible fs → ∀ {r r' : List Char},
      tailText elementKey "," es ++ '>' :: r = tailText elementKey "," fs ++ '>' :: r' →
        es = fs ∧ r = r'
  | [], [], _, _, _, _, h => ⟨rfl, by simpa [tailText] using h⟩
  | [], (m, l) :: fs, _, _, _, _, h => by rw [tailText_elements] at h; simp [tailText] at h
  | (n, k) :: es, [], _, _, _, _, h => by rw [tailText_elements] at h; simp [tailText] at h
  | (n, k) :: es, (m, l) :: fs, ha, hb, r, r', h => by
    simp only [ElementsLegible] at ha hb
    rw [tailText_elements, tailText_elements] at h
    have h₁ : n.toList ++ ':' :: (k.key.toList ++ (tailText elementKey "," es ++ '>' :: r))
        = m.toList ++ ':' :: (l.key.toList ++ (tailText elementKey "," fs ++ '>' :: r')) := by
      simpa using h
    obtain ⟨rfl, h₂⟩ := ha.1.append_inj hb.1 h₁
    obtain ⟨rfl, h₃⟩ := key_append_inj_of_legible ha.2.1 hb.2.1 h₂
    obtain ⟨rfl, h₄⟩ := elements_append_inj ha.2.2 hb.2.2 h₃
    exact ⟨rfl, h₄⟩

end

/-- No struct occurs in the kind. -/
def StructFree : Kind → Prop
  | .primitive _ => True
  | .array e     => e.StructFree
  | .map k v     => k.StructFree ∧ v.StructFree
  | .struct _    => False

/-- Where no struct occurs there are no names. -/
theorem StructFree.legible : ∀ {a : Kind}, a.StructFree → a.Legible
  | .primitive _, _ => trivial
  | .array e, h => by
    simp only [StructFree] at h
    simpa only [Legible] using h.legible
  | .map k v, h => by
    simp only [StructFree] at h
    simpa only [Legible] using ⟨h.1.legible, h.2.legible⟩
  | .struct _, h => h.elim

/-- **The key of a kind without structs tells it** from any other one, and where it ends. -/
theorem key_append_inj {a b : Kind} (ha : a.StructFree) (hb : b.StructFree) {r r' : List Char}
    (h : a.key.toList ++ r = b.key.toList ++ r') : a = b ∧ r = r' :=
  key_append_inj_of_legible ha.legible hb.legible h

/-! ### Identity of kinds -/

/-- **Legible kinds have one key exactly if they are the same**: the same primitive, the same parameters,
or the same names with the same kinds in the same order. -/
theorem same_iff_eq {a b : Kind} (ha : a.Legible) (hb : b.Legible) : a.same b = true ↔ a = b := by
  constructor
  · intro h
    have keys : a.key = b.key := by simpa [same] using h
    have ended : a.key.toList ++ [] = b.key.toList ++ [] := by rw [keys]
    exact (key_append_inj_of_legible ha hb ended).1
  · rintro rfl
    simp [same]

/-- Two structs with the same names, whose order tells them apart. -/
theorem same_iff_eq_of_exchanged :
    let a : Kind := .struct [("id", .primitive .integer), ("tags", .array (.struct [])),
      ("at", .map (.primitive .string) (.primitive .date))]
    let b : Kind := .struct [("tags", .array (.struct [])), ("id", .primitive .integer),
      ("at", .map (.primitive .string) (.primitive .date))]
    a.Legible ∧ b.Legible ∧ (a.same b = true ↔ a = b) ∧ a.same b = false := by
  intro a b
  have ha : a.Legible := by simp [a, Legible, ElementsLegible, LegibleName]
  have hb : b.Legible := by simp [b, Legible, ElementsLegible, LegibleName]
  exact ⟨ha, hb, same_iff_eq ha hb, by decide⟩

/-- **Different kinds can have one key**: the name of a single element spells an element and the name of
the next one. -/
theorem same_of_split_name :
    let two : Kind := .struct [("a", .primitive .integer), ("b", .primitive .integer)]
    let one : Kind := .struct [("a:Integer,b", .primitive .integer)]
    structOf [("a", .primitive .integer), ("b", .primitive .integer)] = .ok two ∧
      structOf [("a:Integer,b", .primitive .integer)] = .ok one ∧ two.same one = true ∧ two ≠ one :=
  ⟨rfl, rfl, by decide, by simp⟩

/-- Without a colon in any name, a name can close the struct before it: what is read as the only element
of an inner struct is read as an element behind an empty one. -/
example :
    let late : Kind := .struct [("x", .struct []), ("y", .primitive .integer),
      ("z", .struct [(">,w", .primitive .integer)])]
    let early : Kind := .struct [("x", .struct [(">,y", .primitive .integer), ("z", .struct []),
      ("w", .primitive .integer)])]
    late.same early = true := by decide

end Kind

end QueryAlgebra
