import QueryAlgebra.Proofs.Instant.Text
import QueryAlgebra.Proofs.Text.Json
import QueryAlgebra.Proofs.Text.Reading

/-!
# Keys of values

* `Value.canonical`: a value whose zeros, at any depth, have no sign.
* `Value.key_canonical`: the signs of zeros do not show in a key.
* `Value.key_reads`: a value is told from any other one by its key, up to the signs of zeros.
* `Value.key_eq_key_iff`: values have one key exactly when they differ at most in signs of zeros.
* `Value.keys_of_tupleKey`: the key of a tuple tells the keys of its items.
-/

namespace QueryAlgebra

namespace Value

mutual

/-- The value with the signs of its zeros dropped. -/
def canonical : Value → Value
  | .number n  => .number n.unsignedZero
  | .list vs   => .list (canonicals vs)
  | .dict es   => .dict (canonicalEntries es)
  | .record fs => .record (canonicalFields fs)
  | v          => v

def canonicals : List Value → List Value
  | []     => []
  | v :: r => v.canonical :: canonicals r

def canonicalEntries : List (Value × Value) → List (Value × Value)
  | []          => []
  | (k, v) :: r => (k.canonical, v.canonical) :: canonicalEntries r

def canonicalFields : List (String × Value) → List (String × Value)
  | []          => []
  | (n, v) :: r => (n, v.canonical) :: canonicalFields r

end

/-! ### Entries and fields -/

/-- The key of an entry of a dictionary. -/
def entryKey (e : Value × Value) : String := e.1.key ++ "=>" ++ e.2.key

/-- The key of a field of a record. -/
def fieldKey (f : String × Value) : String := Text.json f.1 ++ ":" ++ f.2.key

theorem keys_eq_map (vs : List Value) : keys vs = vs.map key := by
  induction vs with
  | nil => rfl
  | cons v r ih => simp [keys, ih]

theorem entryKeys_eq_map (es : List (Value × Value)) : entryKeys es = es.map entryKey := by
  induction es with
  | nil => rfl
  | cons e r ih => obtain ⟨k, v⟩ := e; simp [entryKeys, entryKey, ih]

theorem fieldKeys_eq_map (fs : List (String × Value)) : fieldKeys fs = fs.map fieldKey := by
  induction fs with
  | nil => rfl
  | cons f r ih => obtain ⟨n, v⟩ := f; simp [fieldKeys, fieldKey, ih]

theorem canonicals_eq_map (vs : List Value) : canonicals vs = vs.map canonical := by
  induction vs with
  | nil => rfl
  | cons v r ih => simp [canonicals, ih]

theorem canonicalEntries_eq_map (es : List (Value × Value)) :
    canonicalEntries es = es.map fun e => (e.1.canonical, e.2.canonical) := by
  induction es with
  | nil => rfl
  | cons e r ih => obtain ⟨k, v⟩ := e; simp [canonicalEntries, ih]

theorem canonicalFields_eq_map (fs : List (String × Value)) :
    canonicalFields fs = fs.map fun f => (f.1, f.2.canonical) := by
  induction fs with
  | nil => rfl
  | cons f r ih => obtain ⟨n, v⟩ := f; simp [canonicalFields, ih]

mutual

/-- The signs of zeros do not show in a key. -/
theorem key_canonical : ∀ v : Value, v.canonical.key = v.key
  | .absent | .null | .bool _ | .text _ | .date _ => rfl
  | .number n => by simp [canonical, key, Number.text_unsignedZero]
  | .list vs => by simp [canonical, key, keys_canonicals vs]
  | .dict es => by simp [canonical, key, entryKeys_canonical es]
  | .record fs => by simp [canonical, key, fieldKeys_canonical fs]

theorem keys_canonicals : ∀ vs : List Value, keys (canonicals vs) = keys vs
  | [] => rfl
  | v :: r => by simp [canonicals, keys, key_canonical v, keys_canonicals r]

theorem entryKeys_canonical : ∀ es : List (Value × Value),
    entryKeys (canonicalEntries es) = entryKeys es
  | [] => rfl
  | (k, v) :: r => by
    simp [canonicalEntries, entryKeys, key_canonical k, key_canonical v, entryKeys_canonical r]

theorem fieldKeys_canonical : ∀ fs : List (String × Value),
    fieldKeys (canonicalFields fs) = fieldKeys fs
  | [] => rfl
  | (n, v) :: r => by
    simp [canonicalFields, fieldKeys, key_canonical v, fieldKeys_canonical r]

end

mutual

/-- The signs of zeros do not show in the text that a value turns into. -/
theorem plain_canonical : ∀ v : Value, v.canonical.plain = v.plain
  | .absent | .null | .bool _ | .text _ | .date none | .date (some _) => rfl
  | .number n => by simp [canonical, plain, Number.text_unsignedZero]
  | .list vs => by simp [canonical, plain, plains_canonicals vs]
  | .dict _ => by simp [canonical, plain]
  | .record _ => by simp [canonical, plain]

theorem plains_canonicals : ∀ vs : List Value, plains (canonicals vs) = plains vs
  | [] => rfl
  | v :: r => by
    have hv := plain_canonical v
    cases v <;> simp_all [canonicals, canonical, plains, plains_canonicals r]

end

/-! ### Unique reading -/

/-- A value is told from every other one by its key. -/
def Reads : Value → Prop := Text.ReadsAt key canonical fun _ => True

/-- No key of a value begins with a mark that closes a list. -/
theorem key_start (v : Value) (r : List Char) : ¬Text.Closes (v.key.toList ++ r) := by
  cases v <;> simp only [key, Text.json, String.toList_append, String.toList_ofList,
    List.append_assoc, List.cons_append] <;> exact Text.not_closes_cons (by decide)

theorem entryKey_reads {e : Value × Value} (hk : Reads e.1) (hv : Reads e.2) :
    Text.ReadsAt entryKey (fun e => (e.1.canonical, e.2.canonical)) (fun _ => True) e := by
  intro f _ r r' hr hr' h
  have h₁ : e.1.key.toList ++ '=' :: '>' :: (e.2.key.toList ++ r)
      = f.1.key.toList ++ '=' :: '>' :: (f.2.key.toList ++ r') := by simpa [entryKey] using h
  obtain ⟨hkey, h₂⟩ := hk f.1 trivial _ _ (Text.stops_cons _ (by decide))
    (Text.stops_cons _ (by decide)) h₁
  obtain ⟨hvalue, hrest⟩ := hv f.2 trivial _ _ hr hr' (by simpa using h₂)
  exact ⟨by simp [hkey, hvalue], hrest⟩

theorem fieldKey_reads {f : String × Value} (hv : Reads f.2) :
    Text.ReadsAt fieldKey (fun f => (f.1, f.2.canonical)) (fun _ => True) f := by
  intro g _ r r' hr hr' h
  have h₁ : (Text.json f.1).toList ++ ':' :: (f.2.key.toList ++ r)
      = (Text.json g.1).toList ++ ':' :: (g.2.key.toList ++ r') := by simpa [fieldKey] using h
  obtain ⟨hname, h₂⟩ := Text.json_append_inj h₁
  obtain ⟨hvalue, hrest⟩ := hv g.2 trivial _ _ hr hr' (by simpa using h₂)
  exact ⟨by simp [hname, hvalue], hrest⟩

theorem entryKey_start (e : Value × Value) (r : List Char) :
    ¬Text.Closes ((entryKey e).toList ++ r) := by
  simpa [entryKey] using key_start e.1 ('=' :: '>' :: (e.2.key.toList ++ r))

theorem fieldKey_start (f : String × Value) (r : List Char) :
    ¬Text.Closes ((fieldKey f).toList ++ r) := by
  simp only [fieldKey, Text.json, String.toList_append, String.toList_ofList, List.append_assoc,
    List.cons_append]
  exact Text.not_closes_cons (by decide)

theorem number_reads (n : Number) : Reads (.number n) := by
  intro w _ r r' hr hr' h
  obtain ⟨c, t, rfl, hc⟩ := hr
  obtain ⟨c', t', rfl, hc'⟩ := hr'
  have stop : ∀ x ∈ Text.stoppers, Number.isWord x = false := by
    simp [Text.stoppers, Text.closers, Number.isWord, Value.isNumeral]
  cases w with
  | number m =>
    have h₁ : n.text.toList ++ c :: t = m.text.toList ++ c' :: t' := by simpa [key] using h
    obtain ⟨hsame, hrest⟩ := Number.text_append_inj (stop c hc) (stop c' hc') h₁
    exact ⟨by simp [canonical, hsame], hrest⟩
  | _ => simp [key, Text.json] at h

theorem date_reads (d : Option Instant) : Reads (.date d) := by
  intro w _ r r' hr hr' h
  cases w with
  | date e =>
    have h₁ : (dateText d).toList ++ r = (dateText e).toList ++ r' := by simpa [key] using h
    -- The word for an invalid date begins like no instant.
    have apart : ∀ (t : Instant) (x y : List Char),
        t.iso.toList ++ x ≠ "Invalid Date".toList ++ y := by
      intro t x y hxy
      obtain ⟨c, s, hc, hclass⟩ := t.iso_head
      have hword : "Invalid Date".toList = 'I' :: "nvalid Date".toList := by simp
      rw [hc, hword] at hxy
      obtain rfl : c = 'I' := (List.cons.inj hxy).1
      rcases hclass with h | h | h <;> exact absurd h (by decide)
    rcases d with _ | s <;> rcases e with _ | t
    · exact ⟨rfl, by simpa [dateText] using h₁⟩
    · exact absurd h₁.symm (apart t r' r)
    · exact absurd h₁ (apart s r r')
    · obtain ⟨rfl, hrest⟩ := Instant.iso_append_inj h₁
      exact ⟨rfl, hrest⟩
  | _ => simp [key, Text.json] at h

mutual

/-- **A value is told from every other one by its key**, up to the signs of zeros. -/
theorem key_reads : ∀ v : Value, Reads v
  | .absent => by
    intro w _ r r' _ _ h
    cases w with
    | absent => exact ⟨rfl, by simpa [key] using h⟩
    | _ => simp [key, Text.json] at h
  | .null => by
    intro w _ r r' _ _ h
    cases w with
    | null => exact ⟨rfl, by simpa [key] using h⟩
    | _ => simp [key, Text.json] at h
  | .bool a => by
    intro w _ r r' _ _ h
    cases w with
    | bool b => cases a <;> cases b <;> simp [key, boolText] at h ⊢ <;> exact h
    | _ => simp [key, Text.json] at h
  | .number n => number_reads n
  | .text s => by
    intro w _ r r' _ _ h
    cases w with
    | text t =>
      obtain ⟨rfl, hrest⟩ := Text.json_append_inj h
      exact ⟨rfl, hrest⟩
    | _ => simp [key, Text.json] at h
  | .date d => date_reads d
  | .list vs => by
    intro w _ r r' _ _ h
    cases w with
    | list ws =>
      have h₁ : (String.intercalate "," (vs.map key)).toList ++ ']' :: r
          = (String.intercalate "," (ws.map key)).toList ++ ']' :: r' := by
        simpa [key, keys_eq_map] using h
      obtain ⟨hitems, hrest⟩ := Text.listed_inj (s := []) (by simp) (fun v _ => key_start v)
        (fun _ _ => trivial) (items_read vs) (fun _ _ => trivial)
        (Text.closes_cons _ (by decide)) (Text.closes_cons _ (by decide)) h₁
      exact ⟨by simp [canonical, canonicals_eq_map, hitems], (List.cons.inj hrest).2⟩
    | _ => simp [key, Text.json] at h
  | .dict es => by
    intro w _ r r' _ _ h
    cases w with
    | dict fs =>
      have h₁ : (String.intercalate "," (es.map entryKey)).toList ++ '\x7d' :: r
          = (String.intercalate "," (fs.map entryKey)).toList ++ '\x7d' :: r' := by
        simpa [key, entryKeys_eq_map] using h
      obtain ⟨hitems, hrest⟩ := Text.listed_inj (s := []) (by simp) (fun e _ => entryKey_start e)
        (fun _ _ => trivial)
        (fun e he => entryKey_reads (entries_read es e he).1 (entries_read es e he).2)
        (fun _ _ => trivial)
        (Text.closes_cons _ (by decide)) (Text.closes_cons _ (by decide)) h₁
      exact ⟨by simp [canonical, canonicalEntries_eq_map, hitems], (List.cons.inj hrest).2⟩
    | _ => simp [key, Text.json] at h
  | .record fs => by
    intro w _ r r' _ _ h
    cases w with
    | record gs =>
      have h₁ : (String.intercalate "," (fs.map fieldKey)).toList ++ '\x7d' :: r
          = (String.intercalate "," (gs.map fieldKey)).toList ++ '\x7d' :: r' := by
        simpa [key, fieldKeys_eq_map] using h
      obtain ⟨hitems, hrest⟩ := Text.listed_inj (s := []) (by simp) (fun f _ => fieldKey_start f)
        (fun _ _ => trivial) (fun f hf => fieldKey_reads (fields_read fs f hf))
        (fun _ _ => trivial)
        (Text.closes_cons _ (by decide)) (Text.closes_cons _ (by decide)) h₁
      exact ⟨by simp [canonical, canonicalFields_eq_map, hitems], (List.cons.inj hrest).2⟩
    | _ => simp [key, Text.json] at h

theorem items_read : ∀ vs : List Value, ∀ v ∈ vs, Reads v
  | [] => by simp
  | v :: r => List.forall_mem_cons.2 ⟨key_reads v, items_read r⟩

theorem entries_read : ∀ es : List (Value × Value), ∀ e ∈ es, Reads e.1 ∧ Reads e.2
  | [] => by simp
  | (k, v) :: r => List.forall_mem_cons.2 ⟨⟨key_reads k, key_reads v⟩, entries_read r⟩

theorem fields_read : ∀ fs : List (String × Value), ∀ f ∈ fs, Reads f.2
  | [] => by simp
  | (_, v) :: r => List.forall_mem_cons.2 ⟨key_reads v, fields_read r⟩

end

/-- **Values have one key exactly when they differ at most in the signs of zeros.** -/
theorem key_eq_key_iff {v w : Value} : v.key = w.key ↔ v.canonical = w.canonical := by
  constructor
  · intro h
    exact (key_reads v w trivial [')'] [')'] (Text.stops_cons _ (by decide))
      (Text.stops_cons _ (by decide)) (by rw [h])).1
  · intro h
    rw [← key_canonical v, h, key_canonical w]

/-- A key may be followed by the further items of a tuple. -/
theorem stops_tail (vs : List Value) : Text.Stops (Text.tailText key "|" vs ++ [')']) := by
  cases vs with
  | nil => exact Text.stops_cons _ (by decide)
  | cons v r => exact Text.stops_cons _ (show '|' ∈ Text.stoppers by decide)

theorem tailText_cons (v : Value) (r : List Value) :
    Text.tailText key "|" (v :: r) = '|' :: (v.key.toList ++ Text.tailText key "|" r) := by
  simp [Text.tailText]

theorem tuple_reads : ∀ {vs ws : List Value},
    Text.tailText key "|" vs ++ [')'] = Text.tailText key "|" ws ++ [')'] →
      vs.map canonical = ws.map canonical
  | [], [], _ => rfl
  | [], w :: q, h => by
    rw [tailText_cons] at h
    simp [Text.tailText] at h
  | v :: r, [], h => by
    rw [tailText_cons] at h
    simp [Text.tailText] at h
  | v :: r, w :: q, h => by
    rw [tailText_cons, tailText_cons] at h
    obtain ⟨first, rest⟩ := key_reads v w trivial _ _ (stops_tail r) (stops_tail q)
      (by simpa using h)
    rw [List.map_cons, List.map_cons, first, tuple_reads rest]

/-- The key of a tuple with items is not the empty text, which is the key of the tuple without any. -/
theorem tupleKey_cons_ne (v : Value) (r : List Value) : tupleKey (v :: r) ≠ tupleKey [] := by
  intro h
  have text : (tupleKey (v :: r)).toList = [] := by rw [h]; rfl
  unfold tupleKey at text
  rw [Text.intercalate_cons] at text
  have empty : v.key.toList = [] := (List.append_eq_nil_iff.1 text).1
  exact key_start v [')'] (by rw [empty]; exact Text.closes_cons _ (by decide))

/-- **The key of a tuple tells the keys of its items**, and so how many there are. -/
theorem keys_of_tupleKey {vs ws : List Value} (h : tupleKey vs = tupleKey ws) :
    vs.map key = ws.map key := by
  have same : vs.map canonical = ws.map canonical := by
    cases vs with
    | nil =>
      cases ws with
      | nil => rfl
      | cons w q => exact absurd h.symm (tupleKey_cons_ne w q)
    | cons v r =>
      cases ws with
      | nil => exact absurd h (tupleKey_cons_ne v r)
      | cons w q =>
        refine tuple_reads ?_
        have text : (tupleKey (v :: r)).toList = (tupleKey (w :: q)).toList := by rw [h]
        unfold tupleKey at text
        rw [Text.intercalate_cons, Text.intercalate_cons] at text
        rw [tailText_cons, tailText_cons, text]
  have keys : ∀ us : List Value, us.map key = (us.map canonical).map key := fun us => by
    simp [Function.comp_def, key_canonical]
  rw [keys, same, ← keys]

end Value

end QueryAlgebra
