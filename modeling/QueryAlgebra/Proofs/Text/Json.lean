import QueryAlgebra.Value.Json

/-!
# JSON strings are read back

* `readString_json`: the reader of JSON strings gives back the text that was written, and all that
  stands behind its closing quote.
* `json_append_inj`: a JSON string ends where its text ends, whatever follows it.
-/

namespace QueryAlgebra.Text

theorem digitInBase?_hexDigit {n : Nat} (h : n < 16) : digitInBase? 16 (hexDigit n) = some n := by
  have all : ∀ k : Fin 16, digitInBase? 16 (hexDigit k) = some k.val := by decide
  exact all ⟨n, h⟩

/-- Four hexadecimal digits spell a character below 32. -/
theorem amount?_hexDigits {n : Nat} (h : n < 0x20) :
    amount? 16 ['0', '0', hexDigit (n / 16), hexDigit (n % 16)] = some n := by
  have high : digitInBase? 16 (hexDigit (n / 16)) = some (n / 16) :=
    digitInBase?_hexDigit (by omega)
  have low : digitInBase? 16 (hexDigit (n % 16)) = some (n % 16) :=
    digitInBase?_hexDigit (by omega)
  have zero : digitInBase? 16 '0' = some 0 := by decide
  simp only [amount?, List.foldl, high, low, zero, Option.pure_def, Option.bind_eq_bind,
    Option.bind_some]
  congr 1
  omega

/-- One character is read back, and the reader goes on behind it. -/
theorem readString_jsonChar (c : Char) (r : List Char) :
    Value.readString none (jsonChar c ++ r)
      = (Value.readString none r).bind fun p => some (c :: p.1, p.2) := by
  unfold jsonChar
  split
  · subst c; simp [Value.readString, Value.escaped?]
  split
  · subst c; simp [Value.readString, Value.escaped?]
  split
  · subst c; simp [Value.readString, Value.escaped?]
  split
  · subst c; simp [Value.readString, Value.escaped?]
  split
  · subst c; simp [Value.readString, Value.escaped?]
  split
  · subst c; simp [Value.readString, Value.escaped?]
  split
  · subst c; simp [Value.readString, Value.escaped?]
  split
  · rename_i small
    have noPair : ¬(0xD800 ≤ c.toNat ∧ c.toNat < 0xDC00) := by omega
    simp only [List.cons_append, List.nil_append, Value.readString, amount?_hexDigits small,
      if_neg noPair, Option.bind_eq_bind, Option.bind_some, Char.ofNat_toNat, Option.pure_def]
  · rename_i backslash _ _ _ _ _ _
    simp [Value.readString, backslash]

/-- The body of a JSON string is read back up to its closing quote. -/
theorem readString_body (cs r : List Char) :
    Value.readString none (cs.flatMap jsonChar ++ '"' :: r) = some (cs, r) := by
  induction cs with
  | nil => simp [Value.readString]
  | cons c cs ih => simp [List.flatMap_cons, List.append_assoc, readString_jsonChar, ih]

/-- **A JSON string is read back**, together with what follows it. -/
theorem readString_json (s : String) (r : List Char) :
    Value.readString none (((json s).toList ++ r).drop 1) = some (s.toList, r) := by
  simpa [json, List.append_assoc] using readString_body s.toList r

/-- A JSON string ends where its text ends. -/
theorem json_append_inj {s t : String} {r r' : List Char}
    (h : (json s).toList ++ r = (json t).toList ++ r') : s = t ∧ r = r' := by
  have hs := readString_json s r
  rw [h, readString_json t r'] at hs
  obtain ⟨hst, hr⟩ := Prod.mk.inj (Option.some.inj hs)
  exact ⟨(String.toList_inj.1 hst).symm, hr.symm⟩

end QueryAlgebra.Text
