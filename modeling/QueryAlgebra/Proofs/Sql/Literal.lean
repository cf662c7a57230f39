import QueryAlgebra.Proofs.Sql.Inline
import QueryAlgebra.Proofs.Sql.Tokens

/-!
# Literals in the text

* `Enclosed.number`, `Enclosed.frame`: numbers and window frames can stand in parentheses.
* `Alone`: one word, or the name of a type and a text in quotes.
* `literalText_alone`: the text of a literal stands alone.
-/

namespace QueryAlgebra.Sql

/-! ### Plain characters -/

theorem isPlain_of_isWord {c : Char} (h : Number.isWord c = true) :
    (isPlain c && !Text.isBlank c) = true := by
  have plain : isPlain c = true := by
    simp only [isPlain, Bool.not_eq_true', List.contains_eq_mem, List.mem_cons, List.not_mem_nil,
      or_false, decide_eq_false_iff_not]
    rintro (rfl | rfl | rfl | rfl | rfl | rfl) <;> exact absurd h (by decide)
  have blank : Text.isBlank c = false := by
    rcases Bool.or_eq_true_iff.1 h with h | h
    · exact Number.isBlank_of_isNumeral h
    · simp only [List.contains_eq_mem, List.mem_cons, List.not_mem_nil, or_false,
        decide_eq_true_eq] at h
      rcases h with rfl | rfl | rfl | rfl | rfl | rfl | rfl | rfl <;> decide
  simp [plain, blank]

theorem Enclosed.intercalate {sep : String} (hs : Enclosed sep) :
    ∀ {ts : List String}, (∀ t ∈ ts, Enclosed t) → Enclosed (sep.intercalate ts)
  | [], _ => Lexer.Solid.nil
  | [t], h => by simpa using h
  | t :: u :: r, h => by
    rw [String.intercalate_cons_cons]
    obtain ⟨ht, hr⟩ := List.forall_mem_cons.1 h
    exact (ht.append hs).append (Enclosed.intercalate hs hr)

theorem Enclosed.listed {ts : List String} (h : ∀ t ∈ ts, Enclosed t) : Enclosed (listed ts) :=
  .intercalate (.of_plain rfl) h

theorem Enclosed.number (n : Number) : Enclosed n.text := by
  refine .of_plain (List.all_eq_true.2 fun c hc => ?_)
  have := isPlain_of_isWord (Number.isWord_of_mem_text n c hc)
  simp_all

theorem Enclosed.bound {side : String} (h : Enclosed side) (e : FrameEnd) :
    Enclosed (boundText side e) := by
  cases e with
  | unbounded => exact Enclosed.append (t := "UNBOUNDED ") (.of_plain rfl) h
  | current => exact .of_plain (t := "CURRENT ROW") rfl
  | offset n =>
    simp only [boundText]
    split
    · exact .of_plain rfl
    · split <;> exact (Enclosed.number _).append (.of_plain rfl)

theorem mode_word (m : FrameUnit) : Word m.name.toUpper := by
  cases m <;> exact .of_plain (by simp [← String.toList_inj, String.toUpper, FrameUnit.name])
    (by simp [String.toUpper, FrameUnit.name, isPlain, Text.isBlank])

theorem Enclosed.frame (f : Frame) : Enclosed (frameText f) :=
  ((((mode_word f.mode).enclosed.append (.of_plain rfl)).append (.bound (.of_plain rfl) _)).append
    (.of_plain rfl)).append (.bound (.of_plain rfl) _)

/-! ### Literals -/

/-- A text that is one word, or a word for a type before a text in quotes. -/
def Alone (text : String) : Prop :=
  Word text ∨ ∃ t l, (t = "DATE" ∨ t = "TIMESTAMP") ∧ Word l ∧ l.startsWith "'" = true ∧
    text = t ++ " " ++ l

theorem Alone.legible {t : String} (h : Alone t) : Legible t := by
  rcases h with h | ⟨t, l, ht, hl, -, rfl⟩
  · exact h.legible
  · refine Legible.spaced (Word.legible ?_) hl.legible
    rcases ht with rfl | rfl <;> exact .of_plain (by decide) rfl

/-- What stands in the text of a day. -/
theorem dateText_chars (t : Instant) : ∀ c ∈ t.dateText.toList, c.isDigit = true ∨ c = '-' := by
  intro c hc
  have year : ∀ n : Int, c ∈ (Instant.intText n).toList → c.isDigit = true ∨ c = '-' := by
    intro n hn
    rw [Instant.intText, String.toList_append] at hn
    rcases List.mem_append.1 hn with hn | hn
    · split at hn <;> simp_all
    · exact .inl (isDigit_of_mem_digitsOf (by simpa using hn))
  have digits : ∀ w n, c ∈ (Instant.digits w n).toList → c.isDigit = true := fun w n hn =>
    isDigit_of_mem_padded (by simpa [Instant.digits] using hn)
  simp only [Instant.dateText, String.toList_append, List.mem_append] at hc
  rcases hc with (((hc | hc) | hc) | hc) | hc
  · exact year _ hc
  · exact .inr (by simpa using hc)
  · exact .inl (digits _ _ hc)
  · exact .inr (by simpa using hc)
  · exact .inl (digits _ _ hc)

/-- What stands in the text of a day with a time. -/
theorem timestampText_chars (t : Instant) :
    ∀ c ∈ t.timestampText.toList, c.isDigit = true ∨ c ∈ ['-', ' ', ':', '.'] := by
  intro c hc
  have digits : ∀ w n, c ∈ (Instant.digits w n).toList → c.isDigit = true := fun w n hn =>
    isDigit_of_mem_padded (by simpa [Instant.digits] using hn)
  have clock : c ∈ t.clock.toList → c.isDigit = true ∨ c = ':' := by
    intro hc
    simp only [Instant.clock, String.toList_append, List.mem_append] at hc
    rcases hc with (((hc | hc) | hc) | hc) | hc
    · exact .inl (digits _ _ hc)
    · exact .inr (by simpa using hc)
    · exact .inl (digits _ _ hc)
    · exact .inr (by simpa using hc)
    · exact .inl (digits _ _ hc)
  simp only [Instant.timestampText, String.toList_append, List.mem_append] at hc
  rcases hc with ((hc | hc) | hc) | hc
  · exact (dateText_chars t c hc).imp_right (by rintro rfl; simp)
  · exact .inr (by simp_all)
  · exact (clock hc).imp_right (by rintro rfl; simp)
  · split at hc
    · simp at hc
    · rw [String.toList_append] at hc
      rcases List.mem_append.1 hc with hc | hc
      · exact .inr (by simp_all)
      · exact .inl (digits _ _ hc)

/-- A literal that names its type. -/
theorem alone_typed {t s : String} (ht : t = "DATE" ∨ t = "TIMESTAMP") (hs : '\'' ∉ s.toList) :
    Alone (t ++ " '" ++ s ++ "'") := by
  refine .inr ⟨t, Text.doubled '\'' s, ht, .doubled (by simp [standardQuotes]) s, ?_, ?_⟩
  · rw [String.startsWith_string_iff, Text.doubled, String.toList_ofList]
    exact ⟨Text.encode '\'' s.toList ++ ['\''], by simp⟩
  · rw [Text.doubled_of_not_mem hs]
    refine String.toList_inj.1 ?_
    simp only [String.toList_append, String.toList_singleton]
    simp

theorem alone_number (n : Number) : Alone n.text :=
  .inl (.of_plain n.text_ne_empty
    (List.all_eq_true.2 fun c hc => isPlain_of_isWord (Number.isWord_of_mem_text n c hc)))

theorem alone_primitive {p : Primitive} {u v : Value} (hv : p.cast? u = some v) {t : String}
    (ht : literalText (.primitive p) v = .ok t) : Alone t := by
  have number : ∀ {x : Option Number} (round : Number → Number),
      x.map (fun n => Value.number (round n)) = some v → v.plain = t → Alone t := by
    rintro x round hx rfl
    obtain ⟨n, -, rfl⟩ := Option.map_eq_some_iff.1 hx
    exact alone_number (round n)
  cases p with
  | boolean =>
    obtain rfl := Except.ok.inj ht
    split <;> exact .inl (.of_plain (by decide) rfl)
  | integer => exact number Number.trunc hv (Except.ok.inj ht)
  | float => exact number id hv (Except.ok.inj ht)
  | decimal => exact number id hv (Except.ok.inj ht)
  | string =>
    obtain rfl := Except.ok.inj ht
    exact .inl (.doubled (by simp [standardQuotes]) _)
  | date =>
    simp only [literalText] at ht
    split at ht
    · obtain rfl := Except.ok.inj ht
      refine alone_typed (.inl rfl) fun hq => ?_
      rcases dateText_chars _ _ hq with h | h <;> simp at h
    · cases ht
  | timestamp =>
    simp only [literalText] at ht
    split at ht
    · obtain rfl := Except.ok.inj ht
      refine alone_typed (.inr rfl) fun hq => ?_
      rcases timestampText_chars _ _ hq with h | h <;> simp at h
    · cases ht

/-- **The text of a literal stands alone.** -/
theorem literalText_alone : ∀ {k : Kind} {v : Value}, (∃ u, k.cast u = .ok v) →
    ∀ {t : String}, literalText k v = .ok t → Alone t
  | .primitive p, v, ⟨u, hu⟩, t, ht => by
    simp only [Kind.cast] at hu
    split at hu
    · cases hu
      exact alone_primitive ‹_› ht
    · exact absurd hu Kind.refuse_ne_ok
  | .array e, v, made, t, ht => by
    obtain ⟨ws, ts, rfl, each, rfl⟩ := literalText_array made ht
    have items : ∀ t ∈ ts, Enclosed t :=
      forall_right_of_forall₂ (fun _ _ h => (literalText_alone h.1 h.2).legible.enclosed) each
    have whole : "ARRAY[" ++ listed ts ++ "]" = "ARRAY" ++ ("[" ++ listed ts ++ "]") :=
      String.toList_inj.1 (by simp)
    rw [whole]
    exact .inl ((Word.of_plain (by decide) rfl).append (.brackets (.listed items)))
  | .map _ _, v, _, t, ht => by
    simp [literalText] at ht
  | .struct _, v, _, t, ht => by
    simp [literalText] at ht

end QueryAlgebra.Sql
