import QueryAlgebra.Proofs.Sql.Written

/-!
# Keywords of clauses

The keyword of a clause is a top-level token of a statement only: no feature has one among its own
top-level tokens, whatever its literals and names are, and what stands behind `FROM` has none either.

* `clauseKeywords`: the words that begin clauses and join statements.
* `Tame`: texts without such a token.
* `Dialect.tame_feature`, `Dialect.tame_subquery`: texts of features, and of sources behind `FROM`.
-/

namespace QueryAlgebra.Sql

/-- The words with which clauses begin, and those between statements. -/
def clauseKeywords : List String :=
  ["SELECT", "FROM", "WHERE", "GROUP", "BY", "HAVING", "ORDER", "LIMIT", "UNION", "INTERSECT", "EXCEPT"]

/-- No top-level token of the text is the keyword of a clause. -/
def Tame (text : String) : Prop := ∀ w ∈ tokens text, w ∉ clauseKeywords

/-- Keywords consist of capitals, so what has any other character is none. -/
theorem not_keyword {w : String} {c : Char} (hc : c ∈ w.toList) (h : c.isUpper = false) :
    w ∉ clauseKeywords := by
  have capitals : ∀ k ∈ clauseKeywords, k.toList.all Char.isUpper = true := by decide
  intro hw
  exact absurd (List.all_eq_true.1 (capitals w hw) c hc) (by simp [h])

/-- No keyword can be taken for a number. -/
theorem number_not_keyword (n : Number) : n.text ∉ clauseKeywords := by
  have apart : ∀ k ∈ clauseKeywords, k.toList.all Number.isWord = false := by decide
  intro hn
  refine absurd (apart _ hn) ?_
  rw [Bool.not_eq_false, List.all_eq_true]
  exact Number.isWord_of_mem_text n

namespace Tame

variable {t u : String}

theorem of_word {w : String} (hw : Word w) (h : w ∉ clauseKeywords) : Tame w := by
  rw [Tame, hw.tokens]
  simpa using h

theorem of_char {w : String} {c : Char} (hw : Word w) (hc : c ∈ w.toList) (h : c.isUpper = false) :
    Tame w := .of_word hw (not_keyword hc h)

theorem parens (h : Legible t) : Tame (parens t) := by
  refine .of_char (c := '(') (Word.parens h.enclosed) ?_ rfl
  simp [Sql.parens]

theorem of_tokens {ws us : List String} (h : tokens t = ws ++ us) (hws : ∀ w ∈ ws, w ∉ clauseKeywords)
    (hus : ∀ w ∈ us, w ∉ clauseKeywords) : Tame t := by
  rw [Tame, h]
  exact List.forall_mem_append.2 ⟨hws, hus⟩

/-- A comma behind the last token does not make it a keyword. -/
theorem comma (ht : Legible t) (h : Tame t) : Tame (t ++ ",") := by
  obtain ⟨ws, w, hw, behind⟩ := (ht.mark (m := ",") (.of_plain (by decide) rfl)).2
  refine of_tokens behind (fun v hv => h v (by rw [hw]; simp [hv])) fun v hv => ?_
  obtain rfl := List.mem_singleton.1 hv
  exact not_keyword (c := ',') (by simp) rfl

theorem listed : ∀ {ts : List String}, (∀ t ∈ ts, Legible t ∧ Tame t) → Tame (listed ts)
  | [], _ => by
    have none : tokens (Sql.listed []) = [] := by decide +kernel
    rw [Tame, none]
    nofun
  | [t], h => by simpa [Sql.listed] using (h t (by simp)).2
  | t :: u :: r, h => by
    obtain ⟨⟨ht, tame⟩, hr⟩ := List.forall_mem_cons.1 h
    have rest := Dialect.legible_listed (fun v hv => (hr v hv).1) (by simp)
    have front := (ht.mark (m := ",") (.of_plain (by decide) rfl)).1
    have same : Sql.listed (t :: u :: r) = t ++ "," ++ " " ++ Sql.listed (u :: r) := by
      rw [Sql.listed, String.intercalate_cons_cons, Sql.listed]
      exact String.toList_inj.1 (by simp)
    rw [same]
    exact of_tokens (front.tokens_spaced rest) (tame.comma ht) (Tame.listed hr)

end Tame

/-! ### Literals -/

/-- A value that was cast to a kind of numbers is a number. -/
theorem number_of_cast {p : Primitive} (numeric : p.isNumeric = true) {v : Value}
    (cast : ∃ u, (Kind.primitive p).cast u = .ok v) : ∃ n, v = .number n := by
  obtain ⟨u, hu⟩ := cast
  simp only [Kind.cast] at hu
  split at hu
  · rename_i hw
    obtain rfl := Except.ok.inj hu
    cases p <;> first
      | exact absurd numeric (by decide)
      | (obtain ⟨n, -, rfl⟩ := Option.map_eq_some_iff.1 hw; exact ⟨_, rfl⟩)
  · exact absurd hu Kind.refuse_ne_ok

/-- The text of a literal is no keyword. -/
theorem literal_not_keyword {k : Kind} {v : Value} (cast : ∃ u, k.cast u = .ok v) {t : String}
    (ht : literalText k v = .ok t) : t ∉ clauseKeywords := by
  cases k with
  | primitive p =>
    have number : p.isNumeric = true → v.plain ∉ clauseKeywords := by
      intro numeric
      obtain ⟨n, rfl⟩ := number_of_cast numeric cast
      exact number_not_keyword n
    cases p with
    | boolean =>
      obtain rfl := Except.ok.inj ht
      split <;> decide
    | integer => exact Except.ok.inj ht ▸ number rfl
    | float => exact Except.ok.inj ht ▸ number rfl
    | decimal => exact Except.ok.inj ht ▸ number rfl
    | string =>
      obtain rfl := Except.ok.inj ht
      exact not_keyword (c := '\'') (by simp [Text.doubled]) rfl
    | date =>
      simp only [literalText] at ht
      split at ht
      · obtain rfl := Except.ok.inj ht
        exact not_keyword (c := '\'') (by simp) rfl
      · cases ht
    | timestamp =>
      simp only [literalText] at ht
      split at ht
      · obtain rfl := Except.ok.inj ht
        exact not_keyword (c := '\'') (by simp) rfl
      · cases ht
  | array e =>
    cases v with
    | list items =>
      simp only [literalText] at ht
      obtain ⟨ts, -, ht⟩ := bind_eq_ok.1 ht
      obtain rfl := pure_eq_ok.1 ht
      exact not_keyword (c := ']') (by simp) rfl
    | _ => simp [literalText] at ht
  | _ => simp [literalText] at ht

/-- **The text of a literal has no keyword among its tokens**, whatever stands in it. -/
theorem tame_literal {k : Kind} {v : Value} (cast : ∃ u, k.cast u = .ok v) {t : String}
    (ht : literalText k v = .ok t) : Tame t := by
  rcases literalText_alone cast ht with word | ⟨type, l, htype, word, quote, rfl⟩
  · exact .of_word word (literal_not_keyword cast ht)
  · have named : Word type := by rcases htype with rfl | rfl <;> exact .of_plain (by decide) rfl
    refine .of_tokens (named.legible.tokens_spaced word.legible) ?_
      (Tame.of_char (c := '\'') word ?_ rfl)
    · rw [named.tokens]
      rcases htype with rfl | rfl <;> decide
    · obtain ⟨r, hr⟩ := String.startsWith_string_iff.1 quote
      rw [← hr]
      simp

/-! ### Features -/

namespace Dialect

variable {d : Dialect} (hd : d.quote = '"')

include hd in
theorem tame_quoted (n : String) : Tame (d.quoted n) := by
  refine .of_char (c := '"') (quoted_word hd n) ?_ rfl
  rw [quoted, hd, Text.doubled]
  simp

theorem tame_operand {t : String} (ht : Legible t) (h : Tame t) : Tame (d.operand t) := by
  unfold operand
  split
  · exact h
  · exact .parens ht

include hd in
theorem tame_alias {t : String} (ht : Legible t) (h : Tame t) (n : String) :
    Tame (t ++ " AS " ++ d.quoted n) := by
  refine .of_tokens (legible_alias hd ht n).2 h ?_
  rintro w hw
  rcases List.mem_pair.1 hw with rfl | rfl
  · decide
  · exact tame_quoted hd n _ (by rw [(quoted_word hd n).tokens]; simp)

theorem tame_symbol {op : Operator} (h : op.fixity = .between) : Tame (d.symbol op) := by
  refine .of_word (symbol_word h) ?_
  unfold symbol inequality
  split
  · decide
  · split
    · split <;> decide
    · revert h
      cases op <;> exact fun _ => by decide

include hd in
/-- **The text of a feature has no keyword of a clause among its tokens.** -/
theorem tame_feature : ∀ x : Feature, x.Obeys .written → Tame (d.spellFeature x) := by
  refine Feature.childInduction fun x ih h => ?_
  have legible : ∀ c ∈ x.children, Legible (d.spellFeature c) := fun c hc =>
    legible_feature hd (fun _ _ h => h.1) c (h.children c hc)
  have parts : ∀ c ∈ x.children, Tame (d.spellFeature c) := fun c hc => ih c hc (h.children c hc)
  cases x with
  | aliased f n =>
    exact tame_alias hd (legible f (by simp [Feature.children])) (parts f (by simp [Feature.children])) n
  | literal v k =>
    obtain ⟨t, ht⟩ := h.2
    rw [spellFeature_literal ht]
    exact tame_literal h.1.1 ht
  | element s n k =>
    obtain ⟨-, m, -, rfl⟩ := h.1
    have dot : Word "." := .of_plain (by decide) rfl
    show Tame (d.quoted m ++ "." ++ d.quoted n)
    refine Tame.of_char (c := '.') (((quoted_word hd m).append dot).append (quoted_word hd n)) ?_ rfl
    simp
  | expression op args t =>
    have legible : ∀ a ∈ args, Legible (d.operand (d.spellFeature a)) := fun a ha =>
      legible_operand (legible a ha)
    have operand : ∀ a ∈ args, Tame (d.operand (d.spellFeature a)) := fun a ha =>
      tame_operand (legible_feature hd (fun _ _ h => h.1) a (h.children a ha)) (parts a ha)
    rcases spellFeature_expression (d := d) h with ⟨a, b, rfl, hop, text⟩ | ⟨a, rfl, hop, text⟩ |
      ⟨a, rfl, hop, text⟩ | ⟨hop, text⟩ <;> rw [text]
    · have ha := legible a (by simp)
      have hb := legible b (by simp)
      have symbol := (symbol_word (d := d) hop).legible
      exact .of_tokens ((ha.spaced symbol).tokens_spaced hb)
        (Tame.of_tokens (ha.tokens_spaced symbol) (operand a (by simp)) (tame_symbol hop))
        (operand b (by simp))
    · obtain ⟨symbol, words⟩ := legible_symbol (.inr hop)
      refine .of_tokens (symbol.tokens_spaced (legible a (by simp))) ?_ (operand a (by simp))
      rw [words]
      split_ifs <;> decide
    · obtain ⟨symbol, words⟩ := legible_symbol (.inl hop)
      refine .of_tokens ((legible a (by simp)).tokens_spaced symbol) (operand a (by simp)) ?_
      rw [words]
      split_ifs <;> decide
    · refine .of_char (c := '(') ((head_word hop).append (.parens (body_enclosed fun t ht => ?_))) ?_ rfl
      · obtain ⟨a, ha, rfl⟩ := List.mem_map.1 ht
        exact (legible_feature hd (fun _ _ h => h.1) a (h.children a ha)).enclosed
      · simp [Sql.parens]
  | window fn ps os fr =>
    obtain ⟨-, inner, split⟩ := legible_spelled_window legible
    refine .of_tokens split (parts fn (by simp [Feature.children])) fun w hw => ?_
    rcases List.mem_pair.1 hw with rfl | rfl
    · decide
    · exact not_keyword (c := '(') (by simp [Sql.parens]) rfl

/-! ### Sources behind a keyword -/

include hd in
/-- A feature that may be missing has no keyword among its tokens. -/
theorem tame_option {c : Option Feature} (h : optionObeys .written c) :
    ∀ t ∈ c.map d.spellFeature, Legible t ∧ Tame t := by
  intro t ht
  obtain ⟨f, hf, rfl⟩ := Option.mem_map.1 ht
  have hf := optionObeys_iff.1 h f hf
  exact ⟨legible_feature hd (fun _ _ h => h.1) f hf, tame_feature hd f hf⟩

include hd in
theorem tame_features {fs : List Feature} (h : featuresObey .written fs) :
    ∀ t ∈ fs.map d.spellFeature, Legible t ∧ Tame t := by
  intro t ht
  obtain ⟨f, hf, rfl⟩ := List.mem_map.1 ht
  have hf := featuresObey_iff.1 h f hf
  exact ⟨legible_feature hd (fun _ _ h => h.1) f hf, tame_feature hd f hf⟩

include hd in
/-- Behind `FROM` statements stand in parentheses. -/
theorem subquery_source {x : Source} (h : x.Obeys .written) :
    subquery (d.spellSource x)
      = if x.form = .statement then parens (d.spellSource x) else d.spellSource x := by
  unfold subquery
  rw [isStatement_source hd (fun _ _ h => h.1) h]
  simp

include hd in
/-- **What stands behind `FROM` has no keyword of a clause among its tokens**: statements stand in
parentheses there, and in all that is joined to them. -/
theorem tame_subquery : ∀ x : Source, x.Obeys .written → Tame (subquery (d.spellSource x))
  | .table t, h => by
    rw [subquery_source hd h]
    exact tame_quoted hd t.name
  | .reference s n, h => by
    rw [subquery_source hd h]
    have legible := legible_source hd (fun _ _ h => h.1) s h.2
    have inner : Tame (d.operand (d.spellSource s)) := by
      unfold operand
      rw [standsAlone_source hd (fun _ _ h => h.1) h.2 h.1.2]
      cases s with
      | table t => exact tame_quoted hd t.name
      | reference s m => exact absurd rfl h.1.2
      | _ => exact .parens legible
    exact tame_alias hd (legible_operand legible) inner n
  | .join l r k c, h => by
    have hl := legible_source hd (fun _ _ h => h.1) l h.2.1
    have hr := legible_source hd (fun _ _ h => h.1) r h.2.2.1
    have left := tame_subquery l h.2.1
    have right : Tame (d.joinSide (d.spellSource r)) := by
      have behind := tame_subquery r h.2.2.1
      rw [subquery_source hd h.2.2.1] at behind
      rw [joinSide_source hd (fun _ _ h => h.1) h.2.2.1]
      split
      · rename_i plain
        rwa [if_neg (by rw [plain]; nofun)] at behind
      · exact .parens hr
    have condition := tame_option hd h.2.2.2
    have words := (legible_join (d := d) hl hr (fun t ht => (condition t ht).1) k).2
    rw [subquery_source hd h, spellSource_join]
    refine .of_tokens words (List.forall_mem_append.2 ⟨List.forall_mem_append.2 ⟨left, ?_⟩, right⟩) ?_
    · cases k <;> cases d.outer <;> decide
    · intro w hw
      obtain ⟨t, ht, hw⟩ := List.mem_flatMap.1 hw
      rcases List.mem_cons.1 hw with rfl | hw
      · decide
      · exact (condition t (by simpa using ht)).2 w hw
  | .set l r k, h => by
    rw [subquery_source hd h]
    exact .parens (legible_source hd (fun _ _ h => h.1) _ h)
  | .query s sel pre grp post ord rows, h => by
    rw [subquery_source hd h]
    exact .parens (legible_source hd (fun _ _ h => h.1) _ h)

include hd in
theorem tame_source {x : Source} (h : x.Obeys .written) (ne : x.form ≠ .statement) :
    Tame (d.spellSource x) := by
  have tame := tame_subquery hd x h
  rwa [subquery_source hd h, if_neg ne] at tame

end Dialect

end QueryAlgebra.Sql
