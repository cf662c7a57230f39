import QueryAlgebra.Proofs.Sql.Literal
import QueryAlgebra.Proofs.Sql.Skeleton
import QueryAlgebra.Sql.Bound

/-!
# Texts of features

* `Feature.form`, `Source.form`: what skeletons stand for.
* `Dialect.spellFeature`, `Dialect.spellSource`: the texts of skeletons.
* `Dialect.spellFeature_expression`: how an expression is written.
* `Dialect.legible_feature`: texts of features are legible.
* `Dialect.standsAlone_feature`: they stand alone unless the feature is compound.
-/

namespace QueryAlgebra

/-- What a feature stands for: operators between, in front of or behind their operands, and windows
are compound. -/
def Feature.form : Feature → Sql.Form
  | .expression op _ _ => if op.fixity = .call then .plain else .compound
  | .window ..         => .compound
  | _                  => .plain

/-- What a source stands for. -/
def Source.form : Source → Sql.Form
  | .join ..             => .join
  | .set .. | .query ..  => .statement
  | _                    => .plain

theorem Source.form_ne_compound (s : Source) : s.form ≠ .compound := by
  cases s <;> nofun

end QueryAlgebra

namespace QueryAlgebra.Sql

open Translation

namespace Dialect

variable (d : Dialect)

/-- The text of a skeleton of a feature. -/
def spellFeature : Feature → String := ofFeature (d.backend .empty .empty)

/-- The text of a skeleton of a source. -/
def spellSource : Source → String := ofSource (d.backend .empty .empty)

theorem backend_spelling (L : Value → Kind → Prop) : Spelling L (d.backend .empty .empty) where
  sources := rfl
  features := rfl
  table _ _ := rfl
  scan _ _ _ := rfl
  reference _ _ := rfl
  element _ _ _ _ := rfl
  literal v k _ := by
    show literalText k v = (literalText k v).map fun _ => given (literalText k v)
    cases literalText k v <;> rfl
  expression op xs k := by
    show d.expressionText op xs k
      = (castTarget op k).map fun t => given (d.expressionText op xs (t.getD default))
    cases op with
    | cast =>
      unfold castTarget
      cases ht : typeName? k with
      | some t => simp [expressionText, ht, Except.map, given, Except.toOption]
      | none => simp [expressionText, ht, Except.map]
    | _ => rfl
  window _ _ _ _ := rfl

/-! ### Parts in parentheses -/

variable {d}

theorem tokens_quotes (hd : d.quote = '"') (t : String) : outerTokens d.quotes t = tokens t := by
  rw [quotes, hd]
  rfl

theorem quoted_word (hd : d.quote = '"') (n : String) : Word (d.quoted n) := by
  rw [quoted, hd]
  exact .doubled (by simp [standardQuotes]) n

theorem legible_parens {t : String} (h : Legible t) : Legible (parens t) :=
  (Word.parens h.enclosed).legible

theorem tokens_parens {t : String} (h : Legible t) : tokens (parens t) = [parens t] :=
  (Word.parens h.enclosed).tokens

theorem legible_operand {t : String} (h : Legible t) : Legible (d.operand t) := by
  unfold operand
  split
  · exact h
  · exact legible_parens h

theorem legible_subquery {t : String} (h : Legible t) : Legible (subquery t) := by
  unfold subquery
  split
  · exact legible_parens h
  · exact h

theorem legible_joinSide {t : String} (h : Legible t) : Legible (d.joinSide t) := by
  unfold joinSide
  split
  · exact legible_parens h
  · split
    · exact h
    · split
      · exact h
      · exact legible_parens h
    · exact legible_parens h

/-! ### Expressions -/

/-- The symbol between two operands. -/
def symbol (d : Dialect) (op : Operator) : String :=
  if op = .eq then "=" else if op = .ne then d.inequality else op.symbol

theorem symbol_word {op : Operator} (h : op.fixity = .between) : Word (d.symbol op) := by
  unfold symbol inequality
  split
  · exact .of_plain (by decide) rfl
  · split
    · split <;> exact .of_plain (by decide) rfl
    · revert h
      cases op <;> first | exact fun h => .of_plain (by decide) rfl | exact fun h => nomatch h

/-- What stands in front of the arguments of a function. -/
def head (op : Operator) : String := if op = .cast then "CAST" else op.symbol

theorem head_word {op : Operator} (h : op.fixity = .call) : Word (head op) := by
  revert h
  cases op <;> first | exact fun h => .of_plain (by decide) rfl | exact fun h => nomatch h

/-- What stands in the parentheses of a function. -/
def body (op : Operator) (args : List String) (target : Option Kind) : String :=
  if op = .cast then
    String.intercalate "" args ++ " AS " ++ (typeName? (target.getD default)).getD ""
  else if op = .count ∧ args.isEmpty then "*"
  else listed args

theorem typeName_word {k : Kind} {t : String} (h : typeName? k = some t) : Word t := by
  cases k with
  | primitive p => cases p <;> cases h <;> exact .of_plain (by decide) rfl
  | _ => cases h

theorem body_enclosed {op : Operator} {args : List String} {target : Option Kind}
    (h : ∀ t ∈ args, Enclosed t) : Enclosed (body op args target) := by
  unfold body
  split
  · refine ((Enclosed.intercalate (show Enclosed "" from Lexer.Solid.nil) h).append (.of_plain rfl)).append ?_
    cases ht : typeName? (target.getD default) with
    | none => exact Lexer.Solid.nil
    | some t => exact (typeName_word ht).enclosed
  · split
    · exact .of_plain rfl
    · exact .listed h

theorem arity_of_fixity (op : Operator) :
    (op.fixity = .between → op.arity = (2, 2)) ∧
      (op.fixity = .front ∨ op.fixity = .behind → op.arity = (1, 1)) ∧
      (op.fixity = .call → op = .count ∨ op.arity = (1, 1)) := by
  cases op <;> decide

theorem expressionText_between {op : Operator} (h : op.fixity = .between) (xs : List String)
    (k : Kind) : d.expressionText op xs k
      = .ok ((" " ++ d.symbol op ++ " ").intercalate (xs.map d.operand)) := by
  cases op <;> first | rfl | nomatch h

theorem expressionText_front {op : Operator} (h : op.fixity = .front) (xs : List String) (k : Kind) :
    d.expressionText op xs k = .ok (op.symbol ++ " " ++ "".intercalate (xs.map d.operand)) := by
  cases op <;> first | rfl | nomatch h

theorem expressionText_behind {op : Operator} (h : op.fixity = .behind) (xs : List String)
    (k : Kind) :
    d.expressionText op xs k = .ok ("".intercalate (xs.map d.operand) ++ " " ++ op.symbol) := by
  cases op <;> first | rfl | nomatch h

theorem expressionText_call {op : Operator} (h : op.fixity = .call) {xs : List String}
    (count : op = .count → xs.length ≤ 1) {t : Option Kind}
    (target : castTarget op (t.getD default) = .ok t) :
    d.expressionText op xs (t.getD default) = .ok (head op ++ parens (body op xs t)) := by
  by_cases hc : op = .cast
  · subst hc
    unfold castTarget at target
    cases ht : typeName? (t.getD default) with
    | none => simp [ht] at target
    | some n =>
      simp only [expressionText, ht, head, body, parens, if_true, Option.getD_some]
      exact congrArg Except.ok (String.toList_inj.1 (by simp))
  · by_cases hn : op = .count
    · subst hn
      have count := count rfl
      match xs, count with
      | [], _ => rfl
      | [x], _ => exact congrArg Except.ok (String.toList_inj.1
          (by simp [head, body, parens, listed, Operator.symbol, Operator.name]))
    · have plain : d.expressionText op xs (t.getD default)
          = .ok (op.symbol ++ "(" ++ listed xs ++ ")") := by
        cases op <;> first | rfl | exact absurd rfl hc | exact absurd rfl hn | cases h
      rw [plain, head, body, parens, if_neg hc, if_neg hc, if_neg fun h => hn h.1]
      exact congrArg Except.ok (String.toList_inj.1 (by simp))

section

variable {op : Operator} {args : List Feature} {target : Option Kind}

theorem spellFeature_given : d.spellFeature (.expression op args target)
    = given (d.expressionText op (args.map d.spellFeature) (target.getD default)) := by
  rw [spellFeature, ofFeature, ofFeatures_eq_map]
  rfl

/-- **An expression is written** with its symbol between, in front of or behind its operands, or as
a function. -/
theorem spellFeature_expression
    (h : (Feature.expression op args target).Obeys (.outline N L D)) :
    (∃ a b, args = [a, b] ∧ op.fixity = .between ∧ d.spellFeature (.expression op args target)
      = d.operand (d.spellFeature a) ++ " " ++ d.symbol op ++ " " ++ d.operand (d.spellFeature b)) ∨
    (∃ a, args = [a] ∧ op.fixity = .front ∧ d.spellFeature (.expression op args target)
      = op.symbol ++ " " ++ d.operand (d.spellFeature a)) ∨
    (∃ a, args = [a] ∧ op.fixity = .behind ∧ d.spellFeature (.expression op args target)
      = d.operand (d.spellFeature a) ++ " " ++ op.symbol) ∨
    (op.fixity = .call ∧ d.spellFeature (.expression op args target)
      = head op ++ parens (body op (args.map d.spellFeature) target)) := by
  obtain ⟨⟨-, ⟨hmin, hmax⟩, named⟩, -⟩ := h
  obtain ⟨between, one, call⟩ := arity_of_fixity op
  cases hfix : op.fixity with
  | between =>
    rw [between hfix] at hmin hmax
    obtain ⟨a, b, rfl⟩ := List.length_eq_two.1 (Nat.le_antisymm hmax hmin)
    refine .inl ⟨a, b, rfl, rfl, ?_⟩
    rw [spellFeature_given, expressionText_between hfix]
    exact String.toList_inj.1 (by simp [given, Except.toOption])
  | front =>
    rw [one (.inl hfix)] at hmin hmax
    obtain ⟨a, rfl⟩ := List.length_eq_one_iff.1 (Nat.le_antisymm hmax hmin)
    refine .inr (.inl ⟨a, rfl, rfl, ?_⟩)
    rw [spellFeature_given, expressionText_front hfix]
    simp [given, Except.toOption]
  | behind =>
    rw [one (.inr hfix)] at hmin hmax
    obtain ⟨a, rfl⟩ := List.length_eq_one_iff.1 (Nat.le_antisymm hmax hmin)
    refine .inr (.inr (.inl ⟨a, rfl, rfl, ?_⟩))
    rw [spellFeature_given, expressionText_behind hfix]
    simp [given, Except.toOption]
  | call =>
    refine .inr (.inr (.inr ⟨rfl, ?_⟩))
    have count : op = .count → (args.map d.spellFeature).length ≤ 1 := by
      rintro rfl
      rw [List.length_map]
      exact hmax
    rw [spellFeature_given, expressionText_call hfix count named]
    rfl

end

/-! ### Legible texts -/

theorem legible_word (w : String) (h : (w != "" && w.toList.all fun c => isPlain c && !Text.isBlank c) = true) :
    Legible w ∧ tokens w = [w] := by
  simpa using Legible.phrase [w] (by simpa using h) (by simp)

/-- A text, a phrase and another text. -/
theorem legible_around {t u p s : String} (ht : Legible t) (hp : Legible p) (hu : Legible u)
    (hs : s = " " ++ p ++ " ") :
    Legible (t ++ s ++ u) ∧ tokens (t ++ s ++ u) = tokens t ++ tokens p ++ tokens u := by
  have same : t ++ s ++ u = t ++ " " ++ p ++ " " ++ u := by
    subst hs
    simp only [String.append_assoc]
  rw [same, (ht.spaced hp).tokens_spaced hu, ht.tokens_spaced hp]
  exact ⟨(ht.spaced hp).spaced hu, rfl⟩

/-- A feature under an alias. -/
theorem legible_alias (hd : d.quote = '"') {t : String} (ht : Legible t) (n : String) :
    Legible (t ++ " AS " ++ d.quoted n) ∧
      tokens (t ++ " AS " ++ d.quoted n) = tokens t ++ ["AS", d.quoted n] := by
  obtain ⟨as, same⟩ := legible_word "AS" rfl
  have hn := quoted_word hd n
  obtain ⟨legible, split⟩ := legible_around ht as hn.legible (s := " AS ") rfl
  exact ⟨legible, by rw [split, same, hn.tokens]; simp⟩

/-- Legible texts with commas between them. -/
theorem legible_listed : ∀ {ts : List String}, (∀ t ∈ ts, Legible t) → ts ≠ [] → Legible (listed ts)
  | [t], h, _ => by simpa [listed] using h
  | t :: u :: r, h, _ => by
    obtain ⟨ht, hr⟩ := List.forall_mem_cons.1 h
    have rest := legible_listed hr (by simp)
    have comma := (ht.mark (m := ",") (.of_plain (by decide) rfl)).1
    have same : listed (t :: u :: r) = t ++ "," ++ " " ++ listed (u :: r) := by
      rw [listed, String.intercalate_cons_cons, listed]
      exact String.toList_inj.1 (by simp)
    rw [same]
    exact comma.spaced rest

/-- A keyword before a text. -/
theorem legible_keyword {k s t : String} (hk : Legible k) (ht : Legible t) (hs : s = k ++ " ") :
    Legible (s ++ t) ∧ tokens (s ++ t) = tokens k ++ tokens t := by
  subst hs
  exact ⟨hk.spaced ht, hk.tokens_spaced ht⟩

theorem order_word (k : Direction) : Word (orderKeyword "undefined" k) := by
  rcases k with _ | _ | (_ | _) <;> exact .of_plain (by decide) rfl

theorem legible_terms {os : List (OrderSymbol String)} (h : ∀ o ∈ os, Legible o.1) (ne : os ≠ []) :
    Legible (orderText os) := by
  refine legible_listed (fun t ht => ?_) (by simpa using ne)
  obtain ⟨o, ho, rfl⟩ := List.mem_map.1 ht
  exact (h o ho).spaced (order_word o.2).legible

/-! ### Windows -/

/-- What stands in the parentheses of a window. -/
def windowParts (ps : List String) (os : List (OrderSymbol String)) (fr : Option Frame) :
    List String :=
  listClause "PARTITION BY" ps ++ (if os.isEmpty then [] else ["ORDER BY " ++ orderText os])
    ++ (fr.map frameText).toList

/-- The clause of an ordering, as a clause of a list. -/
theorem orderClause_eq (os : List (OrderSymbol String)) :
    (if os.isEmpty then [] else ["ORDER BY " ++ orderText os])
      = listClause "ORDER BY" (os.map fun o => o.1 ++ " " ++ orderKeyword "undefined" o.2) := by
  cases os with
  | nil => rfl
  | cons o r =>
    simp only [listClause, orderText, List.isEmpty_cons, List.map_cons, Bool.false_eq_true, if_false]
    exact congrArg (fun s => [s]) (String.toList_inj.1 (by simp))

theorem windowText_eq (fn : String) (ps : List String) (os : List (OrderSymbol String))
    (fr : Option Frame) :
    windowText fn ps os fr = fn ++ " OVER " ++ parens (" ".intercalate (windowParts ps os fr)) := by
  cases fr <;> exact String.toList_inj.1 (by simp [windowText, windowParts, listClause, parens])

theorem windowParts_enclosed {ps : List String} {os : List (OrderSymbol String)}
    (hps : ∀ p ∈ ps, Legible p) (hos : ∀ o ∈ os, Legible o.1) (fr : Option Frame) :
    Enclosed (" ".intercalate (windowParts ps os fr)) := by
  refine .intercalate enclosed_blank fun t ht => ?_
  simp only [windowParts, listClause, List.mem_append] at ht
  rcases ht with (ht | ht) | ht
  · split at ht
    · simp at ht
    · obtain rfl := List.mem_singleton.1 ht
      exact (Enclosed.append (.of_plain rfl) (.of_plain rfl)).append
        (.listed fun p hp => (hps p hp).enclosed)
  · split at ht
    · simp at ht
    · rename_i ne
      obtain rfl := List.mem_singleton.1 ht
      exact Enclosed.append (.of_plain rfl) (legible_terms hos (by simpa using ne)).enclosed
  · cases fr with
    | none => simp at ht
    | some f =>
      obtain rfl : t = frameText f := by simpa using ht
      exact .frame f

theorem legible_window {fn : String} {ps : List String} {os : List (OrderSymbol String)}
    (hfn : Legible fn) (hps : ∀ p ∈ ps, Legible p) (hos : ∀ o ∈ os, Legible o.1)
    (fr : Option Frame) :
    Legible (windowText fn ps os fr) ∧ tokens (windowText fn ps os fr)
      = tokens fn ++ ["OVER", parens (" ".intercalate (windowParts ps os fr))] := by
  have inner := Word.parens (windowParts_enclosed hps hos fr)
  obtain ⟨word, same⟩ := legible_word "OVER" rfl
  obtain ⟨legible, split⟩ := legible_around hfn word inner.legible (s := " OVER ") rfl
  rw [windowText_eq]
  exact ⟨legible, by rw [parens, split, same, inner.tokens]; simp⟩

/-! ### Features -/

variable {N : String → Prop} {L : Value → Kind → Prop} {D : Direction → Prop}

theorem legible_symbol {op : Operator} (h : op.fixity = .behind ∨ op.fixity = .front) :
    Legible op.symbol ∧ tokens op.symbol =
      if op = .not then ["NOT"] else if op = .isNull then ["IS", "NULL"] else ["IS", "NOT", "NULL"] := by
  revert h
  cases op <;> first
    | exact fun h => absurd h (by decide)
    | exact fun _ => legible_word "NOT" rfl
    | exact fun _ => Legible.phrase ["IS", "NULL"] rfl (by simp)
    | exact fun _ => Legible.phrase ["IS", "NOT", "NULL"] rfl (by simp)

theorem spellFeature_literal {v : Value} {k : Kind} {t : String} (ht : literalText k v = .ok t) :
    d.spellFeature (.literal v k) = t := by
  show given (literalText k v) = t
  rw [ht]
  rfl

theorem spellFeature_window (fn : Feature) (ps : List Feature) (os : List OrderTerm)
    (fr : Option Frame) : d.spellFeature (.window fn ps os fr) = windowText (d.spellFeature fn)
      (ps.map d.spellFeature) (os.map fun o => (d.spellFeature o.feature, o.direction)) fr := by
  rw [spellFeature, ofFeature, ofFeatures_eq_map, ofTerms_eq_map]
  rfl

/-- The parts of a window are read one after the other. -/
theorem legible_spelled_window {fn : Feature} {ps : List Feature} {os : List OrderTerm}
    {fr : Option Frame}
    (h : ∀ c ∈ (Feature.window fn ps os fr).children, Legible (d.spellFeature c)) :
    Legible (d.spellFeature (.window fn ps os fr)) ∧
      ∃ inner, tokens (d.spellFeature (.window fn ps os fr))
        = tokens (d.spellFeature fn) ++ ["OVER", parens inner] := by
  have partition : ∀ t ∈ ps.map d.spellFeature, Legible t := by
    intro t ht
    obtain ⟨p, hp, rfl⟩ := List.mem_map.1 ht
    exact h p (by simp [Feature.children, hp])
  have terms : ∀ o ∈ os.map fun o => (d.spellFeature o.feature, o.direction), Legible o.1 := by
    intro o ho
    obtain ⟨u, hu, rfl⟩ := List.mem_map.1 ho
    exact h u.feature (List.mem_append_right _ (List.mem_map_of_mem hu))
  rw [spellFeature_window]
  obtain ⟨legible, same⟩ := legible_window (h fn (by simp [Feature.children])) partition terms fr
  exact ⟨legible, _, same⟩

/-- **Texts of features are legible.** -/
theorem legible_feature (hd : d.quote = '"') (hL : ∀ v k, L v k → ∃ u, k.cast u = .ok v) :
    ∀ x : Feature, x.Obeys (.outline N L D) → Legible (d.spellFeature x) := by
  refine Feature.childInduction fun x ih h => ?_
  have parts : ∀ c ∈ x.children, Legible (d.spellFeature c) := fun c hc => ih c hc (h.children c hc)
  cases x with
  | aliased f n => exact (legible_alias hd (parts f (by simp [Feature.children])) n).1
  | literal v k =>
    obtain ⟨t, ht⟩ := h.2
    rw [spellFeature_literal ht]
    exact (literalText_alone (hL v k h.1) ht).legible
  | element s n k =>
    obtain ⟨-, m, -, rfl⟩ := h.1
    exact (((quoted_word hd m).append (.of_plain (by decide) rfl)).append (quoted_word hd n)).legible
  | expression op args t =>
    have args_legible : ∀ a ∈ args, Legible (d.spellFeature a) := parts
    rcases spellFeature_expression (d := d) h with ⟨a, b, rfl, hop, text⟩ | ⟨a, rfl, hop, text⟩ |
      ⟨a, rfl, hop, text⟩ | ⟨hop, text⟩ <;> rw [text]
    · exact ((legible_operand (args_legible a (by simp))).spaced (symbol_word hop).legible).spaced
        (legible_operand (args_legible b (by simp)))
    · exact (legible_symbol (.inr hop)).1.spaced (legible_operand (args_legible a (by simp)))
    · exact (legible_operand (args_legible a (by simp))).spaced (legible_symbol (.inl hop)).1
    · refine ((head_word hop).append (.parens (body_enclosed fun t ht => ?_))).legible
      obtain ⟨a, ha, rfl⟩ := List.mem_map.1 ht
      exact (args_legible a ha).enclosed
  | window fn ps os fr => exact (legible_spelled_window parts).1

/-! ### Texts that stand alone -/

theorem standsAlone_of_alone (hd : d.quote = '"') {t : String} (h : Alone t) :
    d.standsAlone t = true := by
  unfold standsAlone
  rw [tokens_quotes hd]
  rcases h with h | ⟨t, l, ht, hl, quote, rfl⟩
  · rw [h.tokens]
  · have word : Word t := by rcases ht with rfl | rfl <;> exact .of_plain (by decide) rfl
    rw [word.legible.tokens_spaced hl.legible, word.tokens, hl.tokens]
    rcases ht with rfl | rfl <;> simp [quote]

theorem standsAlone_of_length (hd : d.quote = '"') {t : String} (h : 3 ≤ (tokens t).length) :
    d.standsAlone t = false := by
  unfold standsAlone
  rw [tokens_quotes hd]
  match tokens t, h with
  | _ :: _ :: _ :: _, _ => rfl

/-- Two words stand alone only if the first one is the name of a type. -/
theorem standsAlone_of_head (hd : d.quote = '"') {t v : String} {ws : List String}
    (h : tokens t = v :: ws) (ne : ws ≠ []) (type : v ≠ "DATE" ∧ v ≠ "TIMESTAMP") :
    d.standsAlone t = false := by
  unfold standsAlone
  rw [tokens_quotes hd, h]
  match ws, ne with
  | [w], _ => simp [type]
  | _ :: _ :: _, _ => rfl

/-- **The text of a feature stands alone** unless it is compound. -/
theorem standsAlone_feature (hd : d.quote = '"') (hL : ∀ v k, L v k → ∃ u, k.cast u = .ok v)
    {x : Feature} (h : x.Obeys (.outline N L D)) (bare : x.bare = x) :
    d.standsAlone (d.spellFeature x) = decide (x.form ≠ .compound) := by
  have legible : ∀ c ∈ x.children, Legible (d.spellFeature c) := fun c hc =>
    legible_feature hd hL c (h.children c hc)
  cases x with
  | aliased f n => exact absurd rfl (Feature.bare_eq_self.1 bare)
  | literal v k =>
    obtain ⟨t, ht⟩ := h.2
    rw [spellFeature_literal ht]
    exact standsAlone_of_alone hd (literalText_alone (hL v k h.1) ht)
  | element s n k =>
    obtain ⟨-, m, -, rfl⟩ := h.1
    exact standsAlone_of_alone hd (.inl (((quoted_word hd m).append (.of_plain (by decide) rfl)).append
      (quoted_word hd n)))
  | expression op args t =>
    have args_legible : ∀ a ∈ args, Legible (d.operand (d.spellFeature a)) := fun a ha =>
      legible_operand (legible a ha)
    rcases spellFeature_expression (d := d) h with ⟨a, b, rfl, hop, text⟩ | ⟨a, rfl, hop, text⟩ |
      ⟨a, rfl, hop, text⟩ | ⟨hop, text⟩ <;> rw [text] <;> simp only [Feature.form, hop]
    · have ha := args_legible a (by simp)
      have hb := args_legible b (by simp)
      have symbol := symbol_word (d := d) hop
      refine standsAlone_of_length hd ?_
      rw [(ha.spaced symbol.legible).tokens_spaced hb, ha.tokens_spaced symbol.legible, symbol.tokens]
      have := List.length_pos_of_ne_nil ha.tokens_ne_nil
      have := List.length_pos_of_ne_nil hb.tokens_ne_nil
      simp
      omega
    · have ha := args_legible a (by simp)
      obtain ⟨symbol, words⟩ := legible_symbol (.inr hop)
      have hnot : op = .not := by
        revert hop
        cases op <;> decide
      subst hnot
      refine standsAlone_of_head hd (v := "NOT") ?_ ha.tokens_ne_nil (by decide)
      rw [symbol.tokens_spaced ha, words]
      rfl
    · have ha := args_legible a (by simp)
      obtain ⟨symbol, words⟩ := legible_symbol (.inl hop)
      refine standsAlone_of_length hd ?_
      rw [ha.tokens_spaced symbol, words, List.length_append]
      have := List.length_pos_of_ne_nil ha.tokens_ne_nil
      have hnot : op ≠ .not := by
        rintro rfl
        cases hop
      have two : 2 ≤ (if op = .isNull then ["IS", "NULL"] else ["IS", "NOT", "NULL"]).length := by
        split <;> decide
      rw [if_neg hnot]
      omega
    · refine standsAlone_of_alone hd (.inl ((head_word hop).append (.parens (body_enclosed fun t ht => ?_))))
      obtain ⟨a, ha, rfl⟩ := List.mem_map.1 ht
      exact (legible a ha).enclosed
  | window fn ps os fr =>
    obtain ⟨-, inner, split⟩ := legible_spelled_window legible
    have fn_legible := legible fn (by simp [Feature.children])
    refine standsAlone_of_length hd ?_
    have := List.length_pos_of_ne_nil fn_legible.tokens_ne_nil
    rw [split, List.length_append]
    simp
    omega

end Dialect

end QueryAlgebra.Sql
