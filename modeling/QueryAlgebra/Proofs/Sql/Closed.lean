import QueryAlgebra.Proofs.Sql.Statement
import QueryAlgebra.Proofs.Translation.Composition

/-!
# Closed texts

A text is closed when the reader is outside of quotes and of brackets at its end. Blanks behind a closed
text separate its tokens from those of all that follows. Every text that is rendered is closed, so texts
can be put together without any of their tokens running into another one.

* `Closed`: closed texts.
* `outerTokens_append`: the tokens of two texts with blanks between them, the first of them closed.
* `Enclosed.closed`: what is one token in parentheses is closed.
* `closing`: every text that a translator has made is one token in parentheses; `closing_lawful`: every
  node keeps that.
* `Rendered`: the texts that are rendered, whatever was rendered before them; `Rendered.enclosed`: they
  are such texts.
* `rendered_compose`: so they are closed, and blanks part their tokens from those of what follows.
-/

namespace QueryAlgebra.Sql

open Text (isBlank)
open Translation

/-! ### Reading on -/

namespace Lexer

variable {quotes : List Char}

/-- The reader behind tokens that were completed before. -/
def behind (before : List (List Char)) (l : Lexer) : Lexer := { l with tokens := before ++ l.tokens }

theorem close_behind (before : List (List Char)) (l : Lexer) :
    (l.behind before).close = l.close.behind before := by
  unfold close behind
  split <;> simp

theorem step_behind (before : List (List Char)) (l : Lexer) (c : Char) :
    (l.behind before).step quotes c = (l.step quotes c).behind before := by
  have closes := close_behind before l
  cases hq : l.quote with
  | some q => by_cases h : c = q <;> simp [step, behind, keep, hq, h]
  | none =>
    by_cases quote : c ∈ quotes
    · simp [step, behind, keep, hq, quote]
    · by_cases opens : c = '(' ∨ c = '['
      · simp [step, behind, keep, hq, quote, opens]
      · by_cases shuts : c = ')' ∨ c = ']'
        · simp [step, behind, keep, hq, quote, opens, shuts]
        · by_cases blank : l.depth = 0 ∧ isBlank c = true
          · simpa [step, behind, hq, quote, opens, shuts, blank] using closes
          · simp [step, behind, keep, hq, quote, opens, shuts, blank]

/-- Tokens that were completed before do not matter. -/
theorem run_behind (before : List (List Char)) (cs : List Char) (l : Lexer) :
    (l.behind before).run quotes cs = (l.run quotes cs).behind before := by
  induction cs generalizing l with
  | nil => rfl
  | cons c r ih =>
    show ((l.behind before).step quotes c).run quotes r = _
    rw [step_behind, ih]
    rfl

theorem close_close (l : Lexer) : l.close.close = l.close := by
  unfold close
  split <;> simp_all

theorem close_quote (l : Lexer) : l.close.quote = l.quote := by
  unfold close
  split <;> rfl

theorem close_depth (l : Lexer) : l.close.depth = l.depth := by
  unfold close
  split <;> rfl

/-- A blank outside of quotes and brackets completes the current token. -/
theorem step_blank {l : Lexer} (outside : l.quote = none ∧ l.depth = 0) {c : Char}
    (blank : isBlank c = true) (free : c ∉ quotes) : l.step quotes c = l.close := by
  have noBracket : ∀ b ∈ ['(', '[', ')', ']'], c ≠ b := by
    have visible : ∀ b ∈ ['(', '[', ')', ']'], isBlank b = false := by simp [isBlank]
    rintro b hb rfl
    exact Bool.eq_false_iff.1 (visible c hb) blank
  simp only [List.mem_cons, List.not_mem_nil, or_false, forall_eq_or_imp, forall_eq] at noBracket
  simp [step, outside, free, noBracket, blank]

/-- Any number of them completes it once. -/
theorem run_blanks {w : List Char} (ne : w ≠ []) (blank : ∀ c ∈ w, isBlank c = true)
    (free : ∀ c ∈ w, c ∉ quotes) {l : Lexer} (outside : l.quote = none ∧ l.depth = 0) :
    l.run quotes w = l.close := by
  induction w generalizing l with
  | nil => exact absurd rfl ne
  | cons c r ih =>
    obtain ⟨first, rest⟩ := List.forall_mem_cons.1 blank
    obtain ⟨freeFirst, freeRest⟩ := List.forall_mem_cons.1 free
    show (l.step quotes c).run quotes r = _
    rw [step_blank outside first freeFirst]
    cases r with
    | nil => rfl
    | cons d r =>
      rw [ih (by simp) rest freeRest ⟨by rw [close_quote, outside.1], by rw [close_depth, outside.2]⟩,
        close_close]

/-- Which quote is open, and how the depth changes, does not depend on the depth. -/
theorem step_shift {l m : Lexer} (same : l.quote = m.quote) (c : Char) :
    (l.step quotes c).quote = (m.step quotes c).quote ∧
      (l.step quotes c).depth - l.depth = (m.step quotes c).depth - m.depth := by
  cases hq : m.quote with
  | some q => by_cases h : c = q <;> simp [step, keep, same, hq, h]
  | none =>
    by_cases quote : c ∈ quotes
    · simp [step, keep, same, hq, quote]
    · by_cases opens : c = '(' ∨ c = '['
      · simp [step, keep, same, hq, quote, opens]
      · by_cases shuts : c = ')' ∨ c = ']'
        · simp [step, keep, same, hq, quote, opens, shuts]
        · have stays : ∀ n : Lexer, n.quote = none → (n.step quotes c).quote = none ∧
              (n.step quotes c).depth = n.depth := by
            intro n hn
            by_cases blank : n.depth = 0 ∧ isBlank c = true
            · simp [step, hn, quote, opens, shuts, blank, close_quote, close_depth]
            · simp [step, keep, hn, quote, opens, shuts, blank]
          obtain ⟨hl, dl⟩ := stays l (same.trans hq)
          obtain ⟨hm, dm⟩ := stays m hq
          rw [hl, hm, dl, dm]
          simp

theorem run_shift (cs : List Char) {l m : Lexer} (same : l.quote = m.quote) :
    (l.run quotes cs).quote = (m.run quotes cs).quote ∧
      (l.run quotes cs).depth - l.depth = (m.run quotes cs).depth - m.depth := by
  induction cs generalizing l m with
  | nil => simp [run, same]
  | cons c r ih =>
    obtain ⟨quote, depth⟩ := @step_shift quotes _ _ same c
    obtain ⟨quote', depth'⟩ := ih quote
    refine ⟨quote', ?_⟩
    show ((l.step quotes c).run quotes r).depth - _ = ((m.step quotes c).run quotes r).depth - _
    omega

end Lexer

/-! ### Closed texts -/

/-- At the end of the text no quote is open, and as many brackets are closed as were opened. -/
def Closed (quotes : List Char) (text : String) : Prop :=
  let l := Lexer.start.run quotes text.toList
  l.quote = none ∧ l.depth = 0

/-- **Behind a closed text blanks part its tokens from those of what follows**, if no quote is blank. -/
theorem outerTokens_append {quotes : List Char} (visible : ∀ q ∈ quotes, isBlank q = false)
    {a w : String} (closed : Closed quotes a) (ne : w ≠ "") (blank : ∀ c ∈ w.toList, isBlank c = true)
    (b : String) : outerTokens quotes (a ++ w ++ b) = outerTokens quotes a ++ outerTokens quotes b := by
  have free : ∀ c ∈ w.toList, c ∉ quotes := fun c hc hq =>
    Bool.eq_false_iff.1 (visible c hq) (blank c hc)
  have parted := Lexer.run_blanks (toList_ne_nil ne) blank free closed
  -- Behind the blanks the reader is where it starts, apart from the tokens that it has completed.
  have again : (Lexer.start.run quotes a.toList).close
      = Lexer.start.behind (Lexer.start.run quotes a.toList).close.tokens := by
    obtain ⟨quote, depth⟩ := closed
    generalize Lexer.start.run quotes a.toList = l at quote depth ⊢
    obtain ⟨ts, cur, _, _⟩ := l
    cases quote
    cases depth
    cases cur <;> simp [Lexer.close, Lexer.start, Lexer.behind]
  unfold outerTokens
  rw [String.toList_append, String.toList_append, Lexer.run_append, Lexer.run_append, parted, again,
    Lexer.run_behind, Lexer.close_behind]
  simp [Lexer.behind, show Lexer.start.tokens = [] from rfl]

/-- What is one token in parentheses is closed. -/
theorem Enclosed.closed {t : String} (h : Enclosed t) : Closed standardQuotes t := by
  -- Between parentheses the reader keeps all characters, so it is left as deep as it was.
  have inside := h ⟨[], [], 1, none⟩ rfl (Int.le_refl 1)
  have shifted := @Lexer.run_shift standardQuotes t.toList Lexer.start ⟨[], [], 1, none⟩ rfl
  rw [inside, Lexer.add_quote, Lexer.add_depth] at shifted
  exact ⟨shifted.1, by simpa [Lexer.start] using shifted.2⟩

/-! ### Texts of nodes -/

namespace Dialect

variable {d : Dialect} {t u : String} {xs ys : List String}

theorem enclosed_operand (h : Enclosed t) : Enclosed (d.operand t) := by
  unfold operand
  split
  · exact h
  · exact (Word.parens h).enclosed

theorem enclosed_subquery (h : Enclosed t) : Enclosed (subquery t) := by
  unfold subquery
  split
  · exact (Word.parens h).enclosed
  · exact h

theorem enclosed_joinSide (h : Enclosed t) : Enclosed (d.joinSide t) := by
  have parens : Enclosed (parens t) := (Word.parens h).enclosed
  unfold joinSide
  split
  · exact parens
  · split
    · exact h
    · split
      · exact h
      · exact parens
    · exact parens

theorem enclosed_orderText {os : List (OrderSymbol String)} (h : ∀ o ∈ os, Enclosed o.1) :
    Enclosed (orderText os) := by
  refine .listed fun t ht => ?_
  obtain ⟨o, ho, rfl⟩ := List.mem_map.1 ht
  exact ((h o ho).append enclosed_blank).append (order_word o.2).enclosed

/-- A symbol of an operator opens and closes nothing. -/
theorem symbol_plain (op : Operator) : op.symbol.toList.all isPlain = true := by
  cases op <;> rfl

/-- A name with arguments in parentheses behind it. -/
theorem enclosed_call {name : String} (plain : name.toList.all isPlain = true) (h : Enclosed t) :
    Enclosed (name ++ "(" ++ t ++ ")") := by
  have whole : name ++ "(" ++ t ++ ")" = name ++ ("(" ++ t ++ ")") := by
    simp only [String.append_assoc]
  rw [whole]
  exact Enclosed.append (.of_plain plain) (Word.parens h).enclosed

theorem enclosed_expression {op : Operator} {k : Kind} (h : ∀ x ∈ xs, Enclosed x)
    (ht : d.expressionText op xs k = .ok t) : Enclosed t := by
  have joined : ∀ {us : List String}, (∀ x ∈ us, Enclosed x) → Enclosed ("".intercalate us) :=
    fun hu => .intercalate (.of_plain rfl) hu
  have operands : ∀ x ∈ xs.map d.operand, Enclosed x := List.forall_mem_map.2 fun x hx =>
    enclosed_operand (h x hx)
  have symbol : Enclosed op.symbol := .of_plain (symbol_plain op)
  cases hop : op.fixity with
  | between =>
    obtain rfl := Except.ok.inj ((expressionText_between hop xs k).symm.trans ht)
    exact .intercalate ((enclosed_blank.append (symbol_word hop).enclosed).append enclosed_blank) operands
  | front =>
    obtain rfl := Except.ok.inj ((expressionText_front hop xs k).symm.trans ht)
    exact (symbol.append enclosed_blank).append (joined operands)
  | behind =>
    obtain rfl := Except.ok.inj ((expressionText_behind hop xs k).symm.trans ht)
    exact ((joined operands).append enclosed_blank).append symbol
  | call =>
    by_cases hcast : op = .cast
    · subst hcast
      simp only [expressionText] at ht
      split at ht
      · rename_i type named
        obtain rfl := Except.ok.inj ht
        have inner : Enclosed ("".intercalate xs ++ " AS " ++ type) :=
          ((joined h).append (.of_plain rfl)).append (typeName_word named).enclosed
        have whole : "CAST(" ++ "".intercalate xs ++ " AS " ++ type ++ ")"
            = "CAST" ++ "(" ++ ("".intercalate xs ++ " AS " ++ type) ++ ")" :=
          String.toList_inj.1 (by simp)
        rw [whole]
        exact enclosed_call rfl inner
      · cases ht
    · by_cases hcount : op = .count
      · subst hcount
        obtain rfl := Except.ok.inj ht
        refine @enclosed_call _ "count" rfl ?_
        split
        · exact .of_plain rfl
        · exact joined h
      · have call : d.expressionText op xs k = .ok (op.symbol ++ "(" ++ listed xs ++ ")") := by
          cases op <;> first | rfl | exact absurd rfl hcast | exact absurd rfl hcount | cases hop
        obtain rfl := Except.ok.inj (call.symm.trans ht)
        exact enclosed_call (symbol_plain op) (.listed h)

theorem enclosed_listClause {k : String} (plain : k.toList.all isPlain = true)
    (h : ∀ x ∈ xs, Enclosed x) : ∀ x ∈ listClause k xs, Enclosed x := by
  unfold listClause
  split
  · simp
  · simpa using (Enclosed.append (.of_plain plain) enclosed_blank).append (.listed h)

theorem enclosed_clause {k : String} (plain : k.toList.all isPlain = true) {c : Option String}
    (h : ∀ x ∈ c, Enclosed x) : ∀ x ∈ clause k c, Enclosed x := by
  cases c with
  | none => simp [clause]
  | some x => simpa [clause] using (Enclosed.append (.of_plain plain) enclosed_blank).append (h x rfl)

theorem enclosed_orderClause {os : List (OrderSymbol String)} (h : ∀ o ∈ os, Enclosed o.1) :
    ∀ x ∈ (if os.isEmpty then [] else ["ORDER BY " ++ orderText os]), Enclosed x := by
  split
  · simp
  · simpa using Enclosed.append (t := "ORDER BY ") (.of_plain rfl) (enclosed_orderText h)

theorem enclosed_window {ps : List String} {os : List (OrderSymbol String)} {fr : Option Frame}
    (ht : Enclosed t) (hps : ∀ p ∈ ps, Enclosed p) (hos : ∀ o ∈ os, Enclosed o.1) :
    Enclosed (windowText t ps os fr) := by
  rw [windowText_eq]
  refine (ht.append (.of_plain rfl)).append (Word.parens (.intercalate enclosed_blank ?_)).enclosed
  refine List.forall_mem_append.2 ⟨List.forall_mem_append.2 ⟨enclosed_listClause rfl hps,
    enclosed_orderClause hos⟩, ?_⟩
  cases fr with
  | none => simp
  | some f => simpa using Enclosed.frame f

theorem enclosed_join {c : Option String} {k : JoinType} (ht : Enclosed t) (hu : Enclosed u)
    (hc : ∀ x ∈ c, Enclosed x) : Enclosed (d.joinText t u c k) := by
  have keyword : Enclosed (joinKeyword d.outer k) := (legible_joinKeyword d.outer k).1.enclosed
  have sides := ((((enclosed_subquery ht).append enclosed_blank).append keyword).append
    enclosed_blank).append (enclosed_joinSide (d := d) hu)
  refine sides.append ?_
  cases c with
  | none => exact .of_plain rfl
  | some x => exact Enclosed.append (t := " ON ") (.of_plain rfl) (hc x rfl)

theorem enclosed_query {filter : Option String} {groupby : List String} {having : Option String}
    {orderby : List (OrderSymbol String)} {rows : Option RowRange} (source : Enclosed t)
    (features : ∀ x ∈ xs, Enclosed x) (filtered : ∀ x ∈ filter, Enclosed x)
    (grouped : ∀ x ∈ groupby, Enclosed x) (kept : ∀ x ∈ having, Enclosed x)
    (ordered : ∀ o ∈ orderby, Enclosed o.1) :
    Enclosed (queryText t xs filter groupby having orderby rows) := by
  have limit : ∀ x ∈ rows.map limitText, Enclosed x := by
    intro x hx
    obtain ⟨r, -, rfl⟩ := Option.mem_map.1 hx
    exact (legible_limit r).enclosed
  refine .intercalate enclosed_blank ?_
  simp only [List.forall_mem_append, List.forall_mem_cons]
  exact ⟨⟨⟨⟨⟨⟨.append (.of_plain rfl) (.listed features),
    .append (.of_plain rfl) (enclosed_subquery source), nofun⟩, enclosed_clause rfl filtered⟩,
    enclosed_listClause rfl grouped⟩, enclosed_clause rfl kept⟩, enclosed_orderClause ordered⟩,
    enclosed_clause rfl limit⟩

end Dialect

/-! ### Texts of translators -/

/-- Every text that is remembered or stands for a source can stand in parentheses as one token. Literals
have values of their kinds. -/
def closing : Invariant String String where
  rules := .literals fun v k => ∃ u, k.cast u = .ok v
  memo m := ∀ k x, Remembers m k x → Enclosed x
  origins o := ∀ s x, o.get? s = some x → Enclosed x
  source _ x := Enclosed x
  fault _ := True

section

variable {m : List (String × String)} (hm : closing.memo m)
include hm

theorem closing_features {fs : List Feature} {xs : List String} (h : Remembered m fs xs) :
    ∀ x ∈ xs, Enclosed x :=
  forall_right_of_forall₂ (fun _ x => hm _ x) h

theorem closing_terms {os : List OrderTerm} {ys : List (OrderSymbol String)}
    (h : RememberedTerms m os ys) : ∀ y ∈ ys, Enclosed y.1 :=
  forall_right_of_forall₂ (fun _ _ h => hm _ _ h.1) h

theorem closing_option {c : Option Feature} {z : Option String} (h : Remembered m c.toList z.toList) :
    ∀ x ∈ z, Enclosed x := fun x hx => closing_features hm h x (Option.mem_toList.2 hx)

omit hm in
/-- What is visited may be addressed by such a text. -/
theorem closing_visited {o : KeyedMap Source String} (ho : closing.origins o) {x : String}
    (hx : Enclosed x) (s : Source) : closing.origins (o.set s x) := by
  intro u y hy
  by_cases hu : Keyed.key u = Keyed.key s
  · rw [KeyedMap.get?_set_of_eq _ _ hu.symm] at hy
    cases hy
    exact hx
  · rw [KeyedMap.get?_set_of_ne _ _ hu] at hy
    exact ho u y hy

/-- **What a node gives for such texts is one**, whatever strings it embeds. -/
theorem closing_gives {d : Dialect} (hd : d.quote = '"') {o : KeyedMap Source String} {f : Feature}
    {x : String} (hf : f.Obeys closing.rules) (ho : closing.origins o)
    (gives : (d.backend .empty .empty).Gives m o f (.ok x)) : Enclosed x := by
  have quoted : ∀ n, Enclosed (d.quoted n) := fun n => (d.quoted_word hd n).enclosed
  generalize hr : Except.ok x = r at gives
  cases gives with
  | aliased h =>
    cases hr
    exact ((hm _ _ h).append (.of_plain rfl)).append (quoted _)
  | literal => exact (literalText_alone hf hr.symm).legible.enclosed
  | @element s n k =>
    obtain ⟨y, hy, rfl⟩ := map_eq_ok.1
      (show ((d.backend .empty .empty).origin o s).map _ = .ok x from hr.symm)
    have origin : Enclosed y := by
      unfold Backend.origin at hy
      cases visited : o.get? s with
      | some z =>
        rw [visited] at hy
        cases hy
        exact ho s y visited
      | none =>
        rw [visited] at hy
        cases s with
        | table t =>
          cases hy
          exact quoted t.name
        | _ => cases hy
    exact (origin.append (.of_plain rfl)).append (quoted n)
  | expression h =>
    obtain ⟨y, hy, rfl⟩ := map_eq_ok.1 hr.symm
    exact Dialect.enclosed_expression (closing_features hm h) hy
  | window hfn hps hos =>
    obtain ⟨y, hy, rfl⟩ := map_eq_ok.1 hr.symm
    cases hy
    exact Dialect.enclosed_window (hm _ _ hfn) (closing_features hm hps) (closing_terms hm hos)

end

/-- **Every node renders such texts.** -/
theorem closing_lawful {d : Dialect} (hd : d.quote = '"') : closing.Lawful (d.backend .empty .empty) where
  selected := Rules.selected_of_element fun _ _ _ => trivial
  connective _ _ _ _ _ _ := trivial
  nowhere _ _ h := nomatch h
  put := by
    intro f m o x hf hm ho _ _ gives k y hy
    by_cases hk : k = f.key
    · subst hk
      obtain rfl : x = y := by
        rw [Remembers, Assoc.find?_put_self] at hy
        exact Option.some.inj hy
      exact closing_gives hm hd hf ho gives
    · rw [Remembers, Assoc.find?_put_of_ne _ _ hk] at hy
      exact hm k y hy
  refused _ _ _ _ := trivial
  table := by
    intro t x _ hx
    cases hx
    have name : Enclosed (d.quoted t.name) := (d.quoted_word hd t.name).enclosed
    exact ⟨fun o ho => closing_visited ho name _, fun _ _ => name⟩
  noTable _ := trivial
  reference := by
    intro s n x _ hx
    have name : Enclosed (d.quoted n) := (d.quoted_word hd n).enclosed
    exact ⟨fun o ho => closing_visited ho name _,
      ((Dialect.enclosed_operand hx).append (.of_plain rfl)).append name⟩
  join _ hm hx hy hz := Dialect.enclosed_join hx hy (closing_option hm hz)
  set _ hx hy :=
    (((hx.append enclosed_blank).append (Dialect.set_word _).enclosed).append enclosed_blank).append hy
  query _ hm hx hxs hy hys hz hzs := Dialect.enclosed_query hx (closing_features hm hxs)
    (closing_option hm hy) (closing_features hm hys) (closing_option hm hz) (closing_terms hm hzs)

/-- The texts that are rendered for built sources and features, without symbols that are provided, by a
translator that may have rendered others before: whole ones, and those of all the features that it has
rendered on its way. -/
inductive Rendered (d : Dialect) : String → Prop where
  | source {history : List Tree} (known : ∀ tree ∈ history, tree.Built) {s : Source} (built : s.Built)
      {text : String}
      (made : (((Translator.ofBackend (d.backend .empty .empty)).after history).serve
        (.finish (.source s))).1 = .ok (some (.source text))) : Rendered d text
  | feature {history : List Tree} (known : ∀ tree ∈ history, tree.Built) {f : Feature}
      (built : f.Built) {text : String}
      (made : (((Translator.ofBackend (d.backend .empty .empty)).after history).serve
        (.finish (.feature f))).1 = .ok (some (.feature text))) : Rendered d text
  | inner {history : List Tree} (known : ∀ tree ∈ history, tree.Built) {k text : String}
      (made : Remembers ((Translator.ofBackend (d.backend .empty .empty)).after history).state.memo
        k text) : Rendered d text

/-- The constructors ensure that literals have values of their kinds. -/
theorem Rules.ensures_literals : Rules.none.Ensures closing.rules where
  feature f hb _ := by
    cases f with
    | literal v k => exact hb.inv_literal
    | _ => trivial
  source _ _ _ := trivial

theorem obeys_of_built {tree : Tree} (built : tree.Built) : tree.Obeys closing.rules :=
  built.obeys Rules.ensures_literals tree.obeys_none

/-- **Rendered texts can stand in parentheses as one token.** -/
theorem Rendered.enclosed {d : Dialect} (hd : d.quote = '"') {text : String} (h : Rendered d text) :
    Enclosed text := by
  have nothing : closing.memo [] := fun _ _ h => nomatch h
  cases h with
  | source known built made =>
    exact (closing_lawful hd).source_compiled nothing (fun tree ht => obeys_of_built (known tree ht))
      (obeys_of_built (show Tree.Built (.source _) from built)) (Prod.ext made rfl)
  | feature known built made =>
    have obeys := obeys_of_built (show Tree.Built (.feature _) from built)
    obtain ⟨m, o, hm, ho, gives⟩ := (closing_lawful hd).feature_compiled nothing
      (fun tree ht => obeys_of_built (known tree ht)) obeys (Prod.ext made rfl)
    exact closing_gives hm hd obeys ho gives
  | inner known made =>
    obtain ⟨-, -, holds⟩ := (closing_lawful hd).after_holds
      (fun tree ht => obeys_of_built (known tree ht)) (t := .ofBackend _) rfl State.clean_fresh
      ⟨nothing, nofun, Readings.All.empty⟩
    exact holds.memo _ _ made

/-- **Texts can be put together.** Behind a text at whose end no quote and no bracket is open, blanks part
its tokens from those of whatever follows. Every text that is rendered is such a text, so neither blanks
behind it nor parentheses around it merge or split tokens. -/
theorem rendered_compose :
    (∀ quotes : List Char, (∀ q ∈ quotes, isBlank q = false) → ∀ a w : String, Closed quotes a →
      w ≠ "" → (∀ c ∈ w.toList, isBlank c = true) → ∀ b,
        outerTokens quotes (a ++ w ++ b) = outerTokens quotes a ++ outerTokens quotes b) ∧
    ∀ d : Dialect, d.quote = '"' → ∀ text, Rendered d text →
      Closed d.quotes text ∧
      outerTokens d.quotes (parens text) = [parens text] ∧
      ∀ w : String, w ≠ "" → (∀ c ∈ w.toList, isBlank c = true) → ∀ b,
        outerTokens d.quotes (text ++ w ++ b) = outerTokens d.quotes text ++ outerTokens d.quotes b := by
  refine ⟨fun quotes visible a w closed ne blank b => outerTokens_append visible closed ne blank b,
    fun d hd text rendered => ?_⟩
  have enclosed := rendered.enclosed hd
  have quotes : d.quotes = standardQuotes := by
    rw [Dialect.quotes, hd]
    rfl
  have closed : Closed d.quotes text := quotes ▸ enclosed.closed
  have visible : ∀ q ∈ d.quotes, isBlank q = false := by
    rw [quotes]
    simp [standardQuotes, isBlank]
  exact ⟨closed, (Dialect.tokens_quotes hd _).trans (Word.parens enclosed).tokens,
    fun w ne blank b => outerTokens_append visible closed ne blank b⟩

/-- A literal in which a careless reader sees an open parenthesis and a second token, with a word behind
it. -/
theorem rendered_compose_of_literal :
    Rendered .standard "'a (b'" ∧ Closed ['"'] "[x y]" ∧
      outerTokens ['"'] ("[x y]" ++ "  " ++ "z") = ["[x y]", "z"] ∧
      outerTokens Dialect.standard.quotes ("'a (b'" ++ "  " ++ "c") = ["'a (b'", "c"] := by
  have rendered : Rendered .standard "'a (b'" :=
    @Rendered.feature _ [] nofun (.literal (.text "a (b") (.primitive .string))
      (.literal (show Feature.literalOf (.text "a (b") none = .ok _ from rfl)) _ rfl
  have closed : Closed ['"'] "[x y]" := ⟨rfl, rfl⟩
  have visible : ∀ q ∈ ['"'], isBlank q = false := by simp [isBlank]
  have blanks : ∀ c ∈ "  ".toList, isBlank c = true := by simp [isBlank]
  refine ⟨rendered, closed, ?_, ?_⟩
  · rw [rendered_compose.1 ['"'] visible "[x y]" "  " closed (by simp) blanks "z"]
    rfl
  · rw [(rendered_compose.2 .standard rfl _ rendered).2.2 "  " (by simp) blanks "c"]
    rfl

end QueryAlgebra.Sql
