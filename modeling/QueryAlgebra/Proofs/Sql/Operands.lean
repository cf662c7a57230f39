import QueryAlgebra.Proofs.Sql.Keywords

/-!
# Clauses of the operands of set operations

A set operation is written as its two statements with a word between them, and neither statement
stands in parentheses. So the clauses of both are clauses of the whole text.

* `Source.keywords`: the keywords of the clauses that a source has.
* `keywords_of_compiled`: these are the keywords among the top-level tokens of its text.
* `operand_clauses_exposed`: a set operation has a top-level ordering or row limit exactly when one of
  its operands has one.
-/

namespace QueryAlgebra

/-- The ordering of a statement. -/
def Source.ordering : Source → List OrderTerm
  | .query _ _ _ _ _ ord _ => ord
  | _                      => []

/-- The row limit of a statement. -/
def Source.limit? : Source → Option RowRange
  | .query _ _ _ _ _ _ rows => rows
  | _                       => none

/-- The keywords of the clauses of a statement, and of the operands of a set operation. -/
def Source.keywords : Source → List String
  | .query _ _ pre grp post ord rows =>
    ["SELECT", "FROM"] ++ (if pre.isSome then ["WHERE"] else [])
      ++ (if grp.isEmpty then [] else ["GROUP", "BY"]) ++ (if post.isSome then ["HAVING"] else [])
      ++ (if ord.isEmpty then [] else ["ORDER", "BY"]) ++ (if rows.isSome then ["LIMIT"] else [])
  | .set l r k => l.keywords ++ [Sql.setKeyword k] ++ r.keywords
  | _          => []

theorem Source.order_mem_keywords {s : Source} (h : s.type = "Query") :
    ("ORDER" ∈ s.keywords ↔ s.ordering ≠ []) ∧ ("LIMIT" ∈ s.keywords ↔ s.limit?.isSome = true) := by
  cases s with
  | query s sel pre grp post ord rows =>
    cases pre <;> cases grp <;> cases post <;> cases ord <;> cases rows <;>
      simp [keywords, ordering, limit?]
  | _ => simp [Source.type] at h

namespace Sql

open Translation

/-! ### Skeletons -/

/-- A skeleton has the clauses of its source. -/
def clausal : Invariant Source Feature where
  rules := .none
  memo _ := True
  origins _ := True
  source s x := x.keywords = s.keywords
  fault _ := True

theorem clausal_lawful : clausal.Lawful skeleton where
  selected := Rules.selected_of_element fun _ _ _ => trivial
  connective _ _ _ _ _ _ := trivial
  nowhere := trivial
  put _ _ _ _ _ _ := trivial
  refused _ _ _ _ := trivial
  table := by
    rintro t x - ⟨⟩
    exact ⟨fun _ _ => trivial, fun _ _ => rfl⟩
  noTable _ := trivial
  reference _ _ := ⟨fun _ _ => trivial, rfl⟩
  join _ _ _ _ _ := rfl
  set := by
    intro l r k x y _ hx hy
    show x.keywords ++ _ ++ y.keywords = _
    rw [show x.keywords = l.keywords from hx, show y.keywords = r.keywords from hy]
    rfl
  query := by
    intro s sel pre grp post ord rows m x xs y ys z zs _ _ _ _ hy hys hz hzs
    -- What is remembered for a clause is there exactly when the clause is.
    have filter : y.isSome = pre.isSome := by
      have := hy.length_eq
      cases y <;> cases pre <;> simp_all
    have having : z.isSome = post.isSome := by
      have := hz.length_eq
      cases z <;> cases post <;> simp_all
    have groups : ys.isEmpty = grp.isEmpty := by
      have := hys.length_eq
      cases ys <;> cases grp <;> simp_all
    have orders : (zs.map fun o => OrderTerm.by o.1 o.2).isEmpty = ord.isEmpty := by
      have := hzs.length_eq
      cases zs <;> cases ord <;> simp_all
    show (Source.query x xs y ys z (zs.map fun o => .by o.1 o.2) rows).keywords = _
    simp only [Source.keywords, filter, having, groups, orders]

theorem keywords_of_skeleton {s x : Source}
    (h : (eval (directSource skeleton s) Bench.fresh).1 = .ok x) : x.keywords = s.keywords :=
  (clausal_lawful.source_outcome s s.obeys_none ⟨trivial, trivial, Readings.All.empty⟩).ok x h

/-! ### Keywords among tokens -/

/-- The keywords of clauses among the top-level tokens of a text. -/
def keywordsIn (text : String) : List String := (tokens text).filter clauseKeywords.contains

theorem keywordsIn_tame {t : String} (h : Tame t) : keywordsIn t = [] :=
  List.filter_eq_nil_iff.2 fun w hw => by simpa using h w hw

theorem keywordsIn_of_tokens {t : String} {us : List String} (h : tokens t = us) :
    keywordsIn t = us.filter clauseKeywords.contains := by
  rw [keywordsIn, h]

namespace Dialect

variable {d : Dialect} (hd : d.quote = '"')

/-- The text consists of keywords of clauses. -/
def Keywords (k : String) (ws : List String) : Prop :=
  Legible k ∧ tokens k = ws ∧ ∀ w ∈ ws, w ∈ clauseKeywords

theorem keywords_phrase (ws : List String) (ne : ws ≠ [])
    (h : (ws.all fun w => w != "" && w.toList.all fun c => isPlain c && !Text.isBlank c) = true)
    (keywords : ∀ w ∈ ws, w ∈ clauseKeywords) : Keywords (" ".intercalate ws) ws :=
  ⟨(Legible.phrase ws h ne).1, (Legible.phrase ws h ne).2, keywords⟩

/-- Keywords before a tame text are the only ones there. -/
theorem keywordsIn_behind {k t : String} {ws : List String} (hk : Keywords k ws)
    (ht : Legible t ∧ Tame t) : keywordsIn (k ++ " " ++ t) = ws := by
  obtain ⟨legible, words, keywords⟩ := hk
  have none : (tokens t).filter clauseKeywords.contains = [] := keywordsIn_tame ht.2
  have all : ws.filter clauseKeywords.contains = ws :=
    List.filter_eq_self.2 fun w hw => by simpa using keywords w hw
  rw [keywordsIn_of_tokens (legible.tokens_spaced ht.1), List.filter_append, words, none, all,
    List.append_nil]

theorem keywordsIn_clause {k : String} {ws : List String} (hk : Keywords k ws)
    {o : Option String} (ho : ∀ t ∈ o, Legible t ∧ Tame t) :
    (clause k o).flatMap keywordsIn = if o.isSome then ws else [] := by
  cases o with
  | none => rfl
  | some t => simpa [clause] using keywordsIn_behind hk (ho t rfl)

theorem keywordsIn_listClause {k : String} {ws : List String} (hk : Keywords k ws)
    {ts : List String} (hts : ∀ t ∈ ts, Legible t ∧ Tame t) :
    (listClause k ts).flatMap keywordsIn = if ts.isEmpty then [] else ws := by
  cases ts with
  | nil => rfl
  | cons t r =>
    have legible := legible_listed (fun u hu => (hts u hu).1) (by simp)
    simpa [listClause] using keywordsIn_behind hk ⟨legible, Tame.listed hts⟩

theorem tame_orderText {os : List (OrderSymbol String)} (h : ∀ o ∈ os, Legible o.1 ∧ Tame o.1) :
    Tame (orderText os) := by
  refine Tame.listed fun t ht => ?_
  obtain ⟨o, ho, rfl⟩ := List.mem_map.1 ht
  have word := order_word o.2
  refine ⟨(h o ho).1.spaced word.legible, .of_tokens ((h o ho).1.tokens_spaced word.legible)
    (h o ho).2 ?_⟩
  rw [word.tokens]
  rcases o.2 with _ | _ | (_ | _) <;> decide

theorem tame_limit (r : RowRange) : Tame (limitText r) := by
  have number : ∀ n : Nat, Word (Number.ofNat n).text ∧ Tame (Number.ofNat n).text := fun n => by
    have word : Word (Number.ofNat n).text := .of_plain (Number.text_ne_empty _)
      (List.all_eq_true.2 fun c hc => isPlain_of_isWord (Number.isWord_of_mem_text _ c hc))
    exact ⟨word, .of_word word (number_not_keyword _)⟩
  unfold limitText
  split
  · exact (number r.count).2
  · have legible := (number r.offset).1.legible
    have front := (legible.mark (m := ",") (.of_plain (by decide) rfl)).1
    have same : r.offsetText ++ ", " ++ r.countText
        = (Number.ofNat r.offset).text ++ "," ++ " " ++ (Number.ofNat r.count).text :=
      String.toList_inj.1 (by simp [RowRange.offsetText, RowRange.countText])
    rw [same]
    exact .of_tokens (front.tokens_spaced (number r.count).1.legible)
      ((number r.offset).2.comma legible) (number r.count).2

/-- The keywords of the clauses behind the source of a statement. -/
theorem keywordsIn_laterClauses {filter : Option String} {groupby : List String}
    {having : Option String} {orderby : List (OrderSymbol String)} (rows : Option RowRange)
    (hfilter : ∀ t ∈ filter, Legible t ∧ Tame t) (hgroupby : ∀ t ∈ groupby, Legible t ∧ Tame t)
    (hhaving : ∀ t ∈ having, Legible t ∧ Tame t)
    (horderby : ∀ o ∈ orderby, Legible o.1 ∧ Tame o.1) :
    (laterClauses filter groupby having orderby rows).flatMap keywordsIn
      = (if filter.isSome then ["WHERE"] else []) ++ (if groupby.isEmpty then [] else ["GROUP", "BY"])
        ++ (if having.isSome then ["HAVING"] else [])
        ++ (if orderby.isEmpty then [] else ["ORDER", "BY"])
        ++ (if rows.isSome then ["LIMIT"] else []) := by
  have limits : ∀ t ∈ rows.map limitText, Legible t ∧ Tame t := by
    intro t ht
    obtain ⟨r, -, rfl⟩ := Option.mem_map.1 ht
    exact ⟨legible_limit r, tame_limit r⟩
  have ordered : (if orderby.isEmpty then [] else ["ORDER BY " ++ orderText orderby]).flatMap
      keywordsIn = if orderby.isEmpty then [] else ["ORDER", "BY"] := by
    cases orderby with
    | nil => rfl
    | cons o r =>
      have legible := legible_terms (fun o ho => (horderby o ho).1) (by simp)
      simpa using keywordsIn_behind (keywords_phrase ["ORDER", "BY"] (by simp) rfl (by decide))
        ⟨legible, tame_orderText horderby⟩
  have whereWord : Keywords "WHERE" ["WHERE"] := keywords_phrase ["WHERE"] (by simp) rfl (by decide)
  have groupBy : Keywords "GROUP BY" ["GROUP", "BY"] :=
    keywords_phrase ["GROUP", "BY"] (by simp) rfl (by decide)
  have havingWord : Keywords "HAVING" ["HAVING"] := keywords_phrase ["HAVING"] (by simp) rfl (by decide)
  have limitWord : Keywords "LIMIT" ["LIMIT"] := keywords_phrase ["LIMIT"] (by simp) rfl (by decide)
  simp only [laterClauses, List.flatMap_append, ordered, keywordsIn_clause whereWord hfilter,
    keywordsIn_listClause groupBy hgroupby, keywordsIn_clause havingWord hhaving,
    keywordsIn_clause limitWord limits, Option.isSome_map]

include hd in
/-- **The keywords among the tokens of a statement** are those of its clauses. -/
theorem keywordsIn_query {s : Source} {sel : List Feature} {pre : Option Feature}
    {grp : List Feature} {post : Option Feature} {ord : List OrderTerm} {rows : Option RowRange}
    (h : (Source.query s sel pre grp post ord rows).Obeys .written) :
    keywordsIn (d.spellSource (.query s sel pre grp post ord rows))
      = (Source.query s sel pre grp post ord rows).keywords := by
  have words := (legible_spelled_query hd (fun _ _ h => h.1) h
    (legible_source hd (fun _ _ h => h.1) s h.2.1)).2
  have source : keywordsIn (subquery (d.spellSource s)) = [] := keywordsIn_tame (tame_subquery hd s h.2.1)
  have ordering := h.statement.ordering
  obtain ⟨-, -, hsel, hpre, hgrp, hpost, -⟩ := h
  have features : keywordsIn (listed (sel.map d.spellFeature)) = [] :=
    keywordsIn_tame (Tame.listed (tame_features hd hsel))
  have terms : ∀ o ∈ ord.map fun o => (d.spellFeature o.feature, o.direction),
      Legible o.1 ∧ Tame o.1 := by
    intro o ho
    obtain ⟨u, hu, rfl⟩ := List.mem_map.1 ho
    have hu := ordering u hu
    exact ⟨legible_feature hd (fun _ _ h => h.1) u.feature hu, tame_feature hd u.feature hu⟩
  have later := keywordsIn_laterClauses rows (tame_option hd hpre) (tame_features hd hgrp)
    (tame_option hd hpost) terms
  unfold keywordsIn at source features later
  rw [keywordsIn_of_tokens words, List.filter_append, List.filter_append, List.filter_flatMap]
  rw [List.filter_cons_of_pos (by decide), List.filter_cons_of_pos (by decide), source, features]
  rw [show (fun b => List.filter clauseKeywords.contains (tokens b))
    = fun t => (tokens t).filter clauseKeywords.contains from rfl, later]
  simp [Source.keywords]

include hd in
/-- **The keywords among the tokens of any source** are those of the clauses that are not in
parentheses. -/
theorem keywordsIn_source : ∀ x : Source, x.Obeys .written → keywordsIn (d.spellSource x) = x.keywords
  | .set l r k, h => by
    have hl := legible_source hd (fun _ _ h => h.1) l h.2.1
    have hr := legible_source hd (fun _ _ h => h.1) r h.2.2
    have word := set_word k
    have words : tokens (d.spellSource l ++ " " ++ setKeyword k ++ " " ++ d.spellSource r)
        = tokens (d.spellSource l) ++ [setKeyword k] ++ tokens (d.spellSource r) := by
      rw [(hl.spaced word.legible).tokens_spaced hr, hl.tokens_spaced word.legible, word.tokens]
    have left := keywordsIn_source l h.2.1
    have right := keywordsIn_source r h.2.2
    unfold keywordsIn at left right
    show keywordsIn (d.spellSource l ++ " " ++ setKeyword k ++ " " ++ d.spellSource r) = _
    rw [keywordsIn_of_tokens words, List.filter_append, List.filter_append, left, right]
    cases k <;> rfl
  | .query .., h => keywordsIn_query hd h
  | .table t, h => keywordsIn_tame (tame_source hd h nofun)
  | .reference s n, h => keywordsIn_tame (tame_source hd h nofun)
  | .join l r k c, h => keywordsIn_tame (tame_source hd h nofun)

end Dialect

/-- **The keywords of clauses among the top-level tokens** of the text of a source are those of its
own clauses and of the operands of a set operation; no name and no literal adds one. -/
theorem keywords_of_compiled {d : Dialect} (hd : d.quote = '"') {s : Source} (built : s.Built)
    {text : String} (compiled : d.compiled s = .ok (some (.source text))) :
    (outerTokens d.quotes text).filter clauseKeywords.contains = s.keywords := by
  obtain ⟨x, hx, written, -, rfl⟩ := Dialect.compiled_spelling built compiled
  rw [Dialect.tokens_quotes hd, ← keywords_of_skeleton hx]
  exact Dialect.keywordsIn_source hd x written

/-- **Clauses of the operands are clauses of the set operation**: its text has a top-level ordering
exactly when one of the operands has one, and a top-level row limit exactly when one of them has
one. -/
theorem operand_clauses_exposed {d : Dialect} (hd : d.quote = '"') {l r : Source} {k : SetOp}
    (built : (Source.set l r k).Built) {text : String}
    (compiled : d.compiled (.set l r k) = .ok (some (.source text))) :
    (outerTokens d.quotes text).filter clauseKeywords.contains
        = l.keywords ++ [setKeyword k] ++ r.keywords ∧
      ("ORDER" ∈ outerTokens d.quotes text ↔ l.ordering ≠ [] ∨ r.ordering ≠ []) ∧
      ("LIMIT" ∈ outerTokens d.quotes text ↔ l.limit?.isSome = true ∨ r.limit?.isSome = true) := by
  have keywords := keywords_of_compiled hd built compiled
  have among : ∀ w ∈ clauseKeywords, (w ∈ outerTokens d.quotes text ↔
      w ∈ l.keywords ++ [setKeyword k] ++ r.keywords) := by
    intro w hw
    have filtered : w ∈ (outerTokens d.quotes text).filter clauseKeywords.contains ↔
        w ∈ (Source.set l r k).keywords := by rw [keywords]
    simpa [List.mem_filter, hw, Source.keywords] using filtered
  obtain ⟨hl, hr⟩ := built.inv_set_queries
  obtain ⟨lorder, llimit⟩ := Source.order_mem_keywords hl
  obtain ⟨rorder, rlimit⟩ := Source.order_mem_keywords hr
  have notSet : "ORDER" ≠ setKeyword k ∧ "LIMIT" ≠ setKeyword k := by cases k <;> decide
  refine ⟨keywords, ?_, ?_⟩
  · rw [among "ORDER" (by decide)]
    simp [notSet.1, lorder, rorder]
  · rw [among "LIMIT" (by decide)]
    simp [notSet.2, llimit, rlimit]

/-- Two plain statements with a word between them. -/
theorem operand_clauses_exposed_of_plain :
    let student : Source := .table ⟨"student", [("surname", ⟨.primitive .string, "surname"⟩)]⟩
    let all : Source := .query student [] none [] none [] none
    ∃ text, Dialect.standard.compiled (.set all all .union) = .ok (some (.source text)) ∧
      "ORDER" ∉ outerTokens Dialect.standard.quotes text ∧
      "LIMIT" ∉ outerTokens Dialect.standard.quotes text := by
  intro student all
  have every : all.Built :=
    .query (.of_distinct rfl) Source.Clauses.empty_built (show student.queryOf .empty = .ok all from rfl)
  have built : (Source.set all all .union).Built := by
    refine .combined (k := .union) every every ?_
    have same : all.schema.same all.schema = true := by decide +kernel
    simp [Source.combined, Source.statement, all, same]
  have compiled := eq_of_textOf (show textOf (Dialect.standard.compiled (.set all all .union))
    = some "SELECT \"student\".\"surname\" FROM \"student\" UNION SELECT \"student\".\"surname\" FROM \"student\""
    by decide +kernel)
  obtain ⟨-, order, limit⟩ := operand_clauses_exposed rfl built compiled
  exact ⟨_, compiled, by rw [order]; simp [Source.ordering, all], by rw [limit]; simp [Source.limit?, all]⟩

/-- The ordering and the row limit of the left operand stand among the top-level tokens, where they
concern the whole union. -/
theorem operand_clauses_leak :
    let student : Source := .table ⟨"student", [("surname", ⟨.primitive .string, "surname"⟩),
      ("score", ⟨.primitive .float, "score"⟩)]⟩
    let surname : Feature := .element student "surname" (.primitive .string)
    let score : Feature := .element student "score" (.primitive .float)
    let first : Source := .query student [surname] none [] none [.by score .ascending] (some ⟨1, 0⟩)
    let all : Source := .query student [surname] none [] none [] none
    (Source.set first all .union).Built ∧ ∃ text,
      Dialect.standard.compiled (.set first all .union) = .ok (some (.source text)) ∧
        "ORDER" ∈ outerTokens Dialect.standard.quotes text ∧
        "LIMIT" ∈ outerTokens Dialect.standard.quotes text := by
  intro student surname score first all
  have table : student.Built := .of_distinct rfl
  have hsurname : surname.Built := .element table (show student.get "surname" = .ok _ from rfl)
  have hscore : score.Built := .element table (show student.get "score" = .ok _ from rfl)
  have one : ∀ o ∈ [Operand.feature surname], o.Built := fun o ho =>
    List.mem_singleton.1 ho ▸ .feature hsurname
  have surnameWithin : (elementsIn [surname]).subset (elementsIn student.features) = true := by
    decide +kernel
  have scoreWithin : (elementsIn [score]).subset (elementsIn student.features) = true := by
    decide +kernel
  have hall : all.Built := .selecting table (fun f hf => List.mem_singleton.1 hf ▸ hsurname)
    fun f hf => List.mem_singleton.1 hf ▸ by decide +kernel
  have hfirst : first.Built := by
    obtain ⟨-, pre, grp, post, -⟩ := Source.Clauses.empty_built
    refine .query (c := { Clauses.empty with
      selection := [.feature surname], ordering := [.term (.by score .ascending)],
      rows := some ⟨.number (.ofNat 1), .number (.ofNat 0)⟩ }) table
      (.mk one pre grp post fun o ho => List.mem_singleton.1 ho ▸ .term (.by _ hscore)) ?_
    have limit : Limit.toRange ⟨.number (.ofNat 1), .number (.ofNat 0)⟩ student.text = .ok ⟨1, 0⟩ := by
      have count : (Value.number (.ofNat 1)).natural? = some 1 := by decide +kernel
      have offset : (Value.number (.ofNat 0)).natural? = some 0 := by decide +kernel
      simp [Limit.toRange, count, offset]
    simp [Source.queryOf, Operand.whole, Feature.requireWithin, surnameWithin, scoreWithin,
      Clauses.empty, filterOf, OrderTerm.make, OrderTerm.feature, limit, first]
  have built : (Source.set first all .union).Built := by
    refine .combined (k := .union) hfirst hall ?_
    have same : first.schema.same all.schema = true := by decide +kernel
    simp [Source.combined, Source.statement, first, all] at same ⊢
    simp [same]
  have compiled := eq_of_textOf (show textOf (Dialect.standard.compiled (.set first all .union)) = some
    "SELECT \"student\".\"surname\" FROM \"student\" ORDER BY \"student\".\"score\" ASC LIMIT 1 UNION SELECT \"student\".\"surname\" FROM \"student\""
    by decide +kernel)
  refine ⟨built, _, compiled, ?_, ?_⟩ <;> decide +kernel

end Sql

end QueryAlgebra
