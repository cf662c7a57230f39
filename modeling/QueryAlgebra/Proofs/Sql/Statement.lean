import QueryAlgebra.Proofs.Sql.Spelling

/-!
# Texts of sources

* `Dialect.legible_join`, `Dialect.legible_query`: the tokens of joins and of statements.
* `Dialect.legible_source`: texts of sources are legible.
* `Dialect.standsAlone_source`, `Dialect.isStatement_source`, `Dialect.joinSide_source`: a text tells
  what it stands for, wherever that decides about parentheses.
-/

namespace QueryAlgebra.Sql.Dialect

open Translation

variable {d : Dialect} {N : String → Prop} {L : Value → Kind → Prop} {D : Direction → Prop}

/-! ### Sources -/

theorem spellSource_join (l r : Source) (k : JoinType) (c : Option Feature) :
    d.spellSource (.join l r k c)
      = d.joinText (d.spellSource l) (d.spellSource r) (c.map d.spellFeature) k := by
  rw [spellSource, ofSource, ofOption_eq_map]
  rfl

theorem spellSource_query (s : Source) (sel : List Feature) (pre : Option Feature)
    (grp : List Feature) (post : Option Feature) (ord : List OrderTerm) (rows : Option RowRange) :
    d.spellSource (.query s sel pre grp post ord rows)
      = queryText (d.spellSource s) (sel.map d.spellFeature) (pre.map d.spellFeature)
        (grp.map d.spellFeature) (post.map d.spellFeature)
        (ord.map fun o => (d.spellFeature o.feature, o.direction)) rows := by
  rw [spellSource, ofSource, ofFeatures_eq_map, ofFeatures_eq_map, ofOption_eq_map, ofOption_eq_map,
    ofTerms_eq_map]
  rfl

/-- What stands in front of the last word of a join. -/
def joinWords (outer : Bool) : JoinType → List String
  | .inner => []
  | .left  => if outer then ["LEFT", "OUTER"] else ["LEFT"]
  | .right => if outer then ["RIGHT", "OUTER"] else ["RIGHT"]
  | .full  => if outer then ["FULL", "OUTER"] else ["FULL"]
  | .cross => ["CROSS"]

theorem legible_joinKeyword (outer : Bool) (k : JoinType) : Legible (joinKeyword outer k) ∧
    tokens (joinKeyword outer k) = joinWords outer k ++ ["JOIN"] := by
  have same : joinKeyword outer k = " ".intercalate (joinWords outer k ++ ["JOIN"]) := by
    cases k <;> cases outer <;> rfl
  rw [same]
  exact Legible.phrase _ (by cases k <;> cases outer <;> rfl) (by simp)

theorem set_word (k : SetOp) : Word (setKeyword k) := by
  cases k <;> exact .of_plain (by decide) rfl

theorem legible_join {l r : String} (hl : Legible l) (hr : Legible r) {c : Option String}
    (hc : ∀ t ∈ c, Legible t) (k : JoinType) :
    Legible (d.joinText l r c k) ∧ tokens (d.joinText l r c k)
      = tokens (subquery l) ++ (joinWords d.outer k ++ ["JOIN"]) ++ tokens (d.joinSide r)
        ++ (c.toList.flatMap fun t => "ON" :: tokens t) := by
  have hl := legible_subquery hl
  obtain ⟨hk, keyword⟩ := legible_joinKeyword d.outer k
  have hr := legible_joinSide (d := d) hr
  have sides := (hl.spaced hk).spaced hr
  have split := (hl.spaced hk).tokens_spaced hr
  rw [hl.tokens_spaced hk, keyword] at split
  cases c with
  | none =>
    have text : d.joinText l r none k
        = subquery l ++ " " ++ joinKeyword d.outer k ++ " " ++ d.joinSide r := String.append_empty
    rw [text, split]
    exact ⟨sides, (List.append_nil _).symm⟩
  | some t =>
    have text : d.joinText l r (some t) k
        = subquery l ++ " " ++ joinKeyword d.outer k ++ " " ++ d.joinSide r ++ " ON " ++ t :=
      (String.append_assoc ..).symm
    obtain ⟨on, same⟩ := legible_word "ON" rfl
    obtain ⟨legible, whole⟩ := legible_around sides on (hc t rfl) (s := " ON ") rfl
    rw [text]
    exact ⟨legible, by rw [whole, split, same]; simp⟩

/-- The clauses of a statement behind its source. -/
def laterClauses (filter : Option String) (groupby : List String) (having : Option String)
    (orderby : List (OrderSymbol String)) (rows : Option RowRange) : List String :=
  clause "WHERE" filter ++ listClause "GROUP BY" groupby ++ clause "HAVING" having
    ++ (if orderby.isEmpty then [] else ["ORDER BY " ++ orderText orderby])
    ++ clause "LIMIT" (rows.map limitText)

theorem legible_limit (r : RowRange) : Legible (limitText r) := by
  have number : ∀ n : Nat, Word (Number.ofNat n).text := fun n =>
    .of_plain (Number.text_ne_empty _)
      (List.all_eq_true.2 fun c hc => isPlain_of_isWord (Number.isWord_of_mem_text _ c hc))
  unfold limitText
  split
  · exact (number _).legible
  · have comma := ((number r.offset).legible.mark (m := ",") (.of_plain (by decide) rfl)).1
    have same : r.offsetText ++ ", " ++ r.countText
        = (Number.ofNat r.offset).text ++ "," ++ " " ++ (Number.ofNat r.count).text :=
      String.toList_inj.1 (by simp [RowRange.offsetText, RowRange.countText])
    rw [same]
    exact comma.spaced (number _).legible

theorem legible_laterClauses {filter : Option String} {groupby : List String}
    {having : Option String} {orderby : List (OrderSymbol String)} (rows : Option RowRange)
    (hfilter : ∀ t ∈ filter, Legible t) (hgroupby : ∀ t ∈ groupby, Legible t)
    (hhaving : ∀ t ∈ having, Legible t) (horderby : ∀ o ∈ orderby, Legible o.1) :
    ∀ t ∈ laterClauses filter groupby having orderby rows, Legible t := by
  have optional : ∀ {k : String}, Legible k → ∀ {o : Option String}, (∀ t ∈ o, Legible t) →
      ∀ t ∈ clause k o, Legible t := by
    intro k hk o ho t ht
    cases o with
    | none => simp [clause] at ht
    | some u =>
      obtain rfl := List.mem_singleton.1 ht
      exact hk.spaced (ho u rfl)
  have several : ∀ {k : String}, Legible k → ∀ {ts : List String}, (∀ t ∈ ts, Legible t) →
      ∀ t ∈ listClause k ts, Legible t := by
    intro k hk ts hts t ht
    unfold listClause at ht
    split at ht
    · simp at ht
    · rename_i ne
      obtain rfl := List.mem_singleton.1 ht
      exact hk.spaced (legible_listed hts (by simpa using ne))
  have groupBy := (Legible.phrase ["GROUP", "BY"] rfl (by simp)).1
  have orderBy := (Legible.phrase ["ORDER", "BY"] rfl (by simp)).1
  intro t ht
  simp only [laterClauses, List.mem_append] at ht
  rcases ht with (((ht | ht) | ht) | ht) | ht
  · exact optional (legible_word "WHERE" rfl).1 hfilter t ht
  · exact several groupBy hgroupby t ht
  · exact optional (legible_word "HAVING" rfl).1 hhaving t ht
  · split at ht
    · simp at ht
    · rename_i ne
      obtain rfl := List.mem_singleton.1 ht
      exact (legible_keyword orderBy (legible_terms horderby (by simpa using ne)) (s := "ORDER BY ") rfl).1
  · refine optional (legible_word "LIMIT" rfl).1 (fun u hu => ?_) t ht
    obtain ⟨r, -, rfl⟩ := Option.mem_map.1 hu
    exact legible_limit r

theorem queryText_eq (source : String) (features : List String) (filter : Option String)
    (groupby : List String) (having : Option String) (orderby : List (OrderSymbol String))
    (rows : Option RowRange) :
    queryText source features filter groupby having orderby rows
      = " ".intercalate (("SELECT " ++ listed features) :: ("FROM " ++ subquery source)
        :: laterClauses filter groupby having orderby rows) := by
  unfold queryText laterClauses
  simp only [List.cons_append, List.nil_append, List.append_assoc]

/-- **A statement is read** clause by clause, also when it has no features. -/
theorem legible_query {source : String} {features later : List String}
    (hsource : Legible source) (hfeatures : ∀ t ∈ features, Legible t)
    (hlater : ∀ t ∈ later, Legible t) {text : String}
    (ht : text = " ".intercalate
      (("SELECT " ++ listed features) :: ("FROM " ++ subquery source) :: later)) :
    Legible text ∧ tokens text = "SELECT" :: tokens (listed features)
      ++ "FROM" :: tokens (subquery source) ++ later.flatMap tokens := by
  obtain ⟨select, selectWord⟩ := legible_word "SELECT" rfl
  obtain ⟨fromLegible, fromWord⟩ := legible_word "FROM" rfl
  obtain ⟨behind, behindWords⟩ := legible_keyword fromLegible (legible_subquery hsource) (s := "FROM ") rfl
  have all : ∀ t ∈ ("FROM " ++ subquery source) :: later, Legible t :=
    List.forall_mem_cons.2 ⟨behind, hlater⟩
  obtain ⟨rest, restWords⟩ := Legible.listed all (by simp)
  have words : tokens (" ".intercalate (("FROM " ++ subquery source) :: later))
      = "FROM" :: tokens (subquery source) ++ later.flatMap tokens := by
    rw [restWords, List.flatMap_cons, behindWords, fromWord]
    rfl
  subst ht
  by_cases ne : features = []
  · subst ne
    have gap := select.gap rest
    have text : " ".intercalate (("SELECT " ++ listed []) :: ("FROM " ++ subquery source) :: later)
        = "SELECT" ++ " " ++ "" ++ " " ++ " ".intercalate (("FROM " ++ subquery source) :: later) := by
      rw [String.intercalate_cons_cons]
      rfl
    rw [text]
    exact ⟨gap.1, by rw [gap.2, selectWord, words]; rfl⟩
  · obtain ⟨front, frontWords⟩ := legible_keyword select (legible_listed hfeatures ne)
      (s := "SELECT ") rfl
    rw [String.intercalate_cons_cons]
    exact ⟨front.spaced rest, by rw [front.tokens_spaced rest, frontWords, selectWord, words]; simp⟩

theorem option_legible (hd : d.quote = '"') (hL : ∀ v k, L v k → ∃ u, k.cast u = .ok v)
    {o : Option Feature} (h : optionObeys (.outline N L D) o) :
    ∀ t ∈ o.map d.spellFeature, Legible t := by
  intro t ht
  obtain ⟨f, hf, rfl⟩ := Option.mem_map.1 ht
  exact legible_feature hd hL f (optionObeys_iff.1 h f hf)

theorem legible_spelled_query (hd : d.quote = '"') (hL : ∀ v k, L v k → ∃ u, k.cast u = .ok v)
    {s : Source} {sel : List Feature} {pre : Option Feature} {grp : List Feature}
    {post : Option Feature} {ord : List OrderTerm} {rows : Option RowRange}
    (h : (Source.query s sel pre grp post ord rows).Obeys (.outline N L D))
    (hs : Legible (d.spellSource s)) :
    Legible (d.spellSource (.query s sel pre grp post ord rows)) ∧
      tokens (d.spellSource (.query s sel pre grp post ord rows))
        = "SELECT" :: tokens (listed (sel.map d.spellFeature))
          ++ "FROM" :: tokens (subquery (d.spellSource s))
          ++ (laterClauses (pre.map d.spellFeature) (grp.map d.spellFeature)
            (post.map d.spellFeature) (ord.map fun o => (d.spellFeature o.feature, o.direction))
            rows).flatMap tokens := by
  have ordering := h.statement.ordering
  obtain ⟨-, -, hsel, hpre, hgrp, hpost, -⟩ := h
  have list : ∀ {fs : List Feature}, featuresObey (.outline N L D) fs →
      ∀ t ∈ fs.map d.spellFeature, Legible t := by
    intro fs hfs t ht
    obtain ⟨f, hf, rfl⟩ := List.mem_map.1 ht
    exact legible_feature hd hL f (featuresObey_iff.1 hfs f hf)
  have terms : ∀ o ∈ ord.map fun o => (d.spellFeature o.feature, o.direction), Legible o.1 := by
    intro o ho
    obtain ⟨u, hu, rfl⟩ := List.mem_map.1 ho
    exact legible_feature hd hL u.feature (ordering u hu)
  exact legible_query hs (list hsel)
    (legible_laterClauses rows (option_legible hd hL hpre) (list hgrp) (option_legible hd hL hpost) terms)
    ((spellSource_query ..).trans (queryText_eq ..))

/-- **Texts of sources are legible.** -/
theorem legible_source (hd : d.quote = '"') (hL : ∀ v k, L v k → ∃ u, k.cast u = .ok v) :
    ∀ s : Source, s.Obeys (.outline N L D) → Legible (d.spellSource s)
  | .table t, _ => (quoted_word hd t.name).legible
  | .reference s n, h =>
    (legible_alias hd (legible_operand (legible_source hd hL s h.2)) n).1
  | .join l r k c, h => by
    rw [spellSource_join]
    exact (legible_join (legible_source hd hL l h.2.1) (legible_source hd hL r h.2.2.1)
      (option_legible hd hL h.2.2.2) k).1
  | .set l r k, h =>
    ((legible_source hd hL l h.2.1).spaced (set_word k).legible).spaced
      (legible_source hd hL r h.2.2)
  | .query s sel pre grp post ord rows, h =>
    (legible_spelled_query hd hL h (legible_source hd hL s h.2.1)).1

/-! ### Where sources stand in parentheses -/

theorem isStatement_select (r : String) : isStatement ("SELECT " ++ r) = true := by
  simp [isStatement, Text.isBlank]

theorem isStatement_of_start {t : String} {c : Char} {r : List Char} (h : t.toList = c :: r)
    (hc : c = '"' ∨ c = '(') : isStatement t = false := by
  rcases hc with rfl | rfl <;> simp [isStatement, Text.isBlank, h]

theorem start_quoted (hd : d.quote = '"') (n : String) : ∃ r, (d.quoted n).toList = '"' :: r := by
  rw [quoted, hd, Text.doubled, String.toList_ofList]
  exact ⟨_, rfl⟩

theorem start_append {t : String} {c : Char} (h : ∃ r, t.toList = c :: r) (u : String) :
    ∃ r, (t ++ u).toList = c :: r := by
  obtain ⟨r, hr⟩ := h
  exact ⟨r ++ u.toList, by simp [hr]⟩

theorem start_parens (t : String) : ∃ r, (parens t).toList = '(' :: r :=
  ⟨t.toList ++ [')'], by simp [parens]⟩

section

variable (hd : d.quote = '"') (hL : ∀ v k, L v k → ∃ u, k.cast u = .ok v)
include hd hL

/-- All but tables are at least three words. -/
theorem three_words {s : Source} (h : s.Obeys (.outline N L D)) (ne : s.type ≠ "Table") :
    3 ≤ (tokens (d.spellSource s)).length := by
  have some_word : ∀ {t : String}, Legible t → 1 ≤ (tokens t).length := fun h =>
    List.length_pos_of_ne_nil h.tokens_ne_nil
  cases s with
  | table t => exact absurd rfl ne
  | reference s n =>
    have legible := legible_operand (d := d) (legible_source hd hL s h.2)
    have := some_word legible
    rw [show d.spellSource (.reference s n) = d.operand (d.spellSource s) ++ " AS " ++ d.quoted n from rfl,
      (legible_alias hd legible n).2, List.length_append]
    exact Nat.add_le_add_right this 2
  | join l r k c =>
    have hl := legible_source hd hL l h.2.1
    have hr := legible_source hd hL r h.2.2.1
    have hc := option_legible hd hL h.2.2.2
    have := some_word (legible_subquery hl)
    have := some_word (legible_joinSide (d := d) hr)
    rw [spellSource_join, (legible_join hl hr hc k).2]
    simp only [List.length_append, List.length_singleton]
    omega
  | set l r k =>
    have hl := legible_source hd hL l h.2.1
    have hr := legible_source hd hL r h.2.2
    have := some_word hl
    have := some_word hr
    have word := set_word k
    rw [show d.spellSource (.set l r k) = d.spellSource l ++ " " ++ setKeyword k ++ " "
      ++ d.spellSource r from rfl, (hl.spaced word.legible).tokens_spaced hr,
      hl.tokens_spaced word.legible, word.tokens]
    simp only [List.length_append, List.length_singleton]
    omega
  | query s sel pre grp post ord rows =>
    have hs := legible_source hd hL s h.2.1
    have := some_word (legible_subquery hs)
    rw [(legible_spelled_query hd hL h hs).2]
    simp only [List.length_append, List.length_cons]
    omega

theorem standsAlone_source {s : Source} (h : s.Obeys (.outline N L D)) (ne : s.type ≠ "Reference") :
    d.standsAlone (d.spellSource s) = decide (s.form = .plain) := by
  cases s with
  | table t => exact standsAlone_of_alone hd (.inl (quoted_word hd t.name))
  | reference s n => exact absurd rfl ne
  | _ => exact standsAlone_of_length hd (three_words hd hL h (by simp [Source.type]))

/-- Statements begin with a word, all other sources with a quote or a parenthesis. -/
theorem source_starts : ∀ s : Source, s.Obeys (.outline N L D) →
    (s.form = .statement → ∃ r, d.spellSource s = "SELECT " ++ r) ∧
      (s.form ≠ .statement → ∃ c, (c = '"' ∨ c = '(') ∧ ∃ r, (d.spellSource s).toList = c :: r)
  | .table t, _ => ⟨nofun, fun _ => ⟨'"', .inl rfl, start_quoted hd t.name⟩⟩
  | .reference s n, h => by
    refine ⟨nofun, fun _ => ?_⟩
    have alone := standsAlone_source hd hL h.2 h.1.2
    show ∃ c, _ ∧ ∃ r, (d.operand (d.spellSource s) ++ " AS " ++ d.quoted n).toList = c :: r
    unfold operand
    rw [alone]
    cases s with
    | table t => exact ⟨'"', .inl rfl, start_append (start_append (start_quoted hd t.name) _) _⟩
    | reference s m => exact absurd rfl h.1.2
    | _ => exact ⟨'(', .inr rfl, start_append (start_append (start_parens _) _) _⟩
  | .join l r k c, h => by
    refine ⟨nofun, fun _ => ?_⟩
    obtain ⟨statement, other⟩ := source_starts l h.2.1
    have left : ∃ c, (c = '"' ∨ c = '(') ∧ ∃ r, (subquery (d.spellSource l)).toList = c :: r := by
      by_cases hl : l.form = .statement
      · obtain ⟨u, hu⟩ := statement hl
        rw [subquery, hu, isStatement_select, if_pos rfl]
        exact ⟨'(', .inr rfl, start_parens _⟩
      · obtain ⟨x, hx, u, hu⟩ := other hl
        rw [subquery, isStatement_of_start hu hx]
        exact ⟨x, hx, u, hu⟩
    obtain ⟨x, hx, start⟩ := left
    rw [spellSource_join]
    exact ⟨x, hx, start_append (start_append (start_append (start_append
      (start_append start _) _) _) _) _⟩
  | .set l r k, h => by
    refine ⟨fun _ => ?_, fun ne => absurd rfl ne⟩
    have hl : l.form = .statement := by
      have statement := h.1.1
      cases l with
      | query => rfl
      | _ => simp [Source.type] at statement
    obtain ⟨u, hu⟩ := (source_starts l h.2.1).1 hl
    refine ⟨u ++ " " ++ setKeyword k ++ " " ++ d.spellSource r, ?_⟩
    show d.spellSource l ++ " " ++ setKeyword k ++ " " ++ d.spellSource r = _
    rw [hu]
    simp only [String.append_assoc]
  | .query s sel pre grp post ord rows, _ => by
    refine ⟨fun _ => ?_, fun ne => absurd rfl ne⟩
    rw [spellSource_query, queryText_eq, String.intercalate_cons_cons]
    simp only [String.append_assoc]
    exact ⟨_, rfl⟩

/-- **The text of a source begins like a statement** exactly when it is one. -/
theorem isStatement_source {s : Source} (h : s.Obeys (.outline N L D)) :
    isStatement (d.spellSource s) = decide (s.form = .statement) := by
  obtain ⟨statement, other⟩ := source_starts hd hL s h
  by_cases hs : s.form = .statement
  · obtain ⟨r, hr⟩ := statement hs
    rw [hr, isStatement_select, decide_eq_true hs]
  · obtain ⟨c, hc, r, hr⟩ := other hs
    rw [isStatement_of_start hr hc, decide_eq_false hs]

omit hL in
/-- More than one word on the right side of a join, but a name, stands in parentheses. -/
theorem joinSide_of_many {t v w : String} {us : List String} (statement : isStatement t = false)
    (ht : tokens t = v :: w :: us) (hw : us.length = 1 → w ≠ "AS") : d.joinSide t = parens t := by
  unfold joinSide
  rw [statement, tokens_quotes hd, ht]
  match us, hw with
  | [], _ => rfl
  | [u], hw => simp [hw]
  | _ :: _ :: _, _ => rfl

/-- **On the right side of a join** statements and joins stand in parentheses. -/
theorem joinSide_source {s : Source} (h : s.Obeys (.outline N L D)) :
    d.joinSide (d.spellSource s)
      = if s.form = .plain then d.spellSource s else parens (d.spellSource s) := by
  have statement := isStatement_source hd hL h
  cases s with
  | table t =>
    unfold joinSide
    rw [statement, tokens_quotes hd, show d.spellSource (.table t) = d.quoted t.name from rfl,
      (quoted_word hd t.name).tokens]
    rfl
  | reference s n =>
    have alone := standsAlone_source hd hL h.2 h.1.2
    have word : ∃ w, tokens (d.operand (d.spellSource s)) = [w] := by
      unfold operand
      rw [alone]
      cases s with
      | table t => exact ⟨_, (quoted_word hd t.name).tokens⟩
      | reference s m => exact absurd rfl h.1.2
      | _ => exact ⟨_, tokens_parens (legible_source hd hL _ h.2)⟩
    obtain ⟨w, hw⟩ := word
    unfold joinSide
    rw [statement, tokens_quotes hd, show d.spellSource (.reference s n)
      = d.operand (d.spellSource s) ++ " AS " ++ d.quoted n from rfl,
      (legible_alias hd (legible_operand (legible_source hd hL s h.2)) n).2, hw]
    rfl
  | join l r k c =>
    have hl := legible_source hd hL l h.2.1
    have hr := legible_source hd hL r h.2.2.1
    have words := (legible_join (d := d) hl hr (option_legible hd hL h.2.2.2) k).2
    rw [← spellSource_join] at words
    show d.joinSide _ = parens _
    -- The second word belongs to the join itself or to a left side of more than one word.
    obtain ⟨v, us, left⟩ := List.exists_cons_of_ne_nil (legible_subquery hl).tokens_ne_nil
    obtain ⟨w, ws, keyword⟩ := List.exists_cons_of_ne_nil
      (show joinWords d.outer k ++ ["JOIN"] ≠ [] by simp)
    rw [left, keyword] at words
    cases us with
    | nil =>
      refine joinSide_of_many hd statement words fun _ has => ?_
      have mem : "AS" ∈ joinWords d.outer k ++ ["JOIN"] := by simp [keyword, has]
      revert mem
      cases k <;> cases d.outer <;> decide
    | cons u us =>
      simp only [List.cons_append] at words
      refine joinSide_of_many hd statement words fun one => ?_
      have := List.length_pos_of_ne_nil (legible_joinSide (d := d) hr).tokens_ne_nil
      simp only [List.length_append, List.length_cons, List.append_assoc] at one
      omega
  | _ =>
    unfold joinSide
    rw [statement]
    rfl

end

end QueryAlgebra.Sql.Dialect
