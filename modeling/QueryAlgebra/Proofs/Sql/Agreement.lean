import QueryAlgebra.Proofs.Sql.Pieces

/-!
# Literals in the text and literals that are bound

SQL with literals in the text and SQL with bound parameters are one statement: the text is the one
that comes about when each placeholder is replaced by the literal that its parameter was bound from.

* `fills_feature`, `fills_source`: what both backends make of a skeleton has the same pieces.
* `backends_agree`: so do whole translations, or both end in the same fault.
* `texts_differ_of_inherited`: a direction that is none of the two is written differently.
-/

namespace QueryAlgebra.Sql

open Translation

variable {L : Value → Kind → Prop}

/-! ### Skeletons -/

/-- A name without double quotes. -/
def Unquoted (n : String) : Prop := '"' ∉ n.toList

/-- A value that was cast to a kind, and is a literal of a sort. -/
def Cast (L : Value → Kind → Prop) (v : Value) (k : Kind) : Prop :=
  (∃ u, k.cast u = .ok v) ∧ L v k

namespace Fragment

/-- The fragment of a skeleton of a feature. -/
def spellFeature : Feature → Fragment := ofFeature (backend .empty .empty)

/-- The fragment of a skeleton of a source. -/
def spellSource : Source → Fragment := ofSource (backend .empty .empty)

theorem backend_spelling : Spelling (Cast L) (backend .empty .empty) where
  sources := rfl
  features := rfl
  table _ _ := rfl
  scan _ _ _ := rfl
  reference _ _ := rfl
  element _ _ _ _ := rfl
  literal v k h := by
    have items : ∀ x ∈ literalItems k v, ∃ w l, True ∧ x ∈ literalItems l w :=
      fun x hx => ⟨v, k, trivial, hx⟩
    show literal k v = (literalText k v).map fun _ => given (literal k v)
    rcases fills_literal (L := fun _ _ => True) h.1 items with ⟨e, ht, hf⟩ | ⟨t, f, ht, hf, -⟩ <;>
      rw [ht, hf] <;> rfl
  expression op xs k := by
    show expression op xs k
      = (castTarget op k).map fun t => given (expression op xs (t.getD default))
    cases op with
    | cast =>
      unfold castTarget
      cases ht : typeName? k with
      | some t => simp [expression, ht, Except.map, given, Except.toOption]
      | none => simp [expression, ht, Except.map]
    | _ => rfl
  window _ _ _ _ := rfl

end Fragment

/-- Alike operands are in parentheses on both sides or on neither. -/
theorem Fills.operand {t : String} {f : Fragment} {form : Form} (h : Fills L t f)
    (hf : f.form = form) (alone : Dialect.standard.standsAlone t = decide (form ≠ .compound)) :
    Fills L (Dialect.standard.operand t) f.operand := by
  have same : Dialect.standard.operand t
      = if decide (form = .compound) then Sql.parens t else t := by
    unfold Dialect.operand
    rw [alone]
    cases form <;> rfl
  rw [same]
  exact h.parensIf (by subst hf; cases f.form <;> rfl)

/-- A direction has the same keyword on both sides. -/
theorem orderKeyword_of_proper {d : Direction} (h : d.Proper) (s t : String) :
    orderKeyword s d = orderKeyword t d := by
  rcases h with rfl | rfl <;> rfl

theorem Fills.terms {os : List OrderTerm} (proper : ∀ o ∈ os, o.direction.Proper)
    (h : ∀ o ∈ os, Fills L (Dialect.standard.spellFeature o.feature) (Fragment.spellFeature o.feature)) :
    List.Forall₂ (Fills L)
      (os.map fun o => Dialect.standard.spellFeature o.feature ++ " " ++ orderKeyword "undefined" o.direction)
      (Fragment.orderTerms (os.map fun o => (Fragment.spellFeature o.feature, o.direction))) := by
  rw [Fragment.orderTerms, List.map_map]
  refine Fills.each fun o ho => ?_
  rw [orderKeyword_of_proper (proper o ho) "undefined" ""]
  exact .cat (.cons (h o ho) (.cons (.raw " ") (.cons (.raw _) .nil))) (String.toList_inj.1 (by simp))

theorem Fragment.window_eq (fn : Fragment) (ps : List Fragment) (os : List (OrderSymbol Fragment))
    (fr : Option Frame) :
    window fn ps os fr = (cat [fn, raw " OVER (", sep " " (listClause "PARTITION BY" ps
      ++ listClause "ORDER BY" (orderTerms os) ++ (fr.map fun f => raw (frameText f)).toList),
      raw ")"]).ofForm .compound := by
  cases fr <;> rfl

theorem fills_listClause (k : String) {ts : List String} {fs : List Fragment}
    (h : List.Forall₂ (Fills L) ts fs) :
    List.Forall₂ (Fills L) (Dialect.listClause k ts) (Fragment.listClause k fs) := by
  cases h with
  | nil => exact .nil
  | cons h r => exact .cons (.clause k (.listed (.cons h r))) .nil

/-- **A feature has the same pieces on both sides.** -/
theorem fills_feature : ∀ x : Feature, x.Obeys (.outline Unquoted (Cast L) Direction.Proper) →
    Fills L (Dialect.standard.spellFeature x) (Fragment.spellFeature x) ∧
      (Fragment.spellFeature x).form = x.form := by
  have cast : ∀ v k, Cast L v k → ∃ u, k.cast u = .ok v := fun _ _ h => h.1
  refine Feature.childInduction fun x ih h => ?_
  have parts : ∀ c ∈ x.children, _ := fun c hc => ih c hc (h.children c hc)
  cases x with
  | aliased f n =>
    obtain ⟨fills, -⟩ := parts f (by simp [Feature.children])
    exact ⟨.cat (.cons fills (.cons (.raw " AS ") (.cons (.identifier h.1) .nil)))
      (String.toList_inj.1 (by simp [Dialect.spellFeature, ofFeature, Dialect.backend])), rfl⟩
  | literal v k =>
    obtain ⟨t, ht⟩ := h.2
    rw [Dialect.spellFeature_literal ht]
    show Fills L t (given (Fragment.literal k v)) ∧ (given (Fragment.literal k v)).form = .plain
    rcases fills_literal h.1.1 fun x hx => ⟨v, k, h.1.2, hx⟩ with
      ⟨e, he, -⟩ | ⟨t', f, ht', hf, fills, form⟩
    · cases ht.symm.trans he
    · obtain rfl := Except.ok.inj (ht.symm.trans ht')
      rw [hf]
      exact ⟨fills, form⟩
  | element s n k =>
    obtain ⟨hn, m, hm, rfl⟩ := h.1
    exact ⟨.cat (.cons (.identifier hm) (.cons (.raw ".") (.cons (.identifier hn) .nil)))
      (String.toList_inj.1 (by simp [Dialect.spellFeature, ofFeature, ofSource, Dialect.backend, given,
        Except.toOption])), rfl⟩
  | expression op args t =>
    obtain ⟨⟨bare, -, target⟩, hargs⟩ := h
    have both : List.Forall₂ (Fills L) (args.map Dialect.standard.spellFeature)
        (args.map Fragment.spellFeature) := Fills.each fun a ha => (parts a ha).1
    have operands : List.Forall₂ (Fills L)
        ((args.map Dialect.standard.spellFeature).map Dialect.standard.operand)
        ((args.map Fragment.spellFeature).map Fragment.operand) := by
      rw [List.map_map, List.map_map]
      refine Fills.each fun a ha => ?_
      obtain ⟨fills, form⟩ := parts a ha
      exact fills.operand form
        (Dialect.standsAlone_feature rfl cast (featuresObey_iff.1 hargs a ha) (bare a ha))
    have fragment : Fragment.spellFeature (.expression op args t)
        = given (Fragment.expression op (args.map Fragment.spellFeature) (t.getD default)) := by
      rw [Fragment.spellFeature, ofFeature, ofFeatures_eq_map]
      rfl
    rw [Dialect.spellFeature_given, fragment, Feature.form]
    cases hop : op.fixity with
    | between => exact fills_between hop operands _
    | front => exact fills_front hop operands _
    | behind => exact fills_behind hop operands _
    | call => exact fills_call hop both target
  | window fn ps os fr =>
    have partition := fills_listClause "PARTITION BY" (Fills.each fun p (hp : p ∈ ps) =>
      (parts p (by simp [Feature.children, hp])).1)
    have ordering := fills_listClause "ORDER BY" (Fills.terms h.1 fun o ho =>
      (parts o.feature (List.mem_append_right _ (List.mem_map_of_mem ho))).1)
    have frame : List.Forall₂ (Fills L) (fr.map frameText).toList
        (fr.map fun f => Fragment.raw (frameText f)).toList := Fills.option fun f _ => .raw (frameText f)
    have inner := Fills.sep " " (List.rel_append (List.rel_append partition ordering) frame)
    have fragment : Fragment.spellFeature (.window fn ps os fr)
        = Fragment.window (Fragment.spellFeature fn) (ps.map Fragment.spellFeature)
          (os.map fun o => (Fragment.spellFeature o.feature, o.direction)) fr := by
      rw [Fragment.spellFeature, ofFeature, ofFeatures_eq_map, ofTerms_eq_map]
      rfl
    rw [Dialect.spellFeature_window, Dialect.windowText_eq, fragment, Fragment.window_eq]
    refine ⟨(Fills.cat (.cons (parts fn (by simp [Feature.children])).1 (.cons (.raw " OVER (")
      (.cons inner (.cons (.raw ")") .nil)))) ?_).ofForm .compound, rfl⟩
    rw [Dialect.windowParts, Dialect.orderClause_eq, List.map_map]
    exact String.toList_inj.1 (by simp [parens, -String.toList_intercalate, Function.comp_def])

theorem fills_clause (k : String) {t : Option String} {f : Option Fragment}
    (h : List.Forall₂ (Fills L) t.toList f.toList) :
    List.Forall₂ (Fills L) (Dialect.clause k t) (f.toList.map (Fragment.clause k)) := by
  cases t with
  | none =>
    cases f with
    | none => exact .nil
    | some f => cases h
  | some t =>
    cases f with
    | none => cases h
    | some f =>
      cases h with
      | cons h _ => exact .cons (h.clause k) .nil

/-- Alike sources are in parentheses on both sides or on neither. -/
theorem Fills.wrapped {t : String} {f : Fragment} {form : Form} (h : Fills L t f)
    (hf : f.form = form) (source : form ≠ .compound) :
    Fills L (if form = .plain then t else Sql.parens t) (f.parensIf [.statement, .join]) := by
  have same : (if form = .plain then t else Sql.parens t)
      = if decide (form ≠ .plain) then Sql.parens t else t := by
    cases form <;> rfl
  rw [same]
  refine h.parensIf ?_
  subst hf
  revert source
  cases f.form <;> decide

/-- Statements are in parentheses on both sides. -/
theorem fills_subquery {s : Source} (hs : s.Obeys (.outline Unquoted (Cast L) Direction.Proper))
    (fills : Fills L (Dialect.standard.spellSource s) (Fragment.spellSource s))
    (form : (Fragment.spellSource s).form = s.form) :
    Fills L (subquery (Dialect.standard.spellSource s)) (Fragment.spellSource s).subquery := by
  rw [subquery, Dialect.isStatement_source rfl (fun _ _ h => h.1) hs]
  exact fills.parensIf (by rw [form]; cases s.form <;> rfl)

theorem fills_features {fs : List Feature} (h : featuresObey (.outline Unquoted (Cast L) Direction.Proper) fs) :
    List.Forall₂ (Fills L) (fs.map Dialect.standard.spellFeature) (fs.map Fragment.spellFeature) :=
  Fills.each fun f hf => (fills_feature f (featuresObey_iff.1 h f hf)).1

theorem fills_option {o : Option Feature} (h : optionObeys (.outline Unquoted (Cast L) Direction.Proper) o) :
    List.Forall₂ (Fills L) (o.map Dialect.standard.spellFeature).toList
      (o.map Fragment.spellFeature).toList :=
  Fills.option fun f hf => (fills_feature f (optionObeys_iff.1 h f hf)).1

theorem fills_join {l r : String} {f g : Fragment} {c : Option String} {x : Option Fragment}
    (left : Fills L (subquery l) f.subquery)
    (right : Fills L (Dialect.standard.joinSide r) (g.parensIf [.statement, .join]))
    (condition : List.Forall₂ (Fills L) c.toList x.toList) (k : JoinType) :
    Fills L (Dialect.standard.joinText l r c k) (.join f g x k) := by
  have sides : ∀ {ts : List String} {fs : List Fragment}, List.Forall₂ (Fills L) ts fs →
      Fills L (subquery l ++ " " ++ joinKeyword false k ++ " " ++ Dialect.standard.joinSide r
        ++ "".intercalate ts) ((Fragment.cat (f.subquery :: .raw " " :: .raw (joinKeyword false k)
          :: .raw " " :: g.parensIf [.statement, .join] :: fs)).ofForm .join) := by
    intro ts fs h
    refine (Fills.cat (.cons left (.cons (.raw " ") (.cons (.raw _) (.cons (.raw " ")
      (.cons right h))))) ?_).ofForm .join
    exact String.toList_inj.1 (by simp [-String.toList_intercalate, toList_concat])
  cases c with
  | none =>
    cases x with
    | none => exact sides .nil
    | some x => cases condition
  | some c =>
    cases x with
    | none => cases condition
    | some x =>
      obtain ⟨h, -⟩ := List.forall₂_cons.1 condition
      have whole := sides (.cons (.raw " ON ") (.cons h .nil))
      rwa [show "".intercalate [" ON ", c] = " ON " ++ c by simp] at whole

theorem Fragment.query_eq (source : Fragment) (features : List Fragment) (filter : Option Fragment)
    (groupby : List Fragment) (having : Option Fragment) (orderby : List (OrderSymbol Fragment))
    (rows : Option RowRange) : query source features filter groupby having orderby rows
      = (sep " " (clause "SELECT" (listed features) :: clause "FROM" source.subquery
        :: (filter.toList.map (clause "WHERE") ++ listClause "GROUP BY" groupby
          ++ having.toList.map (clause "HAVING") ++ listClause "ORDER BY" (orderTerms orderby)
          ++ (rows.map fun r => raw (limitText r)).toList.map (clause "LIMIT")))).ofForm .statement := by
  unfold query
  simp only [List.cons_append, List.nil_append, List.append_assoc]

theorem fills_query {s : Source} {sel : List Feature} {pre : Option Feature} {grp : List Feature}
    {post : Option Feature} {ord : List OrderTerm} {rows : Option RowRange}
    (h : (Source.query s sel pre grp post ord rows).Obeys (.outline Unquoted (Cast L) Direction.Proper))
    (source : Fills L (subquery (Dialect.standard.spellSource s)) (Fragment.spellSource s).subquery) :
    Fills L (Dialect.standard.spellSource (.query s sel pre grp post ord rows))
      (Fragment.spellSource (.query s sel pre grp post ord rows)) := by
  have terms := Fills.terms h.1.2 fun o ho => (fills_feature o.feature (h.statement.ordering o ho)).1
  obtain ⟨-, -, hsel, hpre, hgrp, hpost, -⟩ := h
  have limit : List.Forall₂ (Fills L) (rows.map limitText).toList
      (rows.map fun r => Fragment.raw (limitText r)).toList := Fills.option fun r _ => .raw (limitText r)
  have clauses := List.rel_append (List.rel_append (List.rel_append (List.rel_append
    (fills_clause "WHERE" (fills_option hpre)) (fills_listClause "GROUP BY" (fills_features hgrp)))
    (fills_clause "HAVING" (fills_option hpost))) (fills_listClause "ORDER BY" terms))
    (fills_clause "LIMIT" limit)
  have fragment : Fragment.spellSource (.query s sel pre grp post ord rows)
      = Fragment.query (Fragment.spellSource s) (sel.map Fragment.spellFeature)
        (pre.map Fragment.spellFeature) (grp.map Fragment.spellFeature)
        (post.map Fragment.spellFeature)
        (ord.map fun o => (Fragment.spellFeature o.feature, o.direction)) rows := by
    rw [Fragment.spellSource, ofSource, ofFeatures_eq_map, ofFeatures_eq_map, ofOption_eq_map,
      ofOption_eq_map, ofTerms_eq_map]
    rfl
  have whole := Fills.sep " " (.cons (.clause "SELECT" (.listed (fills_features hsel)))
    (.cons (.clause "FROM" source) clauses))
  have select : ∀ t : String, "SELECT " ++ t = "SELECT" ++ " " ++ t := fun t =>
    String.toList_inj.1 (by simp)
  have source' : ∀ t : String, "FROM " ++ t = "FROM" ++ " " ++ t := fun t =>
    String.toList_inj.1 (by simp)
  rw [Dialect.spellSource_query, Dialect.queryText_eq, fragment, Fragment.query_eq,
    Dialect.laterClauses, Dialect.orderClause_eq, List.map_map, select, source']
  exact whole.ofForm .statement

/-- **A source has the same pieces on both sides.** -/
theorem fills_source : ∀ s : Source, s.Obeys (.outline Unquoted (Cast L) Direction.Proper) →
    Fills L (Dialect.standard.spellSource s) (Fragment.spellSource s) ∧
      (Fragment.spellSource s).form = s.form
  | .table t, h => ⟨.identifier h, rfl⟩
  | .reference s n, h => by
    obtain ⟨fills, form⟩ := fills_source s h.2
    have operand := fills.wrapped form s.form_ne_compound
    have alone := Dialect.standsAlone_source (d := .standard) rfl (fun _ _ h => h.1) h.2 h.1.2
    refine ⟨.cat (.cons operand (.cons (.raw " AS ") (.cons (.identifier h.1.1) .nil))) ?_, rfl⟩
    show Dialect.standard.operand (Dialect.standard.spellSource s) ++ " AS " ++ _ = _
    rw [Dialect.operand, alone]
    exact String.toList_inj.1 (by simp)
  | .join l r k c, h => by
    obtain ⟨-, hl, hr, hc⟩ := h
    obtain ⟨fillsL, formL⟩ := fills_source l hl
    obtain ⟨fillsR, formR⟩ := fills_source r hr
    have left := fills_subquery hl fillsL formL
    have right := fillsR.wrapped formR r.form_ne_compound
    rw [← Dialect.joinSide_source rfl (fun _ _ h => h.1) hr] at right
    have fragment : Fragment.spellSource (.join l r k c) = Fragment.join (Fragment.spellSource l)
        (Fragment.spellSource r) (c.map Fragment.spellFeature) k := by
      rw [Fragment.spellSource, ofSource, ofOption_eq_map]
      rfl
    rw [Dialect.spellSource_join, fragment]
    exact ⟨fills_join left right (fills_option hc) k, rfl⟩
  | .set l r k, h => by
    obtain ⟨left, -⟩ := fills_source l h.2.1
    obtain ⟨right, -⟩ := fills_source r h.2.2
    refine ⟨(Fills.cat (.cons left (.cons (.raw " ") (.cons (.raw (setKeyword k)) (.cons (.raw " ")
      (.cons right .nil))))) ?_).ofForm .statement, rfl⟩
    show Dialect.standard.spellSource l ++ " " ++ setKeyword k ++ " " ++ Dialect.standard.spellSource r
      = _
    exact String.toList_inj.1 (by simp)
  | .query s sel pre grp post ord rows, h => by
    obtain ⟨fills, form⟩ := fills_source s h.2.1
    exact ⟨fills_query h (fills_subquery h.2.1 fills form), rfl⟩

/-! ### Whole translations -/

theorem unquoted_naming : Naming Unquoted where
  positional i := by
    intro h
    have digit : '"' ∈ digitsOf i := by simpa [positional] using h
    exact absurd (isDigit_of_mem_digitsOf digit) (by decide)
  underscore n h := by simpa [Unquoted] using h

/-- A symbol of the sort of the tree, with one type for sources and for features. -/
def symbolOfSort {α : Type} : Tree → α → Translation.Symbol α α
  | .source _, x  => .source x
  | .feature _, x => .feature x

theorem writable_of_named {tree : Tree} (built : tree.Built) (named : tree.Obeys (.named Unquoted L)) :
    tree.Obeys (.writable Unquoted (Cast L) Direction.Proper) :=
  built.obeys Rules.spelled_ensures_writable named

/-- **SQL with literals in the text and SQL with bound parameters agree**, where all orderings have one of
the two directions: both end in the same fault, or the text has the pieces of the fragment. -/
theorem backends_agree {tree : Tree} (built : tree.Built) (named : tree.Obeys (.named Unquoted L)) :
    (∃ e, (Dialect.standard.backend .empty .empty).compiled tree = .error e ∧
      (Fragment.backend .empty .empty).compiled tree = .error e) ∨
    ∃ t f, (Dialect.standard.backend .empty .empty).compiled tree = .ok (some (symbolOfSort tree t)) ∧
      (Fragment.backend .empty .empty).compiled tree = .ok (some (symbolOfSort tree f)) ∧
      Fills L t f := by
  have writable := writable_of_named built named
  have literals : tree.Obeys (.literals (Cast L)) := writable.mono Rules.writable_implies_literals
  rw [(Dialect.standard.backend_spelling (Cast L)).images.compiled literals,
    (Fragment.backend_spelling (L := L)).images.compiled literals]
  cases compiled : skeleton.compiled tree with
  | error e => exact .inl ⟨e, rfl, rfl⟩
  | ok y =>
    refine .inr ?_
    cases tree with
    | source s =>
      obtain ⟨x, rfl, outline, -⟩ := compiled_source_outline unquoted_naming writable compiled
      exact ⟨_, _, rfl, rfl, (fills_source x outline).1⟩
    | feature f =>
      obtain ⟨x, rfl, outline, -⟩ := compiled_feature_outline unquoted_naming writable compiled
      exact ⟨_, _, rfl, rfl, (fills_feature x outline).1⟩

/-- The text and the fragment of two symbols of the sort of a tree. -/
def pairOf {α β : Type} : Tree → Except Fault (Option (Translation.Symbol α α)) →
    Except Fault (Option (Translation.Symbol β β)) → Option (α × β)
  | .source _, .ok (some (.source t)), .ok (some (.source f))     => some (t, f)
  | .feature _, .ok (some (.feature t)), .ok (some (.feature f)) => some (t, f)
  | _, _, _                                                      => none

theorem eq_of_pairOf {α β : Type} {tree : Tree} {r : Except Fault (Option (Translation.Symbol α α))}
    {r' : Except Fault (Option (Translation.Symbol β β))} {x : α × β}
    (h : pairOf tree r r' = some x) :
    r = .ok (some (symbolOfSort tree x.1)) ∧ r' = .ok (some (symbolOfSort tree x.2)) := by
  unfold pairOf at h
  split at h <;> cases h <;> exact ⟨rfl, rfl⟩

/-- A comparison with a text that a careless reader takes for an open parenthesis. -/
theorem backends_agree_of_comparison :
    let twin : Source := .table ⟨"twin", [("name", ⟨.primitive .string, "name"⟩)]⟩
    let tree : Tree := .feature (.expression .eq
      [.element twin "name" (.primitive .string), .literal (.text "a (b") (.primitive .string)] none)
    ∃ t f, (Dialect.standard.backend .empty .empty).compiled tree = .ok (some (.feature t)) ∧
      (Fragment.backend .empty .empty).compiled tree = .ok (some (.feature f)) ∧
      Fills (fun v _ => v = .text "a (b") t f := by
  intro twin tree
  have built : tree.Built :=
    built_pair (.element (.of_distinct rfl) (show twin.get "name" = .ok _ from rfl))
      (.literal (show Feature.literalOf (.text "a (b") none = .ok _ from rfl)) rfl
  have unquoted : Unquoted "twin" ∧ Unquoted "name" := by
    simp [Unquoted]
  have named : tree.Obeys (.named Unquoted fun v _ => v = .text "a (b") := by
    refine ⟨trivial, ⟨unquoted.2, unquoted.1, fun c hc => ?_⟩, rfl, trivial⟩
    obtain rfl := List.mem_singleton.1 hc
    exact unquoted.2
  have shape : (pairOf tree ((Dialect.standard.backend .empty .empty).compiled tree)
      ((Fragment.backend .empty .empty).compiled tree)).isSome = true := by decide +kernel
  rcases backends_agree built named with ⟨e, ht, -⟩ | ⟨t, f, ht, hf, fills⟩
  · rw [ht] at shape
    cases shape
  · exact ⟨t, f, ht, hf, fills⟩

/-- **A direction that is none of the two is written in one way and in the other.** No name has a quote and
nothing is bound, but the texts differ. -/
theorem texts_differ_of_inherited :
    let twin : Source := .table ⟨"twin", [("name", ⟨.primitive .string, "name"⟩)]⟩
    let name : Feature := .element twin "name" (.primitive .string)
    let tree : Tree := .source (.query twin [] none [] none [.by name (.inherited .maker)] none)
    tree.Built ∧ ∃ t f,
      (Dialect.standard.backend .empty .empty).compiled tree = .ok (some (.source t)) ∧
      (Fragment.backend .empty .empty).compiled tree = .ok (some (.source f)) ∧
      t = "SELECT \"twin\".\"name\" FROM \"twin\" ORDER BY \"twin\".\"name\" undefined" ∧
      f.text = "SELECT \"twin\".\"name\" FROM \"twin\" ORDER BY \"twin\".\"name\" " ∧
      f.params = [] ∧ ∀ L, ¬Fills L t f := by
  intro twin name tree
  have table : twin.Built := .of_distinct rfl
  have column : name.Built := .element table (show twin.get "name" = .ok name from rfl)
  have small : "constructor".toLower = "constructor" := by decide +kernel
  have token : Direction.ofToken "constructor" = .ok (.inherited .maker) := by
    unfold Direction.ofToken
    rw [small]
    rfl
  have terms : OrderTerm.make [.feature name, .value (.text "constructor")]
      = .ok [.by name (.inherited .maker)] := by
    simp only [OrderTerm.make, token]
    rfl
  have built : tree.Built := by
    refine @Source.Built.query twin _
      ⟨[], none, [], none, [.feature name, .value (.text "constructor")], none⟩ table ?_ ?_
    · refine .mk (by simp) (by simp) (by simp) (by simp) fun o ho => ?_
      rcases List.mem_pair.1 ho with rfl | rfl
      · exact .feature column
      · exact .value _
    · simp only [Source.queryOf, terms]
      rfl
  have shape : (pairOf tree ((Dialect.standard.backend .empty .empty).compiled tree)
      ((Fragment.backend .empty .empty).compiled tree)).map (fun x => (x.1, x.2.text, x.2.params.isEmpty))
        = some ("SELECT \"twin\".\"name\" FROM \"twin\" ORDER BY \"twin\".\"name\" undefined",
          "SELECT \"twin\".\"name\" FROM \"twin\" ORDER BY \"twin\".\"name\" ", true) := by
    decide +kernel
  obtain ⟨⟨t, f⟩, both, shown⟩ := Option.map_eq_some_iff.1 shape
  obtain ⟨ht, hf⟩ := eq_of_pairOf both
  obtain ⟨text, fragment, bound⟩ : t = _ ∧ f.text = _ ∧ f.params.isEmpty = true := by
    simpa only [Prod.mk.injEq] using shown
  have params : f.params = [] := List.isEmpty_iff.1 bound
  refine ⟨built, t, f, ht, hf, text, fragment, params, fun L fills => ?_⟩
  have same := fills.text_eq params
  rw [text, fragment] at same
  exact absurd same (by decide)

end QueryAlgebra.Sql
