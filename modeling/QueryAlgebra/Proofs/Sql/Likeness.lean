import QueryAlgebra.Proofs.Sql.Lexemes
import QueryAlgebra.Proofs.Sql.Shape
import QueryAlgebra.Proofs.Sql.Written
import QueryAlgebra.Proofs.Tree.Blanked

/-!
# Texts of trees that differ in strings

Skeletons of one pattern have the same constructors everywhere, and the same names. No text is
looked at to place parentheses but to tell what it stands for, so that they stand in the same places.

* `alike_literal`: literals that differ in strings alone are written alike.
* `Dialect.alike_feature`, `Dialect.alike_source`: so are skeletons of one pattern, with the handles
  of their elements before dots.
-/

namespace QueryAlgebra.Sql

open Translation

/-! ### Texts without quotes -/

theorem quoteless_number (n : Number) : Quoteless n.text :=
  .of_chars (Number.isWord_of_mem_text n) (by decide)

theorem quoteless_bound {side : String} (h : Quoteless side) (e : FrameEnd) :
    Quoteless (boundText side e) := by
  cases e with
  | unbounded => exact .append (t := "UNBOUNDED ") (by decide) h
  | current => exact (by decide : Quoteless "CURRENT ROW")
  | offset n =>
    simp only [boundText]
    split
    · decide
    · split <;> exact (quoteless_number _).append (by decide)

theorem quoteless_frame (f : Frame) : Quoteless (frameText f) := by
  have mode : Quoteless f.mode.name.toUpper := by cases f.mode <;> decide +kernel
  exact (((mode.append (by decide)).append (quoteless_bound (by decide) _)).append (by decide)).append
    (quoteless_bound (by decide) _)

theorem quoteless_limit (r : RowRange) : Quoteless (limitText r) := by
  unfold limitText
  split
  · exact quoteless_number _
  · exact ((quoteless_number _).append (by decide)).append (quoteless_number _)

/-- What stands between two texts with blanks around it. -/
theorem Separates.spaced {t : String} (h : Quoteless t) : Separates (" " ++ t ++ " ") := by
  refine ⟨(Quoteless.append (by decide) h).append (by decide), ?_, ?_⟩ <;> simp

/-! ### Literals -/

theorem literalText_canonical (p : Primitive) (v : Value) :
    literalText (.primitive p) v.canonical = literalText (.primitive p) v := by
  cases p with
  | boolean => cases v <;> rfl
  | date => cases v <;> rfl
  | timestamp => cases v <;> rfl
  | _ => simp only [literalText, Value.plain_canonical]

/-- A literal that names its type. -/
theorem alike_typed {t s : String} (ht : Quoteless t) (hs : '\'' ∉ s.toList) :
    Alike (t ++ " '" ++ s ++ "'") (t ++ " '" ++ s ++ "'") [] := by
  have same : t ++ " '" ++ s ++ "'" = t ++ " " ++ Text.doubled '\'' s := by
    rw [Text.doubled_of_not_mem hs]
    refine String.toList_inj.1 ?_
    simp only [String.toList_append, String.toList_singleton]
    simp
  rw [same]
  exact (Alike.text s s).behind (ht.append (by decide))

/-- Literals of primitive kinds but strings are read, as they are the same. -/
theorem alike_primitive {p : Primitive} (hp : p ≠ .string) {u v : Value} (hv : p.cast? u = some v)
    {t : String} (ht : literalText (.primitive p) v = .ok t) : Alike t t [] := by
  have number : ∀ {x : Option Number} (round : Number → Number),
      x.map (fun n => Value.number (round n)) = some v → v.plain = t → Alike t t [] := by
    rintro x round hx rfl
    obtain ⟨n, -, rfl⟩ := Option.map_eq_some_iff.1 hx
    exact .quoteless (quoteless_number (round n))
  cases p with
  | boolean =>
    obtain rfl := Except.ok.inj ht
    split <;> exact .quoteless (by decide)
  | integer => exact number Number.trunc hv (Except.ok.inj ht)
  | float => exact number id hv (Except.ok.inj ht)
  | decimal => exact number id hv (Except.ok.inj ht)
  | string => exact absurd rfl hp
  | date =>
    simp only [literalText] at ht
    split at ht
    · obtain rfl := Except.ok.inj ht
      refine alike_typed (t := "DATE") (by decide) fun hq => ?_
      rcases dateText_chars _ _ hq with h | h <;> simp at h
    · cases ht
  | timestamp =>
    simp only [literalText] at ht
    split at ht
    · obtain rfl := Except.ok.inj ht
      refine alike_typed (t := "TIMESTAMP") (by decide) fun hq => ?_
      rcases timestampText_chars _ _ hq with h | h <;> simp at h
    · cases ht

/-- Items of arrays that are written alike. -/
theorem alike_items {e : Kind} (item : ∀ {v v' : Value} {t t' : String},
    (∃ u, e.cast u = .ok v) → (∃ u, e.cast u = .ok v') →
      v.canonical.blankedAs e = v'.canonical.blankedAs e → literalText e v = .ok t →
        literalText e v' = .ok t' → Alike t t' []) :
    ∀ {vs vs' : List Value} {ts ts' : List String}, (∀ v ∈ vs, ∃ u, e.cast u = .ok v) →
      (∀ v ∈ vs', ∃ u, e.cast u = .ok v) →
        vs.map (fun v => v.canonical.blankedAs e) = vs'.map (fun v => v.canonical.blankedAs e) →
          List.Forall₂ (fun v t => literalText e v = .ok t) vs ts →
            List.Forall₂ (fun v t => literalText e v = .ok t) vs' ts' → AllAlike ts ts' []
  | [], [], _, _, _, _, _, .nil, .nil => .nil
  | v :: vs, v' :: vs', _, _, cast, cast', same, .cons h r, .cons h' r' => by
    obtain ⟨head, tail⟩ := List.cons.inj same
    obtain ⟨hv, hvs⟩ := List.forall_mem_cons.1 cast
    obtain ⟨hv', hvs'⟩ := List.forall_mem_cons.1 cast'
    exact .cons (item hv hv' head h h') (alike_items item hvs hvs' tail r r')

/-- **Literals that differ in strings alone are written alike.** -/
theorem alike_literal : ∀ {k : Kind} {v v' : Value} {t t' : String}, (∃ u, k.cast u = .ok v) →
    (∃ u, k.cast u = .ok v') → v.canonical.blankedAs k = v'.canonical.blankedAs k →
      literalText k v = .ok t → literalText k v' = .ok t' → Alike t t' []
  | .primitive p, v, v', t, t', hv, hv', same, ht, ht' => by
    by_cases hp : p = .string
    · subst hp
      obtain rfl := Except.ok.inj ht
      obtain rfl := Except.ok.inj ht'
      exact .text _ _
    · have kept : ∀ w : Value, w.blankedAs (.primitive p) = w := by
        intro w
        cases p with
        | string => exact absurd rfl hp
        | _ => rfl
      rw [kept, kept] at same
      rw [← literalText_canonical, ← same, literalText_canonical, ht] at ht'
      obtain rfl := Except.ok.inj ht'
      obtain ⟨u, hu⟩ := hv
      simp only [Kind.cast] at hu
      split at hu
      · cases hu
        exact alike_primitive hp ‹_› ht
      · exact absurd hu Kind.refuse_ne_ok
  | .array e, v, v', t, t', hv, hv', same, ht, ht' => by
    obtain ⟨vs, rfl, cast⟩ := items_of_cast hv
    obtain ⟨vs', rfl, cast'⟩ := items_of_cast hv'
    simp only [literalText] at ht ht'
    obtain ⟨ts, hts, ht⟩ := bind_eq_ok.1 ht
    obtain ⟨ts', hts', ht'⟩ := bind_eq_ok.1 ht'
    obtain rfl := pure_eq_ok.1 ht
    obtain rfl := pure_eq_ok.1 ht'
    simp only [Value.canonical, Value.canonicals_eq_map, Value.blankedAs, List.map_map] at same
    have items := alike_items alike_literal cast cast' (Value.list.inj same) (mapM_eq_ok hts)
      (mapM_eq_ok hts')
    exact (items.listed.behind (by decide)).before (by decide)
  | .map _ _, _, _, _, _, _, _, _, ht, _ => by simp [literalText] at ht
  | .struct _, _, _, _, _, _, _, _, ht, _ => by simp [literalText] at ht

/-! ### Frames and expressions -/

theorem frameText_canonical (f : Frame) : frameText f.canonical = frameText f := by
  have bound : ∀ (side : String) (e : FrameEnd), boundText side e.canonical = boundText side e := by
    intro side e
    cases e with
    | offset n =>
      by_cases zero : n.isZero
      · have abs : n.abs.isZero = true := by
          cases n <;> simp_all [Number.isZero, Number.abs]
        simp [boundText, FrameEnd.canonical, Number.unsignedZero, zero, abs]
      · simp [boundText, FrameEnd.canonical, Number.unsignedZero, zero]
    | _ => rfl
  simp only [frameText, Frame.canonical, bound]

namespace Dialect

variable {d : Dialect}

theorem quoteless_symbol (op : Operator) : Quoteless (d.symbol op) := by
  unfold symbol inequality
  split
  · decide
  · split
    · split <;> decide
    · cases op <;> decide

theorem quoteless_head (op : Operator) : Quoteless (head op) := by
  cases op <;> decide

theorem quoteless_typeName (k : Kind) : Quoteless ((typeName? k).getD "") := by
  cases k with
  | primitive p => cases p <;> decide
  | _ => exact (by decide : Quoteless "")

/-- What stands in the parentheses of a function. -/
theorem alike_body {op : Operator} {ts us ns : List String} {t : Option Kind} (h : AllAlike ts us ns)
    (one : op = .cast → ts.length ≤ 1) : Alike (body op ts t) (body op us t) ns := by
  unfold body
  split
  · rename_i hop
    simpa using (h.joined (one hop)).between (.quoteless (quoteless_typeName (t.getD default)))
      (p := " AS ") (by decide)
  · cases h with
    | nil =>
      split
      · exact .quoteless (by decide)
      · exact AllAlike.nil.listed
    | cons hx rest => simpa using (AllAlike.cons hx rest).listed

/-- **Expressions of arguments that are alike** are alike. -/
theorem alike_expression {op : Operator} {args args' : List Feature} {t : Option Kind}
    {ns : List String} (h : (Feature.expression op args t).Obeys .written)
    (h' : (Feature.expression op args' t).Obeys .written)
    (parts : AllAlike (args.map d.spellFeature) (args'.map d.spellFeature) ns)
    (operands : AllAlike ((args.map d.spellFeature).map d.operand)
      ((args'.map d.spellFeature).map d.operand) ns) :
    Alike (d.spellFeature (.expression op args t)) (d.spellFeature (.expression op args' t)) ns := by
  obtain ⟨⟨-, ⟨-, most⟩, target⟩, -⟩ := h
  obtain ⟨⟨-, ⟨-, most'⟩, -⟩, -⟩ := h'
  obtain ⟨-, unary, call⟩ := arity_of_fixity op
  have one : op.arity = (1, 1) → ((args.map d.spellFeature).map d.operand).length ≤ 1 := by
    intro arity
    simpa [arity] using most
  rw [spellFeature_given, spellFeature_given]
  cases hop : op.fixity with
  | between =>
    rw [expressionText_between hop, expressionText_between hop]
    exact operands.intercalate (.spaced (quoteless_symbol op))
  | front =>
    have symbol : Quoteless op.symbol := by cases op <;> decide
    rw [expressionText_front hop, expressionText_front hop]
    exact (operands.joined (one (unary (.inl hop)))).behind (symbol.append (by decide))
  | behind =>
    have symbol : Quoteless op.symbol := by cases op <;> decide
    rw [expressionText_behind hop, expressionText_behind hop]
    have whole := (operands.joined (one (unary (.inr hop)))).spaced (.quoteless symbol)
    rwa [List.append_nil] at whole
  | call =>
    have count : op = .count → args.length ≤ 1 ∧ args'.length ≤ 1 := by
      rintro rfl
      exact ⟨most, most'⟩
    rw [expressionText_call hop (fun hc => by simpa using (count hc).1) target,
      expressionText_call hop (fun hc => by simpa using (count hc).2) target]
    refine ((alike_body parts fun hc => ?_).parens).behind (quoteless_head op)
    subst hc
    rw [List.length_map]
    exact most

/-! ### Features -/

theorem alike_listClause {k : String} (hk : Quoteless k) {ts us ns : List String}
    (h : AllAlike ts us ns) : AllAlike (listClause k ts) (listClause k us) ns := by
  cases h with
  | nil => exact .nil
  | cons hx rest =>
    exact .single (((AllAlike.cons hx rest).listed).behind (hk.append (by decide)))

/-- Features to order by that are alike. -/
theorem alike_terms {os os' : List OrderTerm} (h : List.Forall₂ (fun o o' : OrderTerm =>
    Alike (d.spellFeature o.feature) (d.spellFeature o'.feature) o.feature.handles ∧
      o.direction = o'.direction) os os') :
    AllAlike (listClause "ORDER BY" ((os.map fun o => (d.spellFeature o.feature, o.direction)).map
        fun o => o.1 ++ " " ++ orderKeyword "undefined" o.2))
      (listClause "ORDER BY" ((os'.map fun o => (d.spellFeature o.feature, o.direction)).map
        fun o => o.1 ++ " " ++ orderKeyword "undefined" o.2))
      (os.flatMap fun o => o.feature.handles) := by
  refine alike_listClause (by decide) ?_
  rw [List.map_map, List.map_map]
  refine .map (h.imp fun o o' ⟨alike, same⟩ => ?_)
  have word : Quoteless (orderKeyword "undefined" o.direction) := by
    rcases o.direction with _ | _ | (_ | _) <;> decide
  have whole := alike.spaced (.quoteless word)
  rw [List.append_nil] at whole
  simpa only [Function.comp_apply, ← same] using whole

/-- **Windows of one pattern** are written alike if their parts are. -/
theorem alike_window {fn fn' : Feature} {ps ps' : List Feature} {os os' : List OrderTerm}
    {fr fr' : Option Frame}
    (parts : ∀ c ∈ (Feature.window fn ps os fr).children,
      ∀ c' ∈ (Feature.window fn' ps' os' fr').children, c.pattern = c'.pattern →
        Alike (d.spellFeature c) (d.spellFeature c') c.handles)
    (same : (Feature.window fn ps os fr).pattern = (Feature.window fn' ps' os' fr').pattern) :
    Alike (d.spellFeature (.window fn ps os fr)) (d.spellFeature (.window fn' ps' os' fr'))
      (Feature.window fn ps os fr).handles := by
  rw [Feature.pattern_window, Feature.pattern_window] at same
  obtain ⟨function, partition, ordering, frames⟩ := Feature.window.inj same
  have frame : fr.map frameText = fr'.map frameText := by
    simpa [Option.map_map, Function.comp_def, frameText_canonical]
      using congrArg (Option.map frameText) frames
  have framed : AllAlike (fr'.map frameText).toList (fr'.map frameText).toList [] := by
    cases fr' with
    | none => exact .nil
    | some f => exact .single (.quoteless (quoteless_frame f))
  have features := alike_listClause (k := "PARTITION BY") (by decide)
    (.map (forall₂_of_map_eq partition fun p hp p' hp' =>
      parts p (by simp [Feature.children, hp]) p' (by simp [Feature.children, hp'])))
  have terms := alike_terms (d := d) (forall₂_of_map_eq ordering fun o ho o' ho' h => by
    obtain ⟨feature, direction⟩ := OrderTerm.by.inj h
    exact ⟨parts _ (List.mem_append_right _ (List.mem_map_of_mem ho)) _
      (List.mem_append_right _ (List.mem_map_of_mem ho')) feature, direction⟩)
  have inner := (((features.append terms).append framed).intercalate (p := " ") (by decide)).parens
  have whole := (parts fn (by simp [Feature.children]) fn' (by simp [Feature.children])
    function).between inner (p := " OVER ") (by decide)
  rw [Feature.handles_eq rfl, spellFeature_window, spellFeature_window, windowText_eq, windowText_eq,
    windowParts, windowParts, orderClause_eq, orderClause_eq, frame]
  simpa [Feature.children, List.flatMap_map] using whole

/-- Operands that are alike are in parentheses on both sides or on neither. -/
theorem alike_operand {t t' : String} {form : Form} {ns : List String} (h : Alike t t' ns)
    (ht : d.standsAlone t = decide (form ≠ .compound))
    (ht' : d.standsAlone t' = decide (form ≠ .compound)) : Alike (d.operand t) (d.operand t') ns := by
  unfold operand
  rw [ht, ht']
  split
  · exact h
  · exact h.parens

theorem form_of_pattern {x x' : Feature} (h : x.pattern = x'.pattern) : x.form = x'.form := by
  cases x <;> cases x' <;> simp_all [Feature.form]

/-- **Skeletons of one pattern are written alike**: what they stand for places the parentheses. -/
theorem alike_feature (hd : d.quote = '"') : ∀ x x' : Feature, x.Obeys .written → x'.Obeys .written →
    x.pattern = x'.pattern → Alike (d.spellFeature x) (d.spellFeature x') x.handles := by
  -- Both trees are gone down together. Only expressions look at texts, and only to place parentheses;
  -- what they see is the form of a part, which the patterns share.
  refine Feature.childInduction fun x ih x' hx hx' same => ?_
  have parts : ∀ c ∈ x.children, ∀ c' ∈ x'.children, c.pattern = c'.pattern →
      Alike (d.spellFeature c) (d.spellFeature c') c.handles := fun c hc c' hc' =>
    ih c hc c' (hx.children c hc) (hx'.children c' hc')
  cases x with
  | aliased f n =>
    cases x' with
    | aliased f' n' =>
      obtain ⟨inner, rfl⟩ := Feature.aliased.inj same
      have whole := (parts f (by simp [Feature.children]) f' (by simp [Feature.children]) inner).between
        (.name n) (p := " AS ") (by decide)
      rw [List.append_nil, ← hd] at whole
      exact whole
    | _ => simp at same
  | literal v k =>
    cases x' with
    | literal v' k' =>
      obtain ⟨blanked, rfl⟩ := Feature.literal.inj same
      obtain ⟨t, ht⟩ := hx.2
      obtain ⟨t', ht'⟩ := hx'.2
      rw [spellFeature_literal ht, spellFeature_literal ht']
      exact alike_literal hx.1.1 hx'.1.1 blanked ht ht'
    | _ => simp at same
  | element s n k =>
    cases x' with
    | element s' n' k' =>
      obtain ⟨-, m, -, rfl⟩ := hx.1
      obtain ⟨-, m', -, rfl⟩ := hx'.1
      obtain ⟨origin, rfl, -⟩ := Feature.element.inj same
      obtain rfl : m = m' := congrArg Source.handle origin
      have whole := Alike.qualified m n
      rw [← hd] at whole
      exact whole
    | _ => simp at same
  | expression op args t =>
    cases x' with
    | expression op' args' t' =>
      rw [Feature.pattern_expression, Feature.pattern_expression] at same
      obtain ⟨rfl, inner, target⟩ := Feature.expression.inj same
      obtain ⟨bare, -, named⟩ := hx.1
      obtain ⟨bare', -, named'⟩ := hx'.1
      rw [castKind_of_castTarget named, castKind_of_castTarget named'] at target
      subst target
      have alone := fun a (ha : a ∈ args) =>
        standsAlone_feature hd (fun _ _ h => h.1) (hx.children a ha) (bare a ha)
      have alone' := fun a (ha : a ∈ args') =>
        standsAlone_feature hd (fun _ _ h => h.1) (hx'.children a ha) (bare' a ha)
      rw [Feature.handles_eq rfl]
      refine alike_expression hx hx' (.map (forall₂_of_map_eq inner parts)) ?_
      rw [List.map_map, List.map_map]
      exact .map (forall₂_of_map_eq inner fun a ha b hb h =>
        alike_operand (parts a ha b hb h) (alone a ha) (form_of_pattern h ▸ alone' b hb))
    | _ => simp at same
  | window fn ps os fr =>
    cases x' with
    | window fn' ps' os' fr' =>
      exact alike_window parts same
    | _ => simp at same

/-! ### Sources -/

theorem alike_features (hd : d.quote = '"') {fs fs' : List Feature}
    (h : ∀ f ∈ fs, f.Obeys .written) (h' : ∀ f ∈ fs', f.Obeys .written)
    (same : fs.map Feature.pattern = fs'.map Feature.pattern) :
    AllAlike (fs.map d.spellFeature) (fs'.map d.spellFeature) (fs.flatMap Feature.handles) :=
  .map (forall₂_of_map_eq same fun f hf f' hf' =>
    alike_feature hd f f' (h f hf) (h' f' hf'))

theorem alike_option (hd : d.quote = '"') {o o' : Option Feature} (h : ∀ f ∈ o, f.Obeys .written)
    (h' : ∀ f ∈ o', f.Obeys .written) (same : o.map Feature.pattern = o'.map Feature.pattern) :
    AllAlike (o.map d.spellFeature).toList (o'.map d.spellFeature).toList
      (o.toList.flatMap Feature.handles) := by
  cases o with
  | none =>
    cases o' with
    | none => exact .nil
    | some f' => simp at same
  | some f =>
    cases o' with
    | none => simp at same
    | some f' =>
      exact .map (.cons (alike_feature hd f f' (h f rfl) (h' f' rfl) (Option.some.inj same)) .nil)

theorem alike_clause {k : String} (hk : Quoteless k) {o o' : Option String} {ns : List String}
    (h : AllAlike o.toList o'.toList ns) : AllAlike (clause k o) (clause k o') ns := by
  cases o with
  | none =>
    cases o' with
    | none => exact h
    | some t' => cases h
  | some t =>
    cases o' with
    | none => cases h
    | some t' =>
      cases h with
      | cons hx rest =>
        cases rest
        rw [List.append_nil]
        exact .single (hx.behind (hk.append (by decide)))

theorem form_of_source_pattern {x x' : Source} (h : x.pattern = x'.pattern) : x.form = x'.form := by
  cases x <;> cases x' <;> simp_all [Source.form]

section

variable (hd : d.quote = '"') {x x' : Source} (hx : x.Obeys .written) (hx' : x'.Obeys .written)
  (same : x.pattern = x'.pattern) {ns : List String}
  (h : Alike (d.spellSource x) (d.spellSource x') ns)
include hd hx hx' same h

/-- Statements are in parentheses on both sides. -/
theorem alike_subquery : Alike (subquery (d.spellSource x)) (subquery (d.spellSource x')) ns := by
  unfold subquery
  rw [isStatement_source hd (fun _ _ h => h.1) hx, isStatement_source hd (fun _ _ h => h.1) hx',
    form_of_source_pattern same]
  split
  · exact h.parens
  · exact h

/-- So are statements and joins on the right of joins. -/
theorem alike_joinSide : Alike (d.joinSide (d.spellSource x)) (d.joinSide (d.spellSource x')) ns := by
  rw [joinSide_source hd (fun _ _ h => h.1) hx, joinSide_source hd (fun _ _ h => h.1) hx',
    form_of_source_pattern same]
  split
  · exact h
  · exact h.parens

/-- So are statements and joins under names. -/
theorem alike_wrapped (ne : x.type ≠ "Reference") (ne' : x'.type ≠ "Reference") :
    Alike (d.operand (d.spellSource x)) (d.operand (d.spellSource x')) ns := by
  unfold operand
  rw [standsAlone_source hd (fun _ _ h => h.1) hx ne, standsAlone_source hd (fun _ _ h => h.1) hx' ne',
    form_of_source_pattern same]
  split
  · exact h
  · exact h.parens

end

theorem alike_joinText {l l' r r' : String} {c c' : Option String} {k : JoinType}
    {ns ms : List String} (sides : Alike (subquery l ++ (" " ++ joinKeyword d.outer k ++ " ")
        ++ d.joinSide r) (subquery l' ++ (" " ++ joinKeyword d.outer k ++ " ") ++ d.joinSide r') ns)
    (condition : AllAlike c.toList c'.toList ms) :
    Alike (d.joinText l r c k) (d.joinText l' r' c' k) (ns ++ ms) := by
  have front : ∀ (l r : String) (c : Option String), d.joinText l r c k
      = subquery l ++ (" " ++ joinKeyword d.outer k ++ " ") ++ d.joinSide r
        ++ (c.map (" ON " ++ ·)).getD "" := fun l r c => by
    cases c <;> simp [joinText, String.append_assoc]
  rw [front, front]
  cases c with
  | none =>
    cases c' with
    | none =>
      cases condition
      simpa using sides
    | some c' => cases condition
  | some c =>
    cases c' with
    | none => cases condition
    | some c' =>
      cases condition with
      | cons h rest =>
        cases rest
        simpa [String.append_assoc] using sides.between h (p := " ON ") (by decide)

/-- **Statements of one pattern** are written alike if their sources are. -/
theorem alike_query (hd : d.quote = '"') {s s' : Source} {sel sel' : List Feature}
    {pre pre' : Option Feature} {grp grp' : List Feature} {post post' : Option Feature}
    {ord ord' : List OrderTerm} {rows : Option RowRange}
    (hx : (Source.query s sel pre grp post ord rows).Obeys .written)
    (hx' : (Source.query s' sel' pre' grp' post' ord' rows).Obeys .written)
    (same : (Source.query s sel pre grp post ord rows).pattern
      = (Source.query s' sel' pre' grp' post' ord' rows).pattern)
    {ns : List String} (h : Alike (d.spellSource s) (d.spellSource s') ns) :
    ∃ ms, Alike (d.spellSource (.query s sel pre grp post ord rows))
      (d.spellSource (.query s' sel' pre' grp' post' ord' rows)) ms := by
  rw [Source.pattern_query, Source.pattern_query] at same
  obtain ⟨source, selection, filter, grouping, groupFilter, ordering, -⟩ := Source.query.inj same
  have left := hx.statement
  have right := hx'.statement
  have features := alike_features hd left.selection right.selection selection
  have first := features.listed.behind (p := "SELECT ") (by decide)
  have origin := (alike_subquery hd left.source right.source source h).behind (p := "FROM ") (by decide)
  have filters := alike_option hd left.prefilter right.prefilter filter
  have groups := alike_features hd left.grouping right.grouping grouping
  have groupFilters := alike_option hd left.postfilter right.postfilter groupFilter
  have terms := alike_terms (d := d) (forall₂_of_map_eq ordering fun o ho o' ho' h => by
    obtain ⟨feature, direction⟩ := OrderTerm.by.inj h
    exact ⟨alike_feature hd _ _ (left.ordering o ho) (right.ordering o' ho') feature, direction⟩)
  have limit : AllAlike (rows.map limitText).toList (rows.map limitText).toList [] := by
    cases rows with
    | none => exact .nil
    | some r => exact .single (.quoteless (quoteless_limit r))
  have later := ((((alike_clause (k := "WHERE") (by decide) filters).append
    (alike_listClause (k := "GROUP BY") (by decide) groups)).append
    (alike_clause (k := "HAVING") (by decide) groupFilters)).append
    terms).append (alike_clause (k := "LIMIT") (by decide) limit)
  rw [spellSource_query, spellSource_query, queryText_eq, queryText_eq, laterClauses, laterClauses,
    orderClause_eq, orderClause_eq]
  exact ⟨_, (AllAlike.cons first (.cons origin later)).intercalate (by decide)⟩

/-- **Sources of one pattern are written alike.** -/
theorem alike_source (hd : d.quote = '"') : ∀ {x x' : Source}, x.Obeys .written →
    x'.Obeys .written → x.pattern = x'.pattern →
      ∃ ns, Alike (d.spellSource x) (d.spellSource x') ns
  | .table t, x', _, _, same => by
    cases x' with
    | table t' =>
      have name : t.name = t'.name := congrArg Source.handle same
      have whole := Alike.name t.name
      rw [← hd] at whole
      refine ⟨[], ?_⟩
      show Alike (d.quoted t.name) (d.quoted t'.name) []
      rw [← name]
      exact whole
    | _ => simp at same
  | .reference s n, x', hx, hx', same => by
    cases x' with
    | reference s' n' =>
      obtain ⟨inner, rfl⟩ := Source.reference.inj same
      obtain ⟨_, h⟩ := alike_source hd hx.2 hx'.2 inner
      have wrapped := alike_wrapped hd hx.2 hx'.2 inner h hx.1.2 hx'.1.2
      have whole := wrapped.between (.name n) (p := " AS ") (by decide)
      rw [← hd] at whole
      exact ⟨_, whole⟩
    | _ => simp at same
  | .join l r k c, x', hx, hx', same => by
    cases x' with
    | join l' r' k' c' =>
      rw [Source.pattern_join, Source.pattern_join] at same
      obtain ⟨left, right, rfl, condition⟩ := Source.join.inj same
      obtain ⟨-, hl, hr, hc⟩ := hx
      obtain ⟨-, hl', hr', hc'⟩ := hx'
      obtain ⟨_, hleft⟩ := alike_source hd hl hl' left
      obtain ⟨_, hright⟩ := alike_source hd hr hr' right
      have keyword : Separates (" " ++ joinKeyword d.outer k ++ " ") :=
        .spaced (by cases d.outer <;> cases k <;> decide)
      have sides := (alike_subquery hd hl hl' left hleft).between
        (alike_joinSide hd hr hr' right hright) keyword
      have condition := alike_option hd (optionObeys_iff.1 hc) (optionObeys_iff.1 hc') condition
      rw [spellSource_join, spellSource_join]
      exact ⟨_, alike_joinText sides condition⟩
    | _ => simp at same
  | .set l r k, x', hx, hx', same => by
    cases x' with
    | set l' r' k' =>
      obtain ⟨left, right, rfl⟩ := Source.set.inj same
      obtain ⟨_, hleft⟩ := alike_source hd hx.2.1 hx'.2.1 left
      obtain ⟨_, hright⟩ := alike_source hd hx.2.2 hx'.2.2 right
      have keyword : Separates (" " ++ setKeyword k ++ " ") := .spaced (by cases k <;> decide)
      have text : ∀ l r : Source, d.spellSource (.set l r k)
          = d.spellSource l ++ (" " ++ setKeyword k ++ " ") ++ d.spellSource r := fun l r => by
        show d.spellSource l ++ " " ++ setKeyword k ++ " " ++ d.spellSource r = _
        simp only [String.append_assoc]
      rw [text, text]
      exact ⟨_, hleft.between hright keyword⟩
    | _ => simp at same
  | .query s sel pre grp post ord rows, x', hx, hx', same => by
    cases x' with
    | query s' sel' pre' grp' post' ord' rows' =>
      obtain ⟨source, -, -, -, -, -, rfl⟩ := Source.query.inj
        ((Source.pattern_query ..).symm.trans (same.trans (Source.pattern_query ..)))
      obtain ⟨_, h⟩ := alike_source hd hx.2.1 hx'.2.1 source
      exact alike_query hd hx hx' same h
    | _ => simp at same

end Dialect

end QueryAlgebra.Sql
