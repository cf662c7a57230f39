import QueryAlgebra.Proofs.Sql.Labels
import QueryAlgebra.Proofs.Sql.Likeness

/-!
# Strings cannot change a statement

The names that columns go by depend on nothing but columns and tables. So two sources that differ in
the values of string literals alone have skeletons of one pattern, and are written alike.

* `Feature.columns_blanked`, `Source.titles_blanked`: columns and their titles, when strings are
  emptied.
* `pattern_of_run`: the pattern of the skeleton of a source is a shape of the source without strings.
* `strings_cannot_inject`: the texts of the two sources have the same lexemes, but for what stands
  inside string literals.
-/

namespace QueryAlgebra

/-! ### Columns and titles -/

namespace Feature

theorem isSome_table?_blanked (f : Feature) : f.blanked.table?.isSome = f.table?.isSome := by
  cases f with
  | element s n k => cases s <;> rfl
  | _ => rfl

/-- There are no strings in columns of tables. -/
theorem blanked_of_table {f : Feature} (h : f.table?.isSome = true) : f.blanked = f := by
  cases f with
  | element s n k =>
    cases s with
    | table t => rfl
    | _ => cases h
  | _ => cases h

theorem columns_blanked (f : Feature) : f.blanked.columns = f.columns := by
  unfold columns
  rw [elements_blanked, List.filter_map]
  have tables : ((fun e => e.table?.isSome) ∘ blanked) = fun e : Feature => e.table?.isSome :=
    funext isSome_table?_blanked
  rw [tables]
  have kept : ∀ e ∈ f.elements.filter fun e => e.table?.isSome, e.blanked = id e := fun e he =>
    blanked_of_table (List.mem_filter.1 he).2
  rw [List.map_congr_left kept, List.map_id]

end Feature

theorem columnsOf_blanked (fs : List Feature) :
    columnsOf (fs.map Feature.blanked) = columnsOf fs := by
  unfold columnsOf
  rw [List.flatMap_map]
  exact List.flatMap_congr fun f _ => f.columns_blanked

theorem clauseFeatures_blanked (s : Source) (sel : List Feature) (pre : Option Feature)
    (grp : List Feature) (post : Option Feature) (ord : List OrderTerm) :
    clauseFeatures s.blanked (blankedFeatures sel) (blankedOption pre) (blankedFeatures grp)
      (blankedOption post) (blankedTerms ord)
      = (clauseFeatures s sel pre grp post ord).map Feature.blanked := by
  have outputs : (Source.query s.blanked (blankedFeatures sel) (blankedOption pre)
      (blankedFeatures grp) (blankedOption post) (blankedTerms ord) none).features
      = (Source.query s sel pre grp post ord none).features.map Feature.blanked :=
    (Source.query s sel pre grp post ord none).features_blanked
  have option : ∀ o : Option Feature, (blankedOption o).toList = o.toList.map Feature.blanked := by
    intro o
    cases o <;> rfl
  have terms : (ord.map OrderTerm.blanked).map OrderTerm.feature
      = (ord.map OrderTerm.feature).map Feature.blanked := by
    simp only [List.map_map, Function.comp_def, OrderTerm.feature_blanked]
  unfold clauseFeatures
  rw [outputs, option, option, blankedFeatures_eq_map, blankedTerms_eq_map, terms]
  simp only [List.map_append]

/-- **Titles do not depend on strings.** -/
theorem Source.titles_blanked : ∀ (s : Source) (a : Titles), s.blanked.titles a = s.titles a
  | .table _, _ => rfl
  | .reference s _, a => s.titles_blanked a
  | .join l r _ c, a => by
    have option : (blankedOption c).toList = c.toList.map Feature.blanked := by cases c <;> rfl
    simp only [blanked, titles, option, Titles.register, columnsOf_blanked, titles_blanked l,
      titles_blanked r]
  | .set l r _, a => by simp only [blanked, titles, titles_blanked l, titles_blanked r]
  | .query s sel pre grp post ord _, a => by
    simp only [blanked, titles, clauseFeatures_blanked, Titles.inner, Titles.register,
      columnsOf_blanked, titles_blanked s]

theorem Titles.label_blanked (a : Titles) (s : Source) (n : String) :
    a.label s.blanked n = a.label s n := by
  cases s <;> rfl

namespace Sql

open Translation

/-- The pattern of the skeleton of a source is the shape of the source without its strings. -/
theorem pattern_of_run {s x : Source} (hs : s.Obeys .distinct)
    (h : (eval (directSource skeleton s) Bench.fresh).1 = .ok x) :
    x.pattern = s.blanked.shape (s.blanked.titles .none).label Source.features := by
  rw [Source.titles_blanked, Source.shape_blanked (Titles.label_blanked _), Source.pattern,
    ownShape_of_run hs h]

/-- **Strings cannot change a statement**: two sources that differ in the values of string literals
alone have texts with the same lexemes, but for what stands inside string literals. -/
theorem strings_cannot_inject {d : Dialect} (hd : d.quote = '"') {s s' : Source} (built : s.Built)
    (built' : s'.Built) (free : s.Obeys .structFree) (free' : s'.Obeys .structFree)
    (same : s.blanked = s'.blanked) {text text' : String}
    (compiled : d.compiled s = .ok (some (.source text)))
    (compiled' : d.compiled s' = .ok (some (.source text'))) :
    ∃ ls ls', lexemes text = some ls ∧ lexemes text' = some ls' ∧
      ls.map Lexeme.blanked = ls'.map Lexeme.blanked := by
  obtain ⟨x, hx, written, -, rfl⟩ := Dialect.compiled_spelling built compiled
  obtain ⟨x', hx', written', -, rfl⟩ := Dialect.compiled_spelling built' compiled'
  have pattern : x.pattern = x'.pattern := by
    rw [pattern_of_run (built.distinct free) hx, pattern_of_run (built'.distinct free') hx', same]
  obtain ⟨_, ls, ls', hls, hls', blanked, -, -⟩ := Dialect.alike_source hd written written' pattern
  exact ⟨ls, ls', hls.lexemes, hls'.lexemes, blanked⟩

/-- Strings with quotes, parentheses and keywords. -/
theorem strings_cannot_inject_of_comparison :
    let twin : Source := .table ⟨"twin", [("name", ⟨.primitive .string, "name"⟩)]⟩
    let name : Feature := .element twin "name" (.primitive .string)
    let named (v : String) : Source := .query twin
      [.expression .eq [name, .literal (.text v) (.primitive .string)] none] none [] none [] none
    ∃ text text', Dialect.standard.compiled (named "it's") = .ok (some (.source text)) ∧
      Dialect.standard.compiled (named ") OR \"id\" IN (SELECT") = .ok (some (.source text')) ∧
      ∃ ls ls', lexemes text = some ls ∧ lexemes text' = some ls' ∧
        ls.map Lexeme.blanked = ls'.map Lexeme.blanked := by
  intro twin name named
  have table : twin.Built := .of_distinct rfl
  have hname : name.Built := .element table (show twin.get "name" = .ok _ from rfl)
  have comparison : ∀ v : String,
      (Feature.expression .eq [name, .literal (.text v) (.primitive .string)] none).Built := fun v =>
    built_pair hname (.literal (show Feature.literalOf (.text v) none = .ok _ from rfl)) rfl
  have built : ∀ v : String,
      (Feature.expression .eq [name, .literal (.text v) (.primitive .string)] none).Within
        (elementsIn twin.features) → (named v).Built := fun v within =>
    table.selecting (by simpa using comparison v) (by simpa using within)
  have free : ∀ v : String, (named v).Obeys .structFree := by
    intro v
    have fields : twin.Obeys .structFree := structFree_table rfl
    have feature : (Feature.expression .eq [name, .literal (.text v) (.primitive .string)] none).Obeys
        .structFree := ⟨nofun, ⟨trivial, fields⟩, trivial, trivial⟩
    exact ⟨trivial, fields, ⟨feature, trivial⟩, trivial, trivial, trivial, trivial⟩
  have compiled := eq_of_textOf (show textOf (Dialect.standard.compiled (named "it's"))
    = some "SELECT \"twin\".\"name\" = 'it''s' FROM \"twin\"" by decide +kernel)
  have compiled' := eq_of_textOf (show textOf
    (Dialect.standard.compiled (named ") OR \"id\" IN (SELECT"))
      = some "SELECT \"twin\".\"name\" = ') OR \"id\" IN (SELECT' FROM \"twin\"" by decide +kernel)
  have same : (named "it's").blanked = (named ") OR \"id\" IN (SELECT").blanked := by
    simp [named, Source.blanked, Feature.blanked, blankedFeatures, Value.blankedAs]
  have left := built "it's" (by decide +kernel)
  have right := built ") OR \"id\" IN (SELECT" (by decide +kernel)
  exact ⟨_, _, compiled, compiled',
    strings_cannot_inject rfl left right (free _) (free _) same compiled compiled'⟩

/-- With structs whose names spell parts of keys, a string can give a feature the key of another one,
which is then written in its place: one text has a string literal and the other one has none. -/
theorem strings_change_statement :
    let item : Source := .table ⟨"item", [("id", ⟨.primitive .integer, "id"⟩)]⟩
    let id : Feature := .element item "id" (.primitive .integer)
    let struct (n : String) : Option Kind := some (.struct [(n, .primitive .integer)])
    let first : Feature := .expression .and
      [.expression .isNull [id] (struct "Y:Integer>,notNull(Literal(String:\"v\")):Struct<w"),
        .expression .notNull [id] (struct "U")] none
    let second (v : String) : Feature := .expression .and
      [.expression .isNull [id] (struct "Y"),
        .expression .notNull [.literal (.text v) (.primitive .string)]
          (struct ("w:Integer>,notNull(" ++ id.key ++ "):Struct<U"))] none
    let both (v : String) : Source := .query item [first, second v] none [] none [] none
    (both "v").Built ∧ (both "x").Built ∧ (both "v").blanked = (both "x").blanked ∧
      ∃ text text', Dialect.standard.compiled (both "v") = .ok (some (.source text)) ∧
        Dialect.standard.compiled (both "x") = .ok (some (.source text')) ∧
        '\'' ∉ text.toList ∧ '\'' ∈ text'.toList := by
  intro item id struct first second both
  have table : item.Built := .of_distinct rfl
  have hid : id.Built := .element table (show item.get "id" = .ok _ from rfl)
  have test : ∀ {op : Operator} {f : Feature} {t : Option Kind}, f.Built →
      Feature.expr op [.feature f] t = .ok (.expression op [f] t) →
        (Feature.expression op [f] t).Built := fun hf h =>
    .expression (fun o ho => List.mem_singleton.1 ho ▸ .feature hf) h
  have conjunction : ∀ {f g : Feature}, f.Built → g.Built →
      Feature.expr .and [.feature f, .feature g] none = .ok (.expression .and [f, g] none) →
        (Feature.expression .and [f, g] none).Built := fun hf hg h =>
    .expression (fun o ho => by
      rcases List.mem_pair.1 ho with rfl | rfl
      · exact .feature hf
      · exact .feature hg) h
  have hfirst : first.Built := conjunction (test hid rfl) (test hid rfl) rfl
  have hsecond : ∀ v, (second v).Built := fun v =>
    conjunction (test hid rfl) (test (.literal (show Feature.literalOf (.text v) none = .ok _ from rfl)) rfl) rfl
  have built : ∀ v, first.Within (elementsIn item.features) →
      (second v).Within (elementsIn item.features) → (both v).Built := fun v within within' =>
    table.selecting (by simpa using ⟨hfirst, hsecond v⟩) (by simpa using ⟨within, within'⟩)
  have same : (both "v").blanked = (both "x").blanked := by
    simp [both, first, second, Source.blanked, Feature.blanked, blankedFeatures, Value.blankedAs]
  have left := built "v" (by decide +kernel) (by decide +kernel)
  have right := built "x" (by decide +kernel) (by decide +kernel)
  -- With "v" both features have one key, so that the second one is written like the first one.
  have repeated := eq_of_textOf (show textOf (Dialect.standard.compiled (both "v")) = some
    "SELECT (\"item\".\"id\" IS NULL) AND (\"item\".\"id\" IS NOT NULL), (\"item\".\"id\" IS NULL) AND (\"item\".\"id\" IS NOT NULL) FROM \"item\""
    by decide +kernel)
  have apart := eq_of_textOf (show textOf (Dialect.standard.compiled (both "x")) = some
    "SELECT (\"item\".\"id\" IS NULL) AND (\"item\".\"id\" IS NOT NULL), (\"item\".\"id\" IS NULL) AND ('x' IS NOT NULL) FROM \"item\""
    by decide +kernel)
  exact ⟨left, right, same, _, _, repeated, apart, by decide +kernel, by decide +kernel⟩

end Sql

end QueryAlgebra
