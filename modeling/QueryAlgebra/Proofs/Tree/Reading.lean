import QueryAlgebra.Proofs.Tree.Canonical
import QueryAlgebra.Proofs.Tree.Rules

/-!
# Keys of trees are read in one way

* `Feature.key_reads`, `OrderTerm.key_reads`, `Source.key_reads`: trees without structs are told
  apart by their keys, whatever follows, up to what a key does not keep.
* `structural_keys`: keys of built trees identify what a key keeps, and sets told by keys confuse
  no two trees.
-/

namespace QueryAlgebra

open Text

/-! ### Tags -/

theorem Operator.name_injective {a b : Operator} (h : a.name = b.name) : a = b := by
  have all : ∀ x ∈ Operator.all, ∀ y ∈ Operator.all, x.name = y.name → x = y := by decide
  exact all a (by cases a <;> decide) b (by cases b <;> decide) h

theorem JoinType.name_injective {a b : JoinType} (h : a.name = b.name) : a = b := by
  cases a <;> cases b <;> first | rfl | exact absurd h (by decide)

theorem SetOp.name_injective {a b : SetOp} (h : a.name = b.name) : a = b := by
  cases a <;> cases b <;> first | rfl | exact absurd h (by decide)

/-- The word with which the key of a feature begins. -/
def Feature.tag : Feature → String
  | .expression op _ _ => op.name
  | f                  => f.type

theorem Feature.key_tag (f : Feature) :
    ∃ body, f.key.toList = f.tag.toList ++ '(' :: body := by
  cases f with
  | expression op args t => exact ⟨_, by simp [Feature.key, Feature.tag]; rfl⟩
  | _ => exact ⟨_, by simp [Feature.key, Feature.tag, Feature.type]; rfl⟩

theorem Feature.tag_noParen (f : Feature) : ∀ c ∈ f.tag.toList, c ≠ '(' := by
  cases f with
  | expression op args t => cases op <;> simp [Feature.tag, Operator.name]
  | _ => simp [Feature.tag, Feature.type]

theorem Feature.type_eq_of_tag {f g : Feature} (h : f.tag = g.tag) : f.type = g.type := by
  have upper : ∀ op : Operator, op.name ≠ "Aliased" ∧ op.name ≠ "Literal" ∧ op.name ≠ "Element" ∧
      op.name ≠ "Window" := by intro op; cases op <;> decide
  cases f with
  | expression op args t =>
    obtain ⟨h1, h2, h3, h4⟩ := upper op
    cases g <;> first | rfl | exact absurd h ‹_›
  | _ =>
    cases g with
    | expression op args t =>
      obtain ⟨h1, h2, h3, h4⟩ := upper op
      exact absurd h.symm ‹_›
    | _ => exact h

/-- Keys begin with the tags of their features. -/
theorem Feature.tag_eq_of_key {f g : Feature} {r r' : List Char}
    (h : f.key.toList ++ r = g.key.toList ++ r') : f.tag = g.tag := by
  obtain ⟨body, hf⟩ := f.key_tag
  obtain ⟨body', hg⟩ := g.key_tag
  rw [hf, hg, List.append_assoc, List.append_assoc] at h
  exact (tag_inj f.tag_noParen g.tag_noParen h).1

/-- Features with one key are of one sort. -/
theorem Feature.type_eq {f g : Feature} (h : f.key = g.key) : f.type = g.type :=
  type_eq_of_tag (@tag_eq_of_key f g [] [] (by rw [h]))

/-- No key of a feature begins with a mark that closes a list. -/
theorem Feature.key_start (f : Feature) (r : List Char) : ¬Closes (f.key.toList ++ r) := by
  obtain ⟨body, hf⟩ := f.key_tag
  rw [hf]
  cases f with
  | expression op args t =>
    cases op <;> simp only [Feature.tag, Operator.name] <;> exact not_closes_cons (by decide)
  | _ => simp only [Feature.tag, Feature.type]; exact not_closes_cons (by decide)

theorem OrderTerm.key_start (o : OrderTerm) (r : List Char) : ¬Closes (o.key.toList ++ r) := by
  cases o with
  | «by» f d => simpa [OrderTerm.key] using f.key_start (' ' :: (d.name.toList ++ r))

theorem Source.key_tag (s : Source) : ∃ body, s.key.toList = s.type.toList ++ '(' :: body := by
  cases s with
  | table schema => exact ⟨_, by simp [Source.key, Source.type, Schema.key]; rfl⟩
  | _ => exact ⟨_, by simp [Source.key, Source.type]; rfl⟩

/-- Keys begin with the sorts of their sources. -/
theorem Source.type_eq_of_key {s t : Source} {r r' : List Char}
    (h : s.key.toList ++ r = t.key.toList ++ r') : s.type = t.type := by
  have noParen : ∀ u : Source, ∀ c ∈ u.type.toList, c ≠ '(' := by
    intro u; cases u <;> simp [Source.type]
  obtain ⟨body, hs⟩ := s.key_tag
  obtain ⟨body', ht⟩ := t.key_tag
  rw [hs, ht, List.append_assoc, List.append_assoc] at h
  exact (tag_inj (noParen s) (noParen t) h).1

/-- Sources with one key are of one sort. -/
theorem Source.type_eq {s t : Source} (h : s.key = t.key) : s.type = t.type :=
  @type_eq_of_key s t [] [] (by rw [h])

theorem Source.eq_table_of_type {s : Source} (h : s.type = "Table") : ∃ t, s = .table t := by
  cases s with
  | table t => exact ⟨t, rfl⟩
  | _ => simp [Source.type] at h

/-! ### Parts of keys -/

theorem RowRange.toList_key (a : RowRange) :
    a.key.toList = a.offsetText.toList ++ ':' :: a.countText.toList := by
  simp [RowRange.key]

theorem RowRange.key_append_inj {a b : RowRange} (ha : a.Exact) (hb : b.Exact) {r r' : List Char}
    (h : a.key.toList ++ ')' :: r = b.key.toList ++ ')' :: r') : a = b ∧ r = r' := by
  have word : ∀ n : Nat, ∀ c ∈ (Number.ofNat n).text.toList, Number.isWord c = true := fun n =>
    Number.isWord_of_mem_text (.ofNat n)
  rw [toList_key, toList_key, List.append_assoc, List.append_assoc, List.cons_append,
    List.cons_append] at h
  obtain ⟨hoffset, h₁⟩ := takeWhile_append_inj Number.isWord (word a.offset) (word b.offset)
    (by decide) (by decide) h
  obtain ⟨hcount, h₂⟩ := takeWhile_append_inj Number.isWord (word a.count) (word b.count)
    (by decide) (by decide) (List.cons.inj h₁).2
  have offsets : a.offset = b.offset :=
    Number.ofNat_text_injective ha.2 hb.2 (String.toList_inj.1 hoffset)
  have counts : a.count = b.count :=
    Number.ofNat_text_injective ha.1 hb.1 (String.toList_inj.1 hcount)
  obtain ⟨_, _⟩ := a
  obtain ⟨_, _⟩ := b
  exact ⟨by simp only at offsets counts; rw [offsets, counts], (List.cons.inj h₂).2⟩

/-- A character that may stand in the text of a frame's end. -/
def FrameEnd.isWord (c : Char) : Bool := Number.isWord c || c.isAlpha

theorem FrameEnd.isWord_of_mem_text (e : FrameEnd) : ∀ c ∈ e.text.toList, isWord c = true := by
  cases e with
  | unbounded => simp [FrameEnd.text, isWord]
  | current => simp [FrameEnd.text, isWord]
  | offset n => exact fun c hc => by simp [isWord, Number.isWord_of_mem_text n c hc]

theorem FrameEnd.text_injective {a b : FrameEnd} (h : a.text = b.text) :
    a.canonical = b.canonical := by
  -- The words for ends without a distance have a letter that is in no number.
  have apart : ∀ (n : Number) (e : FrameEnd), 'u' ∈ e.text.toList → n.text ≠ e.text := by
    intro n e hu he
    rw [← he] at hu
    exact absurd (Number.isWord_of_mem_text n 'u' hu) (by decide)
  cases a with
  | offset m =>
    cases b with
    | offset n => simp [FrameEnd.canonical, Number.text_eq_text_iff.1 h]
    | unbounded => exact absurd h (apart m .unbounded (by simp [FrameEnd.text]))
    | current => exact absurd h (apart m .current (by simp [FrameEnd.text]))
  | unbounded =>
    cases b with
    | offset n => exact absurd h.symm (apart n .unbounded (by simp [FrameEnd.text]))
    | unbounded => rfl
    | current => exact absurd h (by decide)
  | current =>
    cases b with
    | offset n => exact absurd h.symm (apart n .current (by simp [FrameEnd.text]))
    | unbounded => exact absurd h (by decide)
    | current => rfl

theorem FrameEnd.text_append_inj {a b : FrameEnd} {c c' : Char} {r r' : List Char}
    (hc : isWord c = false) (hc' : isWord c' = false)
    (h : a.text.toList ++ c :: r = b.text.toList ++ c' :: r') :
    a.canonical = b.canonical ∧ c :: r = c' :: r' := by
  obtain ⟨htext, hrest⟩ :=
    takeWhile_append_inj isWord a.isWord_of_mem_text b.isWord_of_mem_text hc hc' h
  exact ⟨text_injective (String.toList_inj.1 htext), hrest⟩

theorem Frame.key_append_inj {f g : Frame} {r r' : List Char}
    (h : f.key.toList ++ ')' :: r = g.key.toList ++ ')' :: r') :
    f.canonical = g.canonical ∧ r = r' := by
  have h₁ : f.mode.name.toList ++ ':' :: (f.start.text.toList ++ ':' ::
        (f.stop.text.toList ++ ')' :: r))
      = g.mode.name.toList ++ ':' :: (g.start.text.toList ++ ':' ::
        (g.stop.text.toList ++ ')' :: r')) := by simpa [Frame.key] using h
  have word : ∀ m : FrameUnit, ∀ c ∈ m.name.toList, Char.isAlpha c = true := by
    intro m; cases m <;> simp [FrameUnit.name]
  obtain ⟨hmode, h₂⟩ := takeWhile_append_inj Char.isAlpha (word f.mode) (word g.mode)
    (by decide) (by decide) h₁
  obtain ⟨hstart, h₃⟩ := FrameEnd.text_append_inj (by decide) (by decide) (List.cons.inj h₂).2
  obtain ⟨hstop, h₄⟩ := FrameEnd.text_append_inj (by decide) (by decide) (List.cons.inj h₃).2
  have modes : f.mode = g.mode := by
    have hname := String.toList_inj.1 hmode
    revert hname
    cases f.mode <;> cases g.mode <;> first | exact fun _ => rfl | exact fun h => absurd h (by decide)
  exact ⟨by simp [Frame.canonical, modes, hstart, hstop], (List.cons.inj h₄).2⟩

/-- The key of a field whose kind is without structs tells it. -/
theorem NamedField.key_append_inj {f g : NamedField} (hf : f.kind.StructFree)
    (hg : g.kind.StructFree) {r r' : List Char} (h : f.key.toList ++ r = g.key.toList ++ r') :
    f = g ∧ r = r' := by
  have h₁ : f.kind.key.toList ++ ':' :: ((json f.name).toList ++ r)
      = g.kind.key.toList ++ ':' :: ((json g.name).toList ++ r') := by
    simpa [NamedField.key, NamedField.toField, Field.key] using h
  obtain ⟨hkind, h₂⟩ := Kind.key_append_inj hf hg h₁
  obtain ⟨hname, h₃⟩ := json_append_inj (List.cons.inj h₂).2
  obtain ⟨_, _⟩ := f
  obtain ⟨_, _⟩ := g
  exact ⟨by simp only at hkind hname; rw [hkind, hname], h₃⟩

theorem NamedField.key_start (f : NamedField) (r : List Char) : ¬Closes (f.key.toList ++ r) := by
  obtain ⟨kind, name⟩ := f
  cases kind with
  | primitive p =>
    cases p <;> simp only [key, toField, Field.key, Kind.key, Primitive.name, String.toList_append,
      List.append_assoc] <;> exact not_closes_cons (by decide)
  | _ =>
    simp only [key, toField, Field.key, Kind.key, String.toList_append, List.append_assoc]
    exact not_closes_cons (by decide)

theorem Schema.key_append_inj {s t : Schema} (hs : ∀ f ∈ s.fields, f.kind.StructFree)
    (ht : ∀ f ∈ t.fields, f.kind.StructFree) {r r' : List Char}
    (h : s.key.toList ++ r = t.key.toList ++ r') : s.canonical = t.canonical ∧ r = r' := by
  have h₁ : (String.intercalate ", " (s.fields.map NamedField.key)).toList ++ ')' :: r
      = (String.intercalate ", " (t.fields.map NamedField.key)).toList ++ ')' :: r' := by
    simpa [Schema.key] using h
  have reads : ∀ f ∈ s.fields,
      ReadsAt NamedField.key id (fun f : NamedField => f.kind.StructFree) f :=
    fun f hf g hg _ _ _ _ => NamedField.key_append_inj (hs f hf) hg
  obtain ⟨hfields, hrest⟩ := listed_inj (s := [' ']) (by simp) (fun f _ => f.key_start) hs reads ht
    (closes_cons _ (by decide)) (closes_cons _ (by decide)) h₁
  exact ⟨by simp only [List.map_id] at hfields; simp [Schema.canonical, hfields],
    (List.cons.inj hrest).2⟩

/-! ### Trees -/

/-- A feature without structs is told from every other one by its key. -/
def Feature.Reads : Feature → Prop :=
  ReadsAt Feature.key Feature.canonical fun f => f.Obeys .distinct

/-- A feature to order by is told from every other one by its key. -/
def OrderTerm.Reads : OrderTerm → Prop :=
  ReadsAt OrderTerm.key OrderTerm.canonical fun o => o.Obeys .distinct

/-- A source without structs is told from every other one by its key, whatever follows. -/
def Source.Reads (s : Source) : Prop :=
  ∀ t : Source, t.Obeys .distinct → ∀ r r', s.key.toList ++ r = t.key.toList ++ r' →
    s.canonical = t.canonical ∧ r = r'

/-- A list of features is read up to the mark that closes it. -/
theorem features_inj {fs gs : List Feature} (hf : ∀ f ∈ fs, f.Reads)
    (hfs : featuresObey .distinct fs) (hgs : featuresObey .distinct gs) {r r' : List Char}
    (hr : Closes r) (hr' : Closes r')
    (h : (String.intercalate "," (featureKeys fs)).toList ++ r
      = (String.intercalate "," (featureKeys gs)).toList ++ r') :
    canonicalFeatures fs = canonicalFeatures gs ∧ r = r' := by
  rw [featureKeys_eq_map, featureKeys_eq_map] at h
  rw [canonicalFeatures_eq_map, canonicalFeatures_eq_map]
  exact listed_inj (s := []) (by simp) (fun f _ => f.key_start) (featuresObey_iff.1 hfs) hf
    (featuresObey_iff.1 hgs) hr hr' h

/-- A list of features to order by is read up to the mark that closes it. -/
theorem terms_inj {os us : List OrderTerm} (ho : ∀ o ∈ os, o.Reads)
    (hos : termsObey .distinct os) (hus : termsObey .distinct us) {r r' : List Char}
    (hr : Closes r) (hr' : Closes r')
    (h : (String.intercalate "," (orderKeys os)).toList ++ r
      = (String.intercalate "," (orderKeys us)).toList ++ r') :
    canonicalTerms os = canonicalTerms us ∧ r = r' := by
  rw [orderKeys_eq_map, orderKeys_eq_map] at h
  rw [canonicalTerms_eq_map, canonicalTerms_eq_map]
  exact listed_inj (s := []) (by simp) (fun o _ => o.key_start) (termsObey_iff.1 hos) ho
    (termsObey_iff.1 hus) hr hr' h

/-- A feature that may be missing is read up to the mark that closes it. -/
theorem option_inj {o u : Option Feature} (ho : ∀ f ∈ o, f.Reads) (hu : optionObeys .distinct u)
    {r r' : List Char} (hr : Closes r) (hr' : Closes r')
    (h : (optionKey o).toList ++ r = (optionKey u).toList ++ r') :
    canonicalOption o = canonicalOption u ∧ r = r' := by
  cases o with
  | none =>
    cases u with
    | none => exact ⟨rfl, by simpa [optionKey] using h⟩
    | some g =>
      have hrest : r = g.key.toList ++ r' := by simpa [optionKey] using h
      exact absurd (hrest ▸ hr) (g.key_start r')
  | some f =>
    cases u with
    | none =>
      have hrest : f.key.toList ++ r = r' := by simpa [optionKey] using h
      exact absurd (hrest.symm ▸ hr') (f.key_start r)
    | some g =>
      obtain ⟨hform, hrest⟩ := ho f rfl g hu r r' hr.stops hr'.stops h
      exact ⟨by simp [canonicalOption, hform], hrest⟩

/-- The target behind an expression in its key. -/
def targetKey (t : Option Kind) : String :=
  match t with
  | some k => ":" ++ k.key
  | none   => ""

/-- The frame at the end of a window's key. -/
def frameKey (f : Option Frame) : String :=
  match f with
  | some x => x.key
  | none   => ""

/-- The row limit at the end of a statement's key. -/
def rowsKey (r : Option RowRange) : String :=
  match r with
  | some x => x.key
  | none   => ""

/-- The optional target behind an expression is read up to a mark behind the expression. -/
theorem target_inj {t u : Option Kind} (ht : ∀ k ∈ t, k.StructFree) (hu : ∀ k ∈ u, k.StructFree)
    {r r' : List Char} (hr : Stops r) (hr' : Stops r')
    (h : (targetKey t).toList ++ r = (targetKey u).toList ++ r') : t = u ∧ r = r' := by
  have noColon : ∀ {x y : List Char}, Stops x → x ≠ ':' :: y := by
    rintro x y ⟨c, _, rfl, hc⟩ heq
    rw [(List.cons.inj heq).1] at hc
    exact absurd hc (by decide)
  cases t with
  | none =>
    cases u with
    | none => exact ⟨rfl, by simpa [targetKey] using h⟩
    | some k => exact absurd (by simpa [targetKey] using h) (noColon (y := k.key.toList ++ r') hr)
  | some k =>
    cases u with
    | none => exact absurd (by simpa [targetKey] using h.symm) (noColon (y := k.key.toList ++ r) hr')
    | some l =>
      have h₁ : k.key.toList ++ r = l.key.toList ++ r' := by simpa [targetKey] using h
      obtain ⟨rfl, hrest⟩ := Kind.key_append_inj (ht k rfl) (hu l rfl) h₁
      exact ⟨rfl, hrest⟩

/-- The optional frame at the end of a window is read up to the closing parenthesis. -/
theorem frame_inj {f g : Option Frame} {r r' : List Char}
    (h : (frameKey f).toList ++ ')' :: r = (frameKey g).toList ++ ')' :: r') :
    f.map Frame.canonical = g.map Frame.canonical ∧ r = r' := by
  have start : ∀ (x : Frame) (y z : List Char), x.key.toList ++ y ≠ ')' :: z := by
    intro x y z
    cases hm : x.mode <;> simp [Frame.key, hm, FrameUnit.name]
  cases f with
  | none =>
    cases g with
    | none => exact ⟨rfl, by simpa [frameKey] using h⟩
    | some y => exact absurd (by simpa [frameKey] using h.symm) (start y (')' :: r') r)
  | some x =>
    cases g with
    | none => exact absurd (by simpa [frameKey] using h) (start x (')' :: r) r')
    | some y =>
      obtain ⟨hform, hrest⟩ := Frame.key_append_inj h
      exact ⟨by simp [hform], hrest⟩

theorem RowRange.isWord_of_mem_offsetText (x : RowRange) :
    ∀ c ∈ x.offsetText.toList, Number.isWord c = true := by
  unfold RowRange.offsetText
  exact Number.isWord_of_mem_text (.ofNat x.offset)

/-- A row limit begins with a number. -/
theorem RowRange.key_start (x : RowRange) (y z : List Char) :
    x.key.toList ++ y ≠ ')' :: z := by
  have word := x.isWord_of_mem_offsetText
  rw [toList_key, List.append_assoc, List.cons_append]
  generalize x.offsetText.toList = w at word
  cases w with
  | nil => simp
  | cons c w =>
    simp only [List.cons_append, ne_eq, List.cons.injEq, not_and]
    rintro rfl
    exact absurd (word _ List.mem_cons_self) (by decide)

/-- The optional row limit at the end of a statement is read up to the closing parenthesis. -/
theorem rows_inj {a b : Option RowRange} (ha : ∀ x ∈ a, x.Exact) (hb : ∀ x ∈ b, x.Exact)
    {r r' : List Char}
    (h : (rowsKey a).toList ++ ')' :: r = (rowsKey b).toList ++ ')' :: r') : a = b ∧ r = r' := by
  cases a with
  | none =>
    cases b with
    | none =>
      simp only [rowsKey, String.toList_empty, List.nil_append] at h
      exact ⟨rfl, (List.cons.inj h).2⟩
    | some y =>
      simp only [rowsKey, String.toList_empty, List.nil_append] at h
      exact absurd h.symm (y.key_start _ _)
  | some x =>
    cases b with
    | none =>
      simp only [rowsKey, String.toList_empty, List.nil_append] at h
      exact absurd h (x.key_start _ _)
    | some y =>
      simp only [rowsKey] at h
      obtain ⟨rfl, hrest⟩ := RowRange.key_append_inj (ha x rfl) (hb y rfl) h
      exact ⟨rfl, hrest⟩

/-- The key of an expression, and what follows it. -/
theorem Feature.toList_key_expression (op : Operator) (args : List Feature) (t : Option Kind)
    (r : List Char) :
    (Feature.expression op args t).key.toList ++ r
      = op.name.toList ++ '(' :: ((String.intercalate "," (featureKeys args)).toList ++ ')' ::
        ((targetKey t).toList ++ r)) := by
  cases t <;> simp [Feature.key, targetKey]

/-- The key of a window, clause by clause, and what follows it. -/
theorem Feature.toList_key_window (fn : Feature) (ps : List Feature) (os : List OrderTerm)
    (fr : Option Frame) (r : List Char) :
    (Feature.window fn ps os fr).key.toList ++ r
      = "Window(".toList ++ (fn.key.toList ++ '|' ::
        ((String.intercalate "," (featureKeys ps)).toList ++ '|' ::
        ((String.intercalate "," (orderKeys os)).toList ++ '|' ::
        ((frameKey fr).toList ++ ')' :: r)))) := by
  cases fr <;> simp [Feature.key, frameKey, String.intercalate_cons_cons]

/-- The key of a statement, clause by clause, and what follows it. -/
theorem Source.toList_key_query (s : Source) (sel : List Feature) (pre : Option Feature)
    (grp : List Feature) (post : Option Feature) (ord : List OrderTerm) (rows : Option RowRange)
    (r : List Char) :
    (Source.query s sel pre grp post ord rows).key.toList ++ r
      = "Query(".toList ++ (s.key.toList ++ '|' :: ("select:".toList ++
        ((String.intercalate "," (featureKeys sel)).toList ++ '|' :: ("where:".toList ++
        ((optionKey pre).toList ++ '|' :: ("groupby:".toList ++
        ((String.intercalate "," (featureKeys grp)).toList ++ '|' :: ("having:".toList ++
        ((optionKey post).toList ++ '|' :: ("orderby:".toList ++
        ((String.intercalate "," (orderKeys ord)).toList ++ '|' :: ("rows:".toList ++
        ((rowsKey rows).toList ++ ')' :: r))))))))))))) := by
  have bar : "|".toList = ['|'] := by simp
  have close : ")".toList = [')'] := by simp
  cases rows <;> simp only [Source.key, rowsKey, String.intercalate_cons_cons,
    String.intercalate_singleton, String.toList_append, bar, close, List.append_assoc,
    List.cons_append, List.nil_append]

mutual

/-- **A feature without structs is told from every other one by its key.** -/
theorem Feature.key_reads : ∀ f : Feature, f.Obeys .distinct → f.Reads
  | .aliased f n, hf => by
    intro g hg r r' hr hr' h
    have htype := Feature.type_eq_of_tag (Feature.tag_eq_of_key h)
    cases g with
    | aliased g m =>
      have h₁ : f.key.toList ++ ' ' :: ("AS ".toList ++ ((json n).toList ++ ')' :: r))
          = g.key.toList ++ ' ' :: ("AS ".toList ++ ((json m).toList ++ ')' :: r')) := by
        simpa [Feature.key] using h
      obtain ⟨hform, h₂⟩ := Feature.key_reads f hf.2 g hg.2 _ _ (stops_cons _ (by decide))
        (stops_cons _ (by decide)) h₁
      obtain ⟨rfl, h₃⟩ := json_append_inj (List.append_cancel_left (List.cons.inj h₂).2)
      exact ⟨by simp [Feature.canonical, hform], (List.cons.inj h₃).2⟩
    | _ => exact absurd htype (by simp [Feature.type])
  | .literal v k, hf => by
    intro g hg r r' hr hr' h
    have htype := Feature.type_eq_of_tag (Feature.tag_eq_of_key h)
    cases g with
    | literal w l =>
      have h₁ : k.key.toList ++ ':' :: (v.key.toList ++ ')' :: r)
          = l.key.toList ++ ':' :: (w.key.toList ++ ')' :: r') := by
        simpa [Feature.key] using h
      obtain ⟨rfl, h₂⟩ := Kind.key_append_inj hf hg h₁
      obtain ⟨hform, h₃⟩ := Value.key_reads v w trivial _ _ (stops_cons _ (by decide))
        (stops_cons _ (by decide)) (List.cons.inj h₂).2
      exact ⟨by simp [Feature.canonical, hform], (List.cons.inj h₃).2⟩
    | _ => exact absurd htype (by simp [Feature.type])
  | .element s n k, hf => by
    intro g hg r r' hr hr' h
    have htype := Feature.type_eq_of_tag (Feature.tag_eq_of_key h)
    cases g with
    | element t m l =>
      have h₁ : s.key.toList ++ '.' :: ((json n).toList ++ ')' :: r)
          = t.key.toList ++ '.' :: ((json m).toList ++ ')' :: r') := by
        simpa [Feature.key] using h
      obtain ⟨hform, h₂⟩ := Source.key_reads s hf.2 t hg.2 _ _ h₁
      obtain ⟨rfl, h₃⟩ := json_append_inj (List.cons.inj h₂).2
      exact ⟨by simp [Feature.canonical, hform], (List.cons.inj h₃).2⟩
    | _ => exact absurd htype (by simp [Feature.type])
  | .expression op args t, hf => by
    intro g hg r r' hr hr' h
    have htag := Feature.tag_eq_of_key h
    have htype := Feature.type_eq_of_tag htag
    cases g with
    | expression op' args' t' =>
      obtain rfl := Operator.name_injective (show op.name = op'.name from htag)
      rw [Feature.toList_key_expression, Feature.toList_key_expression] at h
      have h₁ := (List.cons.inj (List.append_cancel_left h)).2
      obtain ⟨hargs, h₂⟩ := features_inj (Feature.allRead args hf.2) hf.2 hg.2
        (closes_cons _ (by decide)) (closes_cons _ (by decide)) h₁
      obtain ⟨rfl, h₃⟩ := target_inj hf.1 hg.1 hr hr' (List.cons.inj h₂).2
      exact ⟨by simp [Feature.canonical, hargs], h₃⟩
    | _ => exact absurd htype (by simp [Feature.type])
  | .window fn ps os fr, hf => by
    intro g hg r r' hr hr' h
    have htype := Feature.type_eq_of_tag (Feature.tag_eq_of_key h)
    cases g with
    | window fn' ps' os' fr' =>
      rw [Feature.toList_key_window, Feature.toList_key_window] at h
      have h₁ := List.append_cancel_left h
      obtain ⟨hfn, h₂⟩ := Feature.key_reads fn hf.2.1 fn' hg.2.1 _ _ (stops_cons _ (by decide))
        (stops_cons _ (by decide)) h₁
      obtain ⟨hps, h₃⟩ := features_inj (Feature.allRead ps hf.2.2.1) hf.2.2.1 hg.2.2.1
        (closes_cons _ (by decide)) (closes_cons _ (by decide)) (List.cons.inj h₂).2
      obtain ⟨hos, h₄⟩ := terms_inj (OrderTerm.allRead os hf.2.2.2) hf.2.2.2 hg.2.2.2
        (closes_cons _ (by decide)) (closes_cons _ (by decide)) (List.cons.inj h₃).2
      obtain ⟨hfr, h₅⟩ := frame_inj (List.cons.inj h₄).2
      exact ⟨by simp [Feature.canonical, hfn, hps, hos, hfr], h₅⟩
    | _ => exact absurd htype (by simp [Feature.type])

theorem Feature.allRead : ∀ fs : List Feature, featuresObey .distinct fs → ∀ f ∈ fs, f.Reads
  | [], _ => by simp
  | f :: r, h => List.forall_mem_cons.2 ⟨Feature.key_reads f h.1, Feature.allRead r h.2⟩

theorem Feature.optionReads :
    ∀ o : Option Feature, optionObeys .distinct o → ∀ f ∈ o, f.Reads
  | none, _ => by simp
  | some f, h => by
    have hf := Feature.key_reads f h
    rintro g ⟨⟩
    exact hf

/-- **A feature to order by is told from every other one by its key.** -/
theorem OrderTerm.key_reads : ∀ o : OrderTerm, o.Obeys .distinct → o.Reads
  | .by f d, hf => by
    intro o ho r r' hr hr' h
    cases o with
    | «by» g e =>
      have h₁ : f.key.toList ++ ' ' :: (d.name.toList ++ r)
          = g.key.toList ++ ' ' :: (e.name.toList ++ r') := by
        simpa [OrderTerm.key] using h
      obtain ⟨hform, h₂⟩ := Feature.key_reads f hf g ho _ _ (stops_cons _ (by decide))
        (stops_cons _ (by decide)) h₁
      have h₃ := (List.cons.inj h₂).2
      rcases d with _ | _ | (_ | _) <;> rcases e with _ | _ | (_ | _) <;>
        simp [Direction.name, Record.Member.text] at h₃ <;>
        exact ⟨by simp [OrderTerm.canonical, hform], h₃⟩

theorem OrderTerm.allRead : ∀ os : List OrderTerm, termsObey .distinct os → ∀ o ∈ os, o.Reads
  | [], _ => by simp
  | o :: r, h => List.forall_mem_cons.2 ⟨OrderTerm.key_reads o h.1, OrderTerm.allRead r h.2⟩

/-- **A source without structs is told from every other one by its key**, whatever follows. -/
theorem Source.key_reads : ∀ s : Source, s.Obeys .distinct → s.Reads
  | .table schema, hs => by
    intro t ht r r' h
    have htype := Source.type_eq_of_key h
    cases t with
    | table schema' =>
      have h₁ : schema.key.toList ++ r = schema'.key.toList ++ r' := by
        simpa [Source.key] using h
      obtain ⟨hform, hrest⟩ := Schema.key_append_inj hs ht h₁
      exact ⟨by simp [Source.canonical, hform], hrest⟩
    | _ => exact absurd htype (by simp [Source.type])
  | .reference s n, hs => by
    intro t ht r r' h
    have htype := Source.type_eq_of_key h
    cases t with
    | reference t m =>
      have h₁ : s.key.toList ++ (" AS ".toList ++ ((json n).toList ++ ')' :: r))
          = t.key.toList ++ (" AS ".toList ++ ((json m).toList ++ ')' :: r')) := by
        simpa [Source.key] using h
      obtain ⟨hform, h₂⟩ := Source.key_reads s hs.2 t ht.2 _ _ h₁
      obtain ⟨rfl, h₃⟩ := json_append_inj (List.append_cancel_left h₂)
      exact ⟨by simp [Source.canonical, hform], (List.cons.inj h₃).2⟩
    | _ => exact absurd htype (by simp [Source.type])
  | .join l q k c, hs => by
    intro t ht r r' h
    have htype := Source.type_eq_of_key h
    cases t with
    | join l' q' k' c' =>
      have h₁ : l.key.toList ++ ' ' :: (k.name.toList ++ ' ' :: (q.key.toList ++
            (" ON ".toList ++ ((optionKey c).toList ++ ')' :: r))))
          = l'.key.toList ++ ' ' :: (k'.name.toList ++ ' ' :: (q'.key.toList ++
            (" ON ".toList ++ ((optionKey c').toList ++ ')' :: r')))) := by
        simpa [Source.key] using h
      have word : ∀ x : JoinType, ∀ y ∈ x.name.toList, Char.isAlpha y = true := by
        intro x; cases x <;> simp [JoinType.name]
      obtain ⟨hl, h₂⟩ := Source.key_reads l hs.2.1 l' ht.2.1 _ _ h₁
      obtain ⟨hk, h₃⟩ := takeWhile_append_inj Char.isAlpha (word k) (word k') (by decide)
        (by decide) (List.cons.inj h₂).2
      obtain ⟨hq, h₄⟩ := Source.key_reads q hs.2.2.1 q' ht.2.2.1 _ _ (List.cons.inj h₃).2
      obtain ⟨hc, h₅⟩ := option_inj (Feature.optionReads c hs.2.2.2) ht.2.2.2
        (closes_cons _ (by decide)) (closes_cons _ (by decide)) (List.append_cancel_left h₄)
      exact ⟨by simp [Source.canonical, hl, hq, hc,
        JoinType.name_injective (String.toList_inj.1 hk)], (List.cons.inj h₅).2⟩
    | _ => exact absurd htype (by simp [Source.type])
  | .set l q k, hs => by
    intro t ht r r' h
    have htype := Source.type_eq_of_key h
    cases t with
    | set l' q' k' =>
      have h₁ : l.key.toList ++ ' ' :: (k.name.toList ++ ' ' :: (q.key.toList ++ ')' :: r))
          = l'.key.toList ++ ' ' :: (k'.name.toList ++ ' ' :: (q'.key.toList ++ ')' :: r')) := by
        simpa [Source.key] using h
      have word : ∀ x : SetOp, ∀ y ∈ x.name.toList, Char.isAlpha y = true := by
        intro x; cases x <;> simp [SetOp.name]
      obtain ⟨hl, h₂⟩ := Source.key_reads l hs.2.1 l' ht.2.1 _ _ h₁
      obtain ⟨hk, h₃⟩ := takeWhile_append_inj Char.isAlpha (word k) (word k') (by decide)
        (by decide) (List.cons.inj h₂).2
      obtain ⟨hq, h₄⟩ := Source.key_reads q hs.2.2 q' ht.2.2 _ _ (List.cons.inj h₃).2
      exact ⟨by simp [Source.canonical, hl, hq, SetOp.name_injective (String.toList_inj.1 hk)],
        (List.cons.inj h₄).2⟩
    | _ => exact absurd htype (by simp [Source.type])
  | .query s sel pre grp post ord rows, hs => by
    intro t ht r r' h
    have htype := Source.type_eq_of_key h
    cases t with
    | query s' sel' pre' grp' post' ord' rows' =>
      obtain ⟨hrows, hs, hsel, hpre, hgrp, hpost, hord⟩ := hs
      obtain ⟨hrows', hs', hsel', hpre', hgrp', hpost', hord'⟩ := ht
      rw [Source.toList_key_query, Source.toList_key_query] at h
      obtain ⟨hsource, h₂⟩ := Source.key_reads s hs s' hs' _ _ (List.append_cancel_left h)
      obtain ⟨hselect, h₃⟩ := features_inj (Feature.allRead sel hsel) hsel hsel'
        (closes_cons _ (by decide)) (closes_cons _ (by decide))
        (List.append_cancel_left (List.cons.inj h₂).2)
      obtain ⟨hwhere, h₄⟩ := option_inj (Feature.optionReads pre hpre) hpre'
        (closes_cons _ (by decide)) (closes_cons _ (by decide))
        (List.append_cancel_left (List.cons.inj h₃).2)
      obtain ⟨hgroup, h₅⟩ := features_inj (Feature.allRead grp hgrp) hgrp hgrp'
        (closes_cons _ (by decide)) (closes_cons _ (by decide))
        (List.append_cancel_left (List.cons.inj h₄).2)
      obtain ⟨hhaving, h₆⟩ := option_inj (Feature.optionReads post hpost) hpost'
        (closes_cons _ (by decide)) (closes_cons _ (by decide))
        (List.append_cancel_left (List.cons.inj h₅).2)
      obtain ⟨horder, h₇⟩ := terms_inj (OrderTerm.allRead ord hord) hord hord'
        (closes_cons _ (by decide)) (closes_cons _ (by decide))
        (List.append_cancel_left (List.cons.inj h₆).2)
      obtain ⟨hlimit, h₈⟩ := rows_inj hrows hrows' (List.append_cancel_left (List.cons.inj h₇).2)
      exact ⟨by simp [Source.canonical, hsource, hselect, hwhere, hgroup, hhaving, horder, hlimit],
        h₈⟩
    | _ => exact absurd htype (by simp [Source.type])

end

end QueryAlgebra
