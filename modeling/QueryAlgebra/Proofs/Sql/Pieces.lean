import QueryAlgebra.Proofs.Sql.Statement

/-!
# Pieces of statements

A statement is made of text and of literals, which SQL may have in its text or as bound parameters.

* `Piece`: a part of a statement, text or a place for a literal.
* `Fills`: a text and a fragment that have the same pieces.
* `fills_literal`: what both make of a literal has the same pieces.
* `fills_between`, `fills_front`, `fills_behind`, `fills_call`: so has what they make of an expression,
  if its arguments have.
-/

namespace QueryAlgebra.Sql

open Translation

instance : Inhabited Fragment := ⟨.raw ""⟩

/-- A part of a statement. -/
inductive Piece where
  | text (s : String)
  /-- The place of a literal. -/
  | hole (value : Value) (kind : Kind)

/-- The literals of primitive kinds that a literal consists of. -/
def literalItems : Kind → Value → List (Value × Kind)
  | .array e, v =>
    match v with
    | .list items => items.flatMap fun item => literalItems e item
    | _           => []
  | k, v => [(v, k)]

namespace Piece

/-- The piece with the literal in the text. -/
def inlined : Piece → String
  | .text s   => s
  | .hole v k => given (literalText k v)

/-- The piece with the literal bound. -/
def placeholder : Piece → String
  | .text s   => s
  | .hole _ _ => "?"

/-- The parameter that is bound. -/
def params : Piece → List Value
  | .text _   => []
  | .hole v _ => [v]

/-- A hole is the place of a literal of the sort `L`, or of an item of one, and has a text. -/
def From (L : Value → Kind → Prop) : Piece → Prop
  | .text _   => True
  | .hole v k => (∃ w l, L w l ∧ (v, k) ∈ literalItems l w) ∧ ∃ t, literalText k v = .ok t

end Piece

/-- The text and the fragment have the same pieces: the text has literals where the fragment has
placeholders, whose parameters are bound in the same order. -/
def Fills (L : Value → Kind → Prop) (t : String) (f : Fragment) : Prop :=
  ∃ ps : List Piece, (∀ p ∈ ps, p.From L) ∧ t = "".intercalate (ps.map Piece.inlined) ∧
    f.text = "".intercalate (ps.map Piece.placeholder) ∧ f.params = ps.flatMap Piece.params

theorem toList_concat : ∀ ts : List String, ("".intercalate ts).toList = ts.flatMap String.toList
  | [] => rfl
  | [t] => by simp
  | t :: u :: r => by
    rw [String.intercalate_cons_cons, String.toList_append, String.toList_append,
      toList_concat (u :: r)]
    simp

theorem concat_append (ts us : List String) :
    "".intercalate (ts ++ us) = "".intercalate ts ++ "".intercalate us := by
  apply String.toList_inj.1
  rw [String.toList_append, toList_concat, toList_concat, toList_concat, List.flatMap_append]

variable {L : Value → Kind → Prop}

namespace Fills

variable {t u : String} {f g : Fragment}

/-- The form of a fragment does not matter. -/
theorem congr (h : Fills L t f) (text : g.text = f.text) (params : g.params = f.params) :
    Fills L t g := by
  obtain ⟨ps, hps, ht, hf, hp⟩ := h
  exact ⟨ps, hps, ht, text.trans hf, params.trans hp⟩

/-- Where nothing is bound, the text is that of the fragment. -/
theorem text_eq (h : Fills L t f) (none : f.params = []) : t = f.text := by
  obtain ⟨ps, -, rfl, hf, hp⟩ := h
  rw [hf]
  refine congrArg _ (List.map_congr_left fun p hps => ?_)
  cases p with
  | text s => rfl
  | hole v k =>
    have bound : v ∈ f.params := hp ▸ List.mem_flatMap.2 ⟨_, hps, List.mem_singleton_self v⟩
    rw [none] at bound
    cases bound

theorem raw (s : String) : Fills L s (Fragment.raw s) :=
  ⟨[.text s], by simp [Piece.From], by simp [Piece.inlined],
    by simp [Fragment.raw, Piece.placeholder], by simp [Fragment.raw, Piece.params]⟩

theorem hole {v : Value} {k : Kind} (from' : (Piece.hole v k).From L)
    (ht : literalText k v = .ok t) : Fills L t (Fragment.param v) :=
  ⟨[.hole v k], by simpa using from', by simp [Piece.inlined, ht, given, Except.toOption],
    by simp [Fragment.param, Piece.placeholder], by simp [Fragment.param, Piece.params]⟩

theorem append (ht : Fills L t f) (hu : Fills L u g) (form : Form) :
    Fills L (t ++ u) ⟨f.text ++ g.text, f.params ++ g.params, form⟩ := by
  obtain ⟨ps, hps, rfl, hf, hp⟩ := ht
  obtain ⟨qs, hqs, rfl, hg, hq⟩ := hu
  refine ⟨ps ++ qs, List.forall_mem_append.2 ⟨hps, hqs⟩, ?_, ?_, ?_⟩
  · rw [List.map_append, concat_append]
  · rw [List.map_append, concat_append, hf, hg]
  · rw [List.flatMap_append, hp, hq]

/-- Texts and fragments one after the other, with a text between them. -/
theorem sep (between : String) {ts : List String} {fs : List Fragment}
    (h : List.Forall₂ (Fills L) ts fs) : Fills L (between.intercalate ts) (.sep between fs) := by
  induction h with
  | nil => exact (raw "").congr rfl rfl
  | @cons t f ts fs h r ih =>
    cases r with
    | nil =>
      refine (show Fills L (between.intercalate [t]) f by simpa using h).congr ?_ ?_
      · simp [Fragment.sep]
      · simp [Fragment.sep]
    | @cons u g us gs h' r =>
      rw [String.intercalate_cons_cons]
      refine ((h.append (raw between) .plain).append ih .plain).congr ?_ ?_
      · simp [Fragment.sep, Fragment.raw, String.intercalate_cons_cons]
      · simp [Fragment.sep, Fragment.raw]

/-- Pieces of the items of a list. -/
theorem each {α : Type} {write : α → String} {make : α → Fragment} {as : List α}
    (h : ∀ a ∈ as, Fills L (write a) (make a)) :
    List.Forall₂ (Fills L) (as.map write) (as.map make) :=
  List.forall₂_map_left_iff.2 (List.forall₂_map_right_iff.2 (List.forall₂_same.2 h))

theorem option {α : Type} {write : α → String} {make : α → Fragment} {o : Option α}
    (h : ∀ a ∈ o, Fills L (write a) (make a)) :
    List.Forall₂ (Fills L) (o.map write).toList (o.map make).toList := by
  cases o with
  | none => exact .nil
  | some a => exact .cons (h a rfl) .nil

/-- Texts and fragments one after the other. -/
theorem cat {ts : List String} {fs : List Fragment} (h : List.Forall₂ (Fills L) ts fs)
    (whole : t = "".intercalate ts) : Fills L t (.cat fs) :=
  whole ▸ (sep "" h).congr rfl rfl

theorem listed {ts : List String} {fs : List Fragment} (h : List.Forall₂ (Fills L) ts fs) :
    Fills L (Sql.listed ts) (.listed fs) := sep ", " h

theorem ofForm (h : Fills L t f) (form : Form) : Fills L t (f.ofForm form) := h.congr rfl rfl

theorem parens (h : Fills L t f) : Fills L (Sql.parens t) f.parens :=
  cat (.cons (raw "(") (.cons h (.cons (raw ")") .nil)))
    (String.toList_inj.1 (by simp [Sql.parens]))

theorem identifier {n : String} (h : '"' ∉ n.toList) :
    Fills L (Dialect.standard.quoted n) (.identifier n) := by
  have same : Dialect.standard.quoted n = "\"" ++ n ++ "\"" := Text.doubled_of_not_mem h
  rw [same]
  exact raw _

/-- A keyword before a text. -/
theorem clause (k : String) (h : Fills L t f) : Fills L (k ++ " " ++ t) (.clause k f) :=
  cat (.cons (raw k) (.cons (raw " ") (.cons h .nil)))
    (String.toList_inj.1 (by simp))

/-- A text is in parentheses where its fragment is. -/
theorem parensIf (h : Fills L t f) {b : Bool} {forms : List Form} (hb : b = forms.contains f.form) :
    Fills L (if b then Sql.parens t else t) (f.parensIf forms) := by
  subst hb
  unfold Fragment.parensIf
  split
  · exact h.parens
  · exact h

end Fills

/-! ### Literals -/

/-- Two computations that fail alike or have related results item by item do so for a list. -/
theorem mapM_alike {α β γ : Type} {R : β → γ → Prop} {f : α → Except Fault β}
    {g : α → Except Fault γ} : ∀ {as : List α},
      (∀ a ∈ as, (∃ e, f a = .error e ∧ g a = .error e) ∨ ∃ b c, f a = .ok b ∧ g a = .ok c ∧ R b c) →
      (∃ e, as.mapM f = .error e ∧ as.mapM g = .error e) ∨
        ∃ bs cs, as.mapM f = .ok bs ∧ as.mapM g = .ok cs ∧ List.Forall₂ R bs cs
  | [], _ => .inr ⟨[], [], rfl, rfl, .nil⟩
  | a :: as, h => by
    obtain ⟨ha, hr⟩ := List.forall_mem_cons.1 h
    simp only [List.mapM_cons]
    rcases ha with ⟨e, hf, hg⟩ | ⟨b, c, hf, hg, hbc⟩
    · exact .inl ⟨e, by rw [hf]; rfl, by rw [hg]; rfl⟩
    · rcases mapM_alike hr with ⟨e, hfs, hgs⟩ | ⟨bs, cs, hfs, hgs, hbcs⟩
      · exact .inl ⟨e, by rw [hf, hfs]; rfl, by rw [hg, hgs]; rfl⟩
      · exact .inr ⟨b :: bs, c :: cs, by rw [hf, hfs]; rfl, by rw [hg, hgs]; rfl, .cons hbc hbcs⟩

/-- The literals of a value of a kind that was cast to it are the same on both sides, or both are
refused. -/
theorem fills_literal : ∀ {k : Kind} {v : Value}, (∃ u, k.cast u = .ok v) →
    (∀ x ∈ literalItems k v, ∃ w l, L w l ∧ x ∈ literalItems l w) →
    (∃ e, literalText k v = .error e ∧ Fragment.literal k v = .error e) ∨
      ∃ t f, literalText k v = .ok t ∧ Fragment.literal k v = .ok f ∧ Fills L t f ∧ f.form = .plain
  | .primitive p, v, ⟨u, hu⟩, items => by
    obtain ⟨t, ht⟩ := literalText_cast (k := .primitive p) trivial hu
    exact .inr ⟨t, .param v, ht, rfl, .hole ⟨items _ (by simp [literalItems]), t, ht⟩ ht, rfl⟩
  | .array e, v, made, items => by
    obtain ⟨vs, rfl, cast⟩ := items_of_cast made
    have each : ∀ w ∈ vs, ∀ x ∈ literalItems e w, ∃ w l, L w l ∧ x ∈ literalItems l w :=
      fun w hw x hx => items x (by simpa only [literalItems] using List.mem_flatMap.2 ⟨w, hw, hx⟩)
    simp only [literalText, Fragment.literal]
    rcases mapM_alike fun w hw => fills_literal (cast w hw) (each w hw) with
      ⟨fault, ht, hf⟩ | ⟨ts, fs, ht, hf, parts⟩
    · exact .inl ⟨fault, by rw [ht]; rfl, by rw [hf]; rfl⟩
    · refine .inr ⟨_, _, by rw [ht]; rfl, by rw [hf]; rfl, ?_, rfl⟩
      have parts : List.Forall₂ (Fills L) ts fs := parts.imp fun _ _ h => h.1
      exact .cat (.cons (.raw "ARRAY[") (.cons (.listed parts) (.cons (.raw "]") .nil)))
        (String.toList_inj.1 (by simp))
  | .map k e, v, _, _ =>
    .inl ⟨.literalKind (Kind.map k e).text, by simp only [literalText], by simp only [Fragment.literal]⟩
  | .struct es, v, _, _ =>
    .inl ⟨.literalKind (Kind.struct es).text, by simp only [literalText],
      by simp only [Fragment.literal]⟩

/-! ### Expressions -/

variable {ts : List String} {fs : List Fragment} {op : Operator}

theorem fills_between (h : op.fixity = .between) (operands : List.Forall₂ (Fills L)
    (ts.map Dialect.standard.operand) (fs.map Fragment.operand)) (k : Kind) :
    Fills L (given (Dialect.standard.expressionText op ts k)) (given (Fragment.expression op fs k)) ∧
      (given (Fragment.expression op fs k)).form = .compound := by
  have fragment : Fragment.expression op fs k = .ok ((Fragment.sep
      (" " ++ Dialect.standard.symbol op ++ " ") (fs.map Fragment.operand)).ofForm .compound) := by
    cases op <;> first | rfl | cases h
  rw [Dialect.expressionText_between h, fragment]
  exact ⟨(Fills.sep _ operands).ofForm .compound, rfl⟩

theorem fills_front (h : op.fixity = .front) (operands : List.Forall₂ (Fills L)
    (ts.map Dialect.standard.operand) (fs.map Fragment.operand)) (k : Kind) :
    Fills L (given (Dialect.standard.expressionText op ts k)) (given (Fragment.expression op fs k)) ∧
      (given (Fragment.expression op fs k)).form = .compound := by
  have fragment : Fragment.expression op fs k = .ok ((Fragment.cat
      (.raw op.symbol :: .raw " " :: fs.map Fragment.operand)).ofForm .compound) := by
    cases op <;> first | rfl | cases h
  rw [Dialect.expressionText_front h, fragment]
  refine ⟨(Fills.cat (.cons (.raw op.symbol) (.cons (.raw " ") operands)) ?_).ofForm .compound, rfl⟩
  exact String.toList_inj.1
    (by simp [given, Except.toOption, -String.toList_intercalate, toList_concat])

theorem fills_behind (h : op.fixity = .behind) (operands : List.Forall₂ (Fills L)
    (ts.map Dialect.standard.operand) (fs.map Fragment.operand)) (k : Kind) :
    Fills L (given (Dialect.standard.expressionText op ts k)) (given (Fragment.expression op fs k)) ∧
      (given (Fragment.expression op fs k)).form = .compound := by
  have fragment : Fragment.expression op fs k = .ok ((Fragment.cat
      (fs.map Fragment.operand ++ [.raw " ", .raw op.symbol])).ofForm .compound) := by
    cases op <;> first | rfl | cases h
  rw [Dialect.expressionText_behind h, fragment]
  refine ⟨(Fills.cat (List.rel_append operands (.cons (.raw " ") (.cons (.raw op.symbol) .nil)))
    ?_).ofForm .compound, rfl⟩
  exact String.toList_inj.1
    (by simp [given, Except.toOption, -String.toList_intercalate, toList_concat])

theorem fills_call (h : op.fixity = .call) (args : List.Forall₂ (Fills L) ts fs) {t : Option Kind}
    (target : castTarget op (t.getD default) = .ok t) :
    Fills L (given (Dialect.standard.expressionText op ts (t.getD default)))
        (given (Fragment.expression op fs (t.getD default))) ∧
      (given (Fragment.expression op fs (t.getD default))).form = .plain := by
  by_cases hc : op = .cast
  · subst hc
    unfold castTarget at target
    cases ht : typeName? (t.getD default) with
    | none => simp [ht] at target
    | some n =>
      simp only [Dialect.expressionText, Fragment.expression, ht]
      refine ⟨Fills.cat (.cons (.raw "CAST(") (List.rel_append args
        (.cons (.raw " AS ") (.cons (.raw n) (.cons (.raw ")") .nil))))) ?_, rfl⟩
      exact String.toList_inj.1
        (by simp [given, Except.toOption, -String.toList_intercalate, toList_concat])
  · by_cases hn : op = .count
    · subst hn
      have star : List.Forall₂ (Fills L) (if ts.isEmpty then ["*"] else ts)
          (if fs.isEmpty then [.raw "*"] else fs) := by
        cases args with
        | nil => exact .cons (.raw "*") .nil
        | cons h r => exact .cons h r
      refine ⟨Fills.cat (.cons (.raw "count(") (List.rel_append star (.cons (.raw ")") .nil))) ?_, rfl⟩
      cases ts <;> exact String.toList_inj.1 (by
        simp [Dialect.expressionText, given, Except.toOption, -String.toList_intercalate, toList_concat])
    · have text : Dialect.standard.expressionText op ts (t.getD default)
          = .ok (op.symbol ++ "(" ++ listed ts ++ ")") := by
        cases op <;> first | rfl | exact absurd rfl hc | exact absurd rfl hn | cases h
      have fragment : Fragment.expression op fs (t.getD default)
          = .ok (.cat [.raw op.symbol, .raw "(", .listed fs, .raw ")"]) := by
        cases op <;> first | rfl | exact absurd rfl hc | exact absurd rfl hn | cases h
      rw [text, fragment]
      refine ⟨Fills.cat (.cons (.raw op.symbol) (.cons (.raw "(") (.cons (.listed args)
        (.cons (.raw ")") .nil)))) ?_, rfl⟩
      exact String.toList_inj.1 (by simp [given, Except.toOption])

end QueryAlgebra.Sql
